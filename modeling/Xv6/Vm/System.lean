import Xv6.Lib.Int32
import Xv6.Lib.Machine
import Xv6.Sched.Table
import Xv6.Vm.Pages

/-!
# Processes, their memory and the shared blocks

`proc.c`, `exec.c` and `sharedmem.c` over the page tables: the calls that move
pages about.  A call is one step of the machine.  A panic ends the run.
-/

namespace Xv6.Vm

open Xv6.Lib
open Xv6.Sched (Slot NPROC)

def MAXSHM : Nat := 12

def MAXSHMPROC : Nat := 4

inductive Life
  | unused
  | live
  | zombie
  deriving DecidableEq

/-- The fields of `struct proc` that the calls below read or write. -/
structure Proc where
  life : Life
  pid : Int
  parent : Option Slot
  sz : Nat
  pgdir : PageDir
  kstack : Frame
  shmemquantity : Int
  shmref : Nat → Nat
  shmem : Nat → Int

structure Block where
  addr : Frame
  refcount : Int
  deriving DecidableEq

/-- The kernel's tables: processes, shared blocks and the pages of pipes.  Entry
`MAXSHM` of the blocks is what follows the array in `shmtable`: the lock, whose
name lies where a block has its `refcount`. -/
structure Kernel where
  proc : Slot → Proc
  initproc : Slot
  nextpid : Int
  block : Nat → Block
  quantity : Nat
  pipes : List Frame

namespace Kernel

def setProc (k : Kernel) (p : Slot) (r : Proc) : Kernel :=
  { k with proc := Function.update k.proc p r }

def setBlock (k : Kernel) (i : Nat) (b : Block) : Kernel :=
  { k with block := Function.update k.block i b }

/-- `is_shared`: one more than the index of the attached block with this page, or
0. -/
def isShared (k : Kernel) (f : Frame) : Nat :=
  match (List.range MAXSHM).find? fun j => (k.block j).addr = f ∧ 0 < (k.block j).refcount with
  | some j => j + 1
  | none => 0

def shared (k : Kernel) (f : Frame) : Bool := k.isShared f ≠ 0

end Kernel

/-! ## sharedmem.c -/

def shmInit (name : Int) : Nat → Block := fun i =>
  if i < MAXSHM then ⟨NULL, -1⟩ else ⟨NULL, name⟩

/-- `shm_create`: the index of the block, or -1. -/
def shmCreate (k : Kernel) : VmM (Int × Kernel) :=
  if k.quantity = MAXSHM then pure (-1, k)
  else
    match (List.range MAXSHM).find? fun i => (k.block i).refcount = -1 with
    | none => pure (-1, k)
    | some i => do
      let mem ← kalloc
      pure (i, { k.setBlock i ⟨mem.getD NULL, 0⟩ with quantity := (k.quantity + 1) % 2 ^ 16 })

def shmSlot (r : Proc) (key : Int) : Option Nat :=
  (List.range MAXSHMPROC).find? fun i => r.shmem i = key

def shmClose (k : Kernel) (p : Slot) (key : Int) : VmM (Int × Kernel) :=
  if key < 0 ∨ MAXSHM < key ∨ (k.block key.toNat).refcount = -1 then pure (-1, k)
  else
    let r := k.proc p
    match shmSlot r key with
    | none => pure (-1, k)
    | some i => do
      let b := k.block key.toNat
      let last := b.refcount - 1 = 0
      let refcount := if last then -1 else b.refcount - 1
      let d ← unmap r.pgdir (r.shmref i) PGSIZE refcount
      let k := { k.setBlock key.toNat { b with refcount := refcount } with
        quantity := if last then (k.quantity + 2 ^ 16 - 1) % 2 ^ 16 else k.quantity }
      pure (0, k.setProc p
        { r with
          shmemquantity := r.shmemquantity - 1
          shmem := Function.update r.shmem i (-1)
          pgdir := d })

/-- The store `*addr = a` of `shm_get`, where `addr` is the word `mem` that the user has
passed.  A fault in the kernel is a panic.  In the kernel's memory the store can hit the
reference count of a block; where it hits anything else the run ends. -/
def storeAddr (k : Kernel) (p : Slot) (mem a : Nat) : VmM Kernel :=
  let d := (k.proc p).pgdir
  if ¬ (d.writable (mem / PGSIZE) ∧ d.writable ((mem + 3) % 2 ^ 32 / PGSIZE)) then
    Prog.panic () "trap"
  else if mem + 4 ≤ KERNBASE then pure k
  else do
    let table ← Prog.atomic () fun m => .ok (m.shmtable, m)
    match (List.range MAXSHM).find? fun i => table + 8 * i + 4 = mem with
    | some i => pure (k.setBlock i { k.block i with refcount := int32 a })
    | none => Prog.panic () "kernel memory overwritten"

/-- `shm_get`: the address that it stores at `mem`, or nothing for -1.  The page it maps is
that of the block whose index is the slot. -/
def shmGet (k : Kernel) (p : Slot) (key : Int) (mem : Nat) : VmM (Option Nat × Kernel) :=
  if key < 0 ∨ MAXSHM < key ∨ (k.block key.toNat).refcount = MAXSHMPROC then pure (none, k)
  else
    let r := k.proc p
    match shmSlot r (-1) with
    | none => pure (none, k)
    | some i => do
      let b := k.block key.toNat
      let addr := PGROUNDDOWN r.sz
      let (d, _) ← mappages r.pgdir addr PGSIZE (k.block i).addr true true
      let k := (k.setBlock key.toNat { b with refcount := b.refcount + 1 }).setProc p
        { r with
          shmem := Function.update r.shmem i key
          shmemquantity := r.shmemquantity + 1
          pgdir := d
          shmref := Function.update r.shmref i addr
          sz := (r.sz + PGSIZE) % 2 ^ 32 }
      let k ← storeAddr k p mem addr
      pure (some addr, k)

def sysShmGet (k : Kernel) (p : Slot) (key : Int) (mem : Nat) : VmM (Option Nat × Kernel) :=
  if (MAXSHMPROC : Int) ≤ (k.proc p).shmemquantity then pure (none, k)
  else shmGet k p key mem

/-! ## proc.c -/

def growproc (k : Kernel) (p : Slot) (n : Int) : VmM (Int × Kernel) := do
  let r := k.proc p
  let newsz := ((r.sz + n) % 2 ^ 32).toNat
  if 0 < n then
    let (d, sz) ← allocuvm k.shared r.pgdir r.sz newsz
    if sz = 0 then pure (-1, k.setProc p { r with pgdir := d })
    else pure (0, k.setProc p { r with pgdir := d, sz := sz })
  else if n < 0 then
    let (d, sz) ← deallocuvm k.shared r.pgdir r.sz newsz
    if sz = 0 then pure (-1, k.setProc p { r with pgdir := d })
    else pure (0, k.setProc p { r with pgdir := d, sz := sz })
  else pure (0, k)

def unusedSlot (k : Kernel) : Option Slot :=
  (List.finRange NPROC).find? fun q => (k.proc q).life = .unused

def fork (k : Kernel) (p : Slot) : VmM (Int × Kernel) := do
  match unusedSlot k with
  | none => pure (-1, k)
  | some q => do
    let pid := k.nextpid
    let k := { k with nextpid := k.nextpid + 1 }
    match ← kalloc with
    | none => pure (-1, k)
    | some kstack => do
      let r := k.proc p
      match ← copyuvm k.shared r.pgdir r.sz with
      | none => do
        kfree kstack
        pure (-1, k)
      | some d =>
        pure (pid, k.setProc q
          { (k.proc q) with
            life := .live
            pid := pid
            kstack := kstack
            pgdir := d
            sz := r.sz
            parent := some p
            shmem := fun _ => -1 })

def closeAll (p : Slot) : List Nat → Kernel → VmM Kernel
  | [], k => pure k
  | i :: is, k =>
    if (k.proc p).shmem i ≠ -1 then do
      let (_, k) ← shmClose k p ((k.proc p).shmem i)
      closeAll p is k
    else closeAll p is k

/-- The end of `exit`: children pass to init and the process is a zombie. -/
def Kernel.bury (k : Kernel) (p : Slot) : Kernel :=
  { k with
    proc := fun q =>
      let r := k.proc q
      let r := if r.parent = some p then { r with parent := some k.initproc } else r
      if q = p then { r with life := .zombie, shmemquantity := 0 } else r }

def exit (k : Kernel) (p : Slot) : VmM (Int × Kernel) :=
  if p = k.initproc then Prog.panic () "init exiting"
  else do
    let k ← closeAll p (List.range MAXSHMPROC) k
    pure (0, k.bury p)

def wait (k : Kernel) (p : Slot) : VmM (Int × Kernel) :=
  let kids := (List.finRange NPROC).filter fun q => (k.proc q).parent = some p
  match kids.find? fun q => (k.proc q).life = .zombie with
  | some q => do
    let r := k.proc q
    kfree r.kstack
    freevm k.shared r.pgdir
    pure (r.pid, k.setProc q { r with life := .unused, pid := 0, parent := none })
  | none => if kids.isEmpty then pure (-1, k) else .atomic () fun _ => .halt .block

/-! ## exec.c -/

/-- A program header, and what becomes of reading it and the segment. -/
structure ProgHdr where
  /-- `readi` reads the whole header. -/
  readable : Bool
  /-- The type is `ELF_PROG_LOAD`. -/
  load : Bool
  vaddr : Nat
  memsz : Nat
  filesz : Nat
  /-- The pages of the segment that `readi` reads whole. -/
  reads : Nat

/-- What `exec` finds: whether there is a file with an ELF header, its program
headers, and whether the arguments can be copied out to the new stack. -/
structure Image where
  elf : Bool
  headers : List ProgHdr
  fits : Bool

/-- The loop of `exec` over the program headers, from size `sz`; no size is its jump
to `bad`. -/
def loadSegments (shared : Frame → Bool) : List ProgHdr → PageDir → Nat → VmM (PageDir × Option Nat)
  | [], d, sz => pure (d, some sz)
  | ph :: phs, d, sz =>
    if !ph.readable then pure (d, none)
    else if !ph.load then loadSegments shared phs d sz
    else if ph.memsz < ph.filesz then pure (d, none)
    else do
      let (d, sz) ← allocuvm shared d sz ((ph.vaddr + ph.memsz) % 2 ^ 32)
      if sz = 0 then pure (d, none)
      else do
        let loaded ← loaduvm d ph.vaddr ph.filesz ph.reads
        if loaded then loadSegments shared phs d sz else pure (d, none)

def execBad (shared : Frame → Bool) (d : PageDir) : VmM (Option (PageDir × Nat)) := do
  freevm shared d
  pure none

/-- The stack that `exec` puts above the image, from `sz` to `top`: two pages, the
first inaccessible.  `fits` says whether the arguments could be copied out to it. -/
def execStack (shared : Frame → Bool) (fits : Bool) (d : PageDir) (sz top : Nat) :
    VmM (Option (PageDir × Nat)) := do
  let (d, sz) ← allocuvm shared d sz top
  if sz = 0 then execBad shared d
  else do
    let d ← clearpteu d (sz - 2 * PGSIZE)
    if fits then pure (some (d, sz)) else execBad shared d

/-- The new address space of `exec`, with its size; nothing after `bad`. -/
def execSpace (shared : Frame → Bool) (img : Image) : VmM (Option (PageDir × Nat)) :=
  if !img.elf then pure none
  else do
    match ← setupkvm with
    | none => pure none
    | some d => do
      match ← loadSegments shared img.headers d 0 with
      | (d, none) => execBad shared d
      | (d, some sz) =>
        execStack shared img.fits d (PGROUNDUP sz) ((PGROUNDUP sz + 2 * PGSIZE) % 2 ^ 32)

def exec (k : Kernel) (p : Slot) (img : Image) : VmM (Int × Kernel) := do
  match ← execSpace k.shared img with
  | none => pure (-1, k)
  | some (d, sz) => do
    let r := k.proc p
    freevm k.shared r.pgdir
    pure (0, k.setProc p { r with pgdir := d, sz := sz })

/-! ## pipe.c -/

def pipealloc (k : Kernel) : VmM (Int × Kernel) := do
  match ← kalloc with
  | none => pure (-1, k)
  | some f => pure (0, { k with pipes := f :: k.pipes })

def pipeclose (k : Kernel) (f : Frame) : VmM (Int × Kernel) :=
  if f ∈ k.pipes then do
    kfree f
    pure (0, { k with pipes := k.pipes.erase f })
  else pure (-1, k)

/-! ## The machine -/

inductive Call
  | sbrk (n : Int)
  | fork
  | exec (img : Image)
  | exit
  | wait
  | shmCreate
  | shmGet (key : Int) (mem : Nat)
  | shmClose (key : Int)
  | pipe
  | pipeclose (f : Frame)

/-- The code of a call of process `p`; its arguments are words. -/
def Call.code (k : Kernel) (p : Slot) : Call → VmM (Int × Kernel)
  | .sbrk n => growproc k p (int32 n)
  | .fork => Vm.fork k p
  | .exec img => Vm.exec k p img
  | .exit => Vm.exit k p
  | .wait => Vm.wait k p
  | .shmCreate => Vm.shmCreate k
  | .shmGet key mem => do
    let (a, k) ← sysShmGet k p (int32 key) mem
    pure (if a.isSome then 0 else -1, k)
  | .shmClose key => Vm.shmClose k p (int32 key)
  | .pipe => pipealloc k
  | .pipeclose f => Vm.pipeclose k f

structure State where
  kern : Kernel
  mem : Mem

structure Event where
  proc : Slot
  call : Call

def next (s : State) (e : Event) : Option State :=
  if (s.kern.proc e.proc).life = .live then
    match (e.call.code s.kern e.proc).run s.mem with
    | .ok ((_, k), m) => some ⟨k, m⟩
    | .halt _ => none
  else none

def noProc : Proc :=
  { life := .unused, pid := 0, parent := none, sz := 0, pgdir := ⟨NULL, fun _ => none⟩,
    kstack := NULL, shmemquantity := 0, shmref := fun _ => 0, shmem := fun _ => 0 }

/-- `userinit`, after `pinit` has set up the shared blocks; `name` is the address of
the name of their lock.  The first process keeps the zeros in its `shmem`. -/
def userinit (name : Int) : VmM Kernel := do
  let p : Slot := ⟨0, Sched.zero_lt_NPROC⟩
  match ← kalloc with
  | none => Prog.panic () "userinit: no process"
  | some kstack => do
    match ← setupkvm with
    | none => Prog.panic () "userinit: out of memory?"
    | some d => do
      match ← kalloc with
      | none => Prog.panic () "inituvm: no page"
      | some f => do
        let (d, _) ← mappages d 0 PGSIZE f true true
        pure
          { proc := Function.update (fun _ => noProc) p
              { noProc with
                life := .live, pid := 1, kstack := kstack, pgdir := d, sz := PGSIZE }
            initproc := p, nextpid := 2, block := shmInit name, quantity := 0, pipes := [] }

def machine (s₀ : State) : Machine State Event := Machine.ofFun s₀ next

def boot (name : Int) (m : Mem) : Option State :=
  match (userinit name).run m with
  | .ok (k, m) => some ⟨k, m⟩
  | .halt _ => none

/-- A boot with a sound free list that has pages enough for the first process. -/
structure Boots (name : Int) (m : Mem) (s₀ : State) : Prop where
  nodup : m.free.Nodup
  ram : ∀ f ∈ m.free, m.isRam f = true
  room : kernelTables.length + 4 ≤ m.free.length
  boot : boot name m = some s₀

end Xv6.Vm
