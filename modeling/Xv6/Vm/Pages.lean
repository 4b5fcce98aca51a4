import Xv6.Lib.Prog

/-!
# Physical pages and page tables

The page allocator of `kalloc.c` and the page tables of `vm.c`.  Addresses of
pages are page numbers; a kernel pointer to a page is the number of the physical
page it stands for, so that the null pointer is page `V2P(0)`.  What the pages
hold is not modelled, page tables excepted.
-/

namespace Xv6.Vm

open Xv6.Lib

abbrev Frame : Type := Nat

def PGSIZE : Nat := 4096

def NPDENTRIES : Nat := 1024

def NPTENTRIES : Nat := 1024

def KERNBASE : Nat := 0x80000000

def EXTMEM : Nat := 0x100000

def PHYSTOP : Nat := 0xE000000

def DEVSPACE : Nat := 0xFE000000

def UPAGES : Nat := KERNBASE / PGSIZE

def NULL : Frame := KERNBASE / PGSIZE

def PGROUNDUP (a : Nat) : Nat := (a + PGSIZE - 1) % 2 ^ 32 / PGSIZE * PGSIZE

def PGROUNDDOWN (a : Nat) : Nat := a / PGSIZE * PGSIZE

def pages (a : Nat) : Nat := (a + PGSIZE - 1) / PGSIZE

/-! ## kalloc.c -/

/-- The linker's `data`, the first page after `end` and the address of `shmtable`, and
`kmem.freelist`. -/
structure Mem where
  data : Frame
  first : Frame
  shmtable : Nat
  free : List Frame

abbrev VmM (α : Type) : Type 1 := Prog Mem Unit α

def Mem.isRam (m : Mem) (f : Frame) : Bool := m.first ≤ f ∧ f < PHYSTOP / PGSIZE

def kalloc : VmM (Option Frame) :=
  .atomic () fun m =>
    match m.free with
    | [] => .ok (none, m)
    | f :: fs => .ok (some f, { m with free := fs })

def kfree (f : Frame) : VmM Unit :=
  .atomic () fun m =>
    if m.isRam f then .ok ((), { m with free := f :: m.free }) else .halt (.panic "kfree")

/-! ## Page directories -/

structure Pte where
  frame : Frame
  /-- `PTE_W`. -/
  w : Bool
  /-- `PTE_U`. -/
  u : Bool
  deriving DecidableEq

structure Table where
  frame : Frame
  pte : Nat → Option Pte

/-- A page directory, with the page tables its entries point to. -/
structure PageDir where
  frame : Frame
  table : Nat → Option Table

namespace PageDir

def lookup (d : PageDir) (v : Nat) : Option Pte :=
  (d.table (v / NPTENTRIES)).bind fun t => t.pte (v % NPTENTRIES)

def writable (d : PageDir) (v : Nat) : Bool := (d.lookup v).any Pte.w

def setPte (d : PageDir) (v : Nat) (x : Option Pte) : PageDir :=
  match d.table (v / NPTENTRIES) with
  | none => d
  | some t =>
    { d with
      table := Function.update d.table (v / NPTENTRIES)
        (some { t with pte := Function.update t.pte (v % NPTENTRIES) x }) }

def setTable (d : PageDir) (i : Nat) (t : Table) : PageDir :=
  { d with table := Function.update d.table i (some t) }

end PageDir

/-- `walkpgdir`: the directory in which the entry for page `v` exists. -/
def walkpgdir (d : PageDir) (v : Nat) (alloc : Bool) : VmM (Option PageDir) :=
  if (d.table (v / NPTENTRIES)).isSome then pure (some d)
  else if !alloc then pure none
  else do
    match ← kalloc with
    | none => pure none
    | some f => pure (some (d.setTable (v / NPTENTRIES) ⟨f, fun _ => none⟩))

def mapLoop (w u : Bool) : Nat → PageDir → Nat → Frame → VmM (PageDir × Bool)
  | 0, d, _, _ => pure (d, true)
  | n + 1, d, v, f => do
    match ← walkpgdir d v true with
    | none => pure (d, false)
    | some d =>
      if (d.lookup v).isSome then Prog.panic () "remap"
      else mapLoop w u n (d.setPte v (some ⟨f, w, u⟩)) ((v + 1) % 2 ^ 20) ((f + 1) % 2 ^ 20)

/-- `mappages`; `false` is its result -1. -/
def mappages (d : PageDir) (va size : Nat) (f : Frame) (w u : Bool) : VmM (PageDir × Bool) :=
  let a := va / PGSIZE
  let last := (va + size - 1) % 2 ^ 32 / PGSIZE
  mapLoop w u ((last + 2 ^ 20 - a) % 2 ^ 20 + 1) d a f

/-! ## The kernel half -/

/-- The entry that `kmap` gives to page `v`, where the kernel's data starts at
physical page `data`. -/
def kmapPte (data : Frame) (v : Nat) : Option Pte :=
  if UPAGES ≤ v ∧ v < UPAGES + PHYSTOP / PGSIZE then
    some ⟨v - UPAGES, v < UPAGES + EXTMEM / PGSIZE ∨ UPAGES + data ≤ v, false⟩
  else if DEVSPACE / PGSIZE ≤ v ∧ v < 2 ^ 20 then some ⟨v, true, false⟩
  else none

/-- The directory entries that `kmap` needs, in the order it needs them. -/
def kernelTables : List Nat :=
  List.range' (UPAGES / NPTENTRIES) (PHYSTOP / PGSIZE / NPTENTRIES) ++
    List.range' (DEVSPACE / PGSIZE / NPTENTRIES) (NPDENTRIES - DEVSPACE / PGSIZE / NPTENTRIES)

/-- The calls of `mappages` in `setupkvm`, one page table after the other. -/
def kmapTables (data : Frame) : List Nat → PageDir → VmM (Option PageDir)
  | [], d => pure (some d)
  | i :: is, d => do
    match ← kalloc with
    | none => pure none
    | some f => kmapTables data is (d.setTable i ⟨f, fun j => kmapPte data (i * NPTENTRIES + j)⟩)

/-- `setupkvm`.  When memory runs out the pages it has taken are not given back. -/
def setupkvm : VmM (Option PageDir) := do
  match ← kalloc with
  | none => pure none
  | some f => do
    let data ← Prog.atomic () fun m => .ok (m.data, m)
    kmapTables data kernelTables ⟨f, fun _ => none⟩

/-! ## Giving pages back -/

/-- The loop that `deallocuvm` and `unmap` share: clear the entries of the pages from
`a` up to `top`, freeing the pages that are not to be kept.  Where a page table
is missing it goes on one table's size further, wherever in the table it was. -/
def clearRange (msg : String) (keep : Frame → Bool) (top : Nat) : Nat → PageDir → Nat → VmM PageDir
  | 0, d, _ => pure d
  | fuel + 1, d, a =>
    if a < top then
      match d.table (a / NPTENTRIES) with
      | none => clearRange msg keep top fuel d (a + NPTENTRIES)
      | some t =>
        match t.pte (a % NPTENTRIES) with
        | none => clearRange msg keep top fuel d (a + 1)
        | some pte =>
          if pte.frame = 0 then Prog.panic () msg
          else do
            if !keep pte.frame then kfree pte.frame
            clearRange msg keep top fuel (d.setPte a none) (a + 1)
    else pure d

/-- `deallocuvm`; `shared` is `is_shared`. -/
def deallocuvm (shared : Frame → Bool) (d : PageDir) (oldsz newsz : Nat) : VmM (PageDir × Nat) :=
  if oldsz ≤ newsz then pure (d, oldsz)
  else do
    let d ← clearRange "kfree" shared (pages oldsz) (pages oldsz) d (PGROUNDUP newsz / PGSIZE)
    pure (d, newsz)

def unmap (d : PageDir) (va size : Nat) (freeframes : Int) : VmM PageDir :=
  let top := pages ((va + size) % 2 ^ 32)
  clearRange "kfree unmappages" (fun _ => freeframes ≠ 0) top top d (PGROUNDUP va / PGSIZE)

/-- `freevm`: free a page table and all the pages of its user part. -/
def freevm (shared : Frame → Bool) (d : PageDir) : VmM Unit := do
  let (d, _) ← deallocuvm shared d KERNBASE 0
  Prog.forRange NPDENTRIES fun i =>
    match d.table i with
    | some t => kfree t.frame
    | none => pure ()
  kfree d.frame

/-! ## Growing and copying -/

/-- The loop of `allocuvm`, for `n` pages; `false` when memory has run out.  It does
not look at the result of `mappages`. -/
def allocLoop : Nat → PageDir → Nat → VmM (PageDir × Bool)
  | 0, d, _ => pure (d, true)
  | n + 1, d, a => do
    match ← kalloc with
    | none => pure (d, false)
    | some f => do
      let (d, _) ← mappages d (a * PGSIZE) PGSIZE f true true
      allocLoop n d (a + 1)

def allocuvm (shared : Frame → Bool) (d : PageDir) (oldsz newsz : Nat) : VmM (PageDir × Nat) :=
  if KERNBASE ≤ newsz then pure (d, 0)
  else if newsz < oldsz then pure (d, oldsz)
  else do
    let a := PGROUNDUP oldsz / PGSIZE
    let (d, ok) ← allocLoop (pages newsz - a) d a
    if ok then pure (d, newsz)
    else do
      let (d, _) ← deallocuvm shared d newsz oldsz
      pure (d, 0)

/-- The loop of `copyuvm`, for `n` pages; `false` is its jump to `bad`. -/
def copyLoop (shared : Frame → Bool) (pgdir : PageDir) :
    Nat → PageDir → Nat → VmM (PageDir × Bool)
  | 0, d, _ => pure (d, true)
  | n + 1, d, i =>
    match pgdir.table (i / NPTENTRIES) with
    | none => Prog.panic () "copyuvm: pte should exist"
    | some t =>
      match t.pte (i % NPTENTRIES) with
      | none => Prog.panic () "copyuvm: page not present"
      | some pte => do
        let mem ← if shared pte.frame then pure (some pte.frame) else kalloc
        match mem with
        | none => pure (d, false)
        | some f => do
          let (d, ok) ← mappages d (i * PGSIZE) PGSIZE f pte.w pte.u
          if ok then copyLoop shared pgdir n d (i + 1) else pure (d, false)

/-- `copyuvm`: a copy of a parent's page table for a child, in which the pages of
shared blocks are the parent's. -/
def copyuvm (shared : Frame → Bool) (pgdir : PageDir) (sz : Nat) : VmM (Option PageDir) := do
  match ← setupkvm with
  | none => pure none
  | some d => do
    let (d, ok) ← copyLoop shared pgdir (pages sz) d 0
    if ok then pure (some d)
    else do
      freevm shared d
      pure none

/-- `loaduvm`, where `reads` is the number of pages for which `readi` reads all it is
asked for.  It copies to whatever page the entry names; a copy to another page than a mapped
one of the user half goes into the kernel's memory, and the run ends there. -/
def loaduvm (d : PageDir) (addr sz reads : Nat) : VmM Bool :=
  let page := fun i => (addr / PGSIZE + i) % 2 ^ 20
  if addr % PGSIZE ≠ 0 then Prog.panic () "loaduvm: addr must be page aligned"
  else if ∃ i < min (pages sz) (reads + 1), (d.table (page i / NPTENTRIES)).isNone then
    Prog.panic () "loaduvm: address should exist"
  else if ∃ i < min (pages sz) (reads + 1), UPAGES ≤ page i ∨ (d.lookup (page i)).isNone then
    Prog.panic () "kernel memory overwritten"
  else pure (decide (pages sz ≤ reads))

def clearpteu (d : PageDir) (uva : Nat) : VmM PageDir :=
  let v := uva / PGSIZE
  if (d.table (v / NPTENTRIES)).isNone then Prog.panic () "clearpteu"
  else pure (d.setPte v ((d.lookup v).map fun pte => { pte with u := false }))

end Xv6.Vm
