import Xv6.Fs.Log
import Xv6.Sched.Table

/-!
# Disk blocks: the lower half of `fs.c`

The file system sees the disk through the buffer cache, so a sector has one contents for
everybody.  A locked buffer is a value in the hands of the code; `log_write` makes it the
contents of its sector and puts a copy in the log.  What the log does on the disk, and what
a crash leaves of it, is in `Xv6.Fs.Log`.

Code that does not return panics or waits.
-/

namespace Xv6.Files

open Xv6.Lib Xv6.Fs Xv6.Sched

def NINODE : Nat := 50

def NDIRECT : Nat := 12

def NINDIRECT : Nat := BSIZE / 4

def MAXFILE : Nat := NDIRECT + NINDIRECT

def IPB : Nat := 4

def BPB : Nat := BSIZE * 8

def ROOTDEV : Nat := 1

def ROOTINO : Nat := 1

def IBLOCK (i : Nat) : Nat := i / IPB + 2

def BBLOCK (b ninodes : Nat) : Nat := b / BPB + ninodes / IPB + 3

abbrev Entry : Type := Fin NINODE

/-- The fields of `struct dinode`, and of its copy in `struct inode`. -/
structure Dinode where
  type : Nat
  major : Nat
  minor : Nat
  nlink : Nat
  size : Nat
  /-- `addrs[0]`, …, `addrs[NDIRECT]`. -/
  addrs : Nat → Nat

structure Inode where
  dev : Nat
  inum : Nat
  ref : Int
  /-- `I_BUSY`. -/
  busy : Bool
  /-- `I_VALID`. -/
  valid : Bool
  copy : Dinode

structure FsState where
  /-- The contents of the sectors, as the buffer cache has them. -/
  disk : Nat → Block
  /-- The sectors whose buffers are `B_BUSY`. -/
  locked : Nat → Bool
  /-- `log.busy`, with the process that has set it. -/
  trans : Option Slot
  /-- `log.lh.n`. -/
  n : Nat
  /-- `log.lh.sector`. -/
  sector : Nat → Nat
  icache : Entry → Inode
  /-- What the next calls of `consoleread` are going to return. -/
  input : List (Option (List UInt8))

/-- What an action is, where it matters to the runs in which it is taken. -/
inductive Act
  | other
  | beginTrans
  | commitTrans
  | logWrite (sector : Nat)
  /-- `balloc` reads the bits from block `b` on. -/
  | balloc (b : Nat)
  /-- `bmap` reads `ip->addrs[k]`. -/
  | addr (e : Entry) (k : Nat)
  /-- `bmap` reads the indirect block `b` for its address `j`. -/
  | entry (b j : Nat)
  /-- `ilock` waits for `I_BUSY`. -/
  | ilock (e : Entry)
  /-- `ialloc` has found the inode free. -/
  | fresh (dev inum : Nat)
  /-- `dirlookup` has found the name in the directory. -/
  | found (dp : Entry) (name : List UInt8) (inum : Nat)
  /-- The test in `iput`. -/
  | iput (e : Entry)
  /-- A directory entry is going to be added to the directory. -/
  | addTo (e : Entry)
  /-- A directory is going to be removed. -/
  | remove (e : Entry)

abbrev FsM (α : Type) : Type 1 := Prog FsState Act α

structure Buffer where
  sector : Nat
  data : Block

def get {α : Type} (f : FsState → α) : FsM α := .atomic .other fun s => .ok (f s, s)

def put (f : FsState → FsState) : FsM Unit := .atomic .other fun s => .ok ((), f s)

def stop {α : Type} (msg : String) : FsM α := .atomic .other fun _ => .halt (.panic msg)

def breadFor (l : Act) (i : Nat) : FsM Buffer :=
  .atomic l fun s =>
    if s.locked i then .halt .block
    else .ok (⟨i, s.disk i⟩, { s with locked := Function.update s.locked i true })

def bread (i : Nat) : FsM Buffer := breadFor .other i

def brelse (b : Buffer) : FsM Unit :=
  put fun s => { s with locked := Function.update s.locked b.sector false }

/-! ## The log -/

def beginTrans (p : Slot) : FsM Unit :=
  .atomic .beginTrans fun s =>
    if s.trans.isSome then .halt .block else .ok ((), { s with trans := some p })

variable (a : LogArea)

def logWrite (b : Buffer) : FsM Unit :=
  .atomic (.logWrite b.sector) fun s =>
    if LOGSIZE ≤ s.n ∨ a.size ≤ s.n + 1 then .halt (.panic "too big a transaction")
    else if s.trans.isNone then .halt (.panic "write outside of trans")
    else
      let i := logSlot s.n s.sector b.sector
      if s.locked (a.start + i + 1) then .halt .block
      else .ok ((),
        { s with
          disk := Function.update (Function.update s.disk b.sector b.data) (a.start + i + 1) b.data
          sector := Function.update s.sector i b.sector
          n := if i = s.n then s.n + 1 else s.n })

def installTrans (sector : Nat → Nat) : Nat → (Nat → Block) → Nat → Block
  | 0, d => d
  | k + 1, d =>
    let d := installTrans sector k d
    Function.update d (sector k) (d (a.start + k + 1))

def writeHead (n : Nat) (sector : Nat → Nat) (d : Nat → Block) : Nat → Block :=
  Function.update d a.start (putHead n sector (d a.start))

def FsState.canCommit (s : FsState) : Bool :=
  !s.locked a.start &&
    (List.range s.n).all fun j => !s.locked (a.start + j + 1) && !s.locked (s.sector j)

def commitTrans : FsM Unit :=
  .atomic .commitTrans fun s =>
    if 0 < s.n then
      if s.canCommit a then
        let d := installTrans a s.sector s.n (writeHead a s.n s.sector s.disk)
        .ok ((), { s with disk := writeHead a 0 s.sector d, n := 0, trans := none })
      else .halt .block
    else .ok ((), { s with trans := none })

/-! ## Blocks -/

structure Superblock where
  size : Nat
  nblocks : Nat
  ninodes : Nat
  nlog : Nat

def Superblock.decode (b : Block) : Superblock where
  size := b.get 0 4
  nblocks := b.get 4 4
  ninodes := b.get 8 4
  nlog := b.get 12 4

def readsb : FsM Superblock := do
  let bp ← bread 1
  brelse bp
  pure (.decode bp.data)

def bzero (bno : Nat) : FsM Unit := do
  let bp ← bread bno
  let bp := { bp with data := fun _ => 0 }
  logWrite a bp
  brelse bp

def testBit (b : Block) (bi : Nat) : Bool := (b.byte (bi / 8)).toNat.testBit (bi % 8)

def setBit (b : Block) (bi : Nat) : Block :=
  b.set (bi / 8) 1 ((b.byte (bi / 8)).toNat ||| 2 ^ (bi % 8))

def clearBit (b : Block) (bi : Nat) : Block :=
  b.set (bi / 8) 1 ((b.byte (bi / 8)).toNat &&& (255 ^^^ 2 ^ (bi % 8)))

def findClear (b : Block) (n : Nat) : Option Nat := (List.range n).find? fun bi => !testBit b bi

/-- The loop of `balloc` over the bitmap blocks, from block `b` on. -/
def ballocFrom (sb : Superblock) : Nat → Nat → FsM Nat
  | 0, _ => stop "balloc: out of blocks"
  | k + 1, b => do
    let bp ← breadFor (.balloc b) (BBLOCK b sb.ninodes)
    match findClear bp.data (min BPB (sb.size - b)) with
    | some bi =>
      logWrite a { bp with data := setBit bp.data bi }
      brelse bp
      bzero a (b + bi)
      pure (b + bi)
    | none =>
      brelse bp
      ballocFrom sb k (b + BPB)

def balloc : FsM Nat := do
  let sb ← readsb
  ballocFrom a sb ((sb.size + BPB - 1) / BPB) 0

def bfree (b : Nat) : FsM Unit := do
  let sb ← readsb
  let bp ← bread (BBLOCK b sb.ninodes)
  if testBit bp.data (b % BPB) then
    logWrite a { bp with data := clearBit bp.data (b % BPB) }
    brelse bp
  else stop "freeing free block"

end Xv6.Files
