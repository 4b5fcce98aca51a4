import Xv6.Lib.Bytes
import Xv6.Lib.Prog

/-!
# The redo log of `log.c` over the buffer cache

The state is the disk, the buffer cache and `struct log`.  A buffer that a
process has locked with `B_BUSY` is a value in the hands of its code; the cache
knows only that it is out.  Each call that sleeps or touches the disk is an action
of its own, so a program can be cut short by a crash between any two of them.
-/

namespace Xv6.Fs

open Xv6.Lib

def BSIZE : Nat := 512

def LOGSIZE : Nat := 10

abbrev Block : Type := Bytes BSIZE

/-- `log.start` and `log.size`, as `initlog` reads them from the super block. -/
structure LogArea where
  start : Nat
  size : Nat
  fits : start + size ≤ 2 ^ 31

structure Buf where
  sector : Nat
  data : Block
  dirty : Bool

inductive Cached
  | absent
  | busy
  | idle (data : Block) (dirty : Bool)

/-- What other processes do to the cache: recycle a buffer that is neither busy
nor dirty, or read a sector. -/
inductive Other
  | recycle (sector : Nat)
  | fetch (sector : Nat)

/-- The others' turn before a call of `bget`, and whether they leave it a buffer. -/
structure Turn where
  others : List Other
  full : Bool

/-- The disk, `struct log` and a count of the calls of `commit_trans` that have
returned. -/
structure Core where
  disk : Nat → Block
  /-- `log.lh.n`. -/
  n : Nat
  /-- `log.lh.sector`. -/
  sector : Nat → Nat
  busy : Bool
  returned : Nat

structure LogState extends Core where
  cache : Nat → Cached
  /-- What the other processes are going to do. -/
  turns : List Turn

namespace LogState

def setCache (s : LogState) (i : Nat) (c : Cached) : LogState :=
  { s with cache := Function.update s.cache i c }

def other (s : LogState) : Other → LogState
  | .recycle i =>
    match s.cache i with
    | .idle _ false => s.setCache i .absent
    | _ => s
  | .fetch i =>
    match s.cache i with
    | .absent => s.setCache i (.idle (s.disk i) false)
    | _ => s

def takeTurn (s : LogState) : LogState × Bool :=
  match s.turns with
  | [] => (s, false)
  | t :: ts => (t.others.foldl other { s with turns := ts }, t.full)

def boot (disk : Nat → Block) (turns : List Turn) (returned : Nat) : LogState :=
  { disk := disk, cache := fun _ => .absent, turns := turns, n := 0, sector := fun _ => 0,
    busy := false, returned := returned }

end LogState

abbrev LogM (α : Type) : Type 1 := Prog LogState Unit α

def bread (i : Nat) : LogM Buf :=
  .atomic () fun s =>
    match s.takeTurn with
    | (s, full) =>
      match s.cache i with
      | .busy => .halt .block
      | .idle data dirty => .ok (⟨i, data, dirty⟩, s.setCache i .busy)
      | .absent =>
        if full then .halt (.panic "bget: no buffers")
        else .ok (⟨i, s.disk i, false⟩, s.setCache i .busy)

def bwrite (b : Buf) : LogM Buf :=
  .atomic () fun s =>
    .ok ({ b with dirty := false }, { s with disk := Function.update s.disk b.sector b.data })

def brelse (b : Buf) : LogM Unit :=
  .atomic () fun s => .ok ((), s.setCache b.sector (.idle b.data b.dirty))

def field {α : Type} (f : LogState → α) : LogM α := .atomic () fun s => .ok (f s, s)

def assign (f : LogState → LogState) : LogM Unit := .atomic () fun s => .ok ((), f s)

/-- `n` of the on-disk header.  As an `int` it may be negative, and then acts as
zero in every loop. -/
def headN (b : Block) : Nat := if b.get 0 4 < 2 ^ 31 then b.get 0 4 else 0

def headSector (b : Block) (i : Nat) : Nat := b.get (4 + 4 * i) 4

def putSectors (sector : Nat → Nat) : Nat → Block → Block
  | 0, b => b
  | k + 1, b => (putSectors sector k b).set (4 + 4 * k) 4 (sector k)

def putHead (n : Nat) (sector : Nat → Nat) (b : Block) : Block :=
  putSectors sector n (b.set 0 4 n)

variable (a : LogArea)

/-- `install_trans`: copy committed blocks from log to their home location. -/
def installTrans : LogM Unit := do
  let n ← field fun s => s.n
  Prog.forRange n fun tail => do
    let lbuf ← bread (a.start + tail + 1)
    let home ← field fun s => s.sector tail
    let dbuf ← bread home
    let dbuf ← bwrite { dbuf with data := lbuf.data }
    brelse lbuf
    brelse dbuf

def readHead : LogM Unit := do
  let buf ← bread a.start
  assign fun s =>
    { s with
      n := headN buf.data
      sector := fun i => if i < headN buf.data then headSector buf.data i else s.sector i }
  brelse buf

/-- `write_head`: the true point at which the current transaction commits. -/
def writeHead : LogM Unit := do
  let buf ← bread a.start
  let data ← field fun s => putHead s.n s.sector buf.data
  let buf ← bwrite { buf with data := data }
  brelse buf

def recoverFromLog : LogM Unit := do
  readHead a
  installTrans a
  assign fun s => { s with n := 0 }
  writeHead a

def beginTrans : LogM Unit :=
  .atomic () fun s => if s.busy then .halt .block else .ok ((), { s with busy := true })

def commitTrans : LogM Unit := do
  let n ← field fun s => s.n
  if 0 < n then
    writeHead a
    installTrans a
    assign fun s => { s with n := 0 }
    writeHead a
  assign fun s => { s with busy := false }

def logSlot (n : Nat) (sector : Nat → Nat) (i : Nat) : Nat :=
  ((List.range n).find? fun j => sector j = i).getD n

def logWrite (b : Buf) : LogM Buf := do
  let n ← field fun s => s.n
  if LOGSIZE ≤ n ∨ a.size ≤ n + 1 then Prog.panic () "too big a transaction"
  else
    let busy ← field fun s => s.busy
    if !busy then Prog.panic () "write outside of trans"
    else
      let i ← field fun s => logSlot s.n s.sector b.sector
      assign fun s => { s with sector := Function.update s.sector i b.sector }
      let lbuf ← bread (a.start + i + 1)
      let lbuf ← bwrite { lbuf with data := b.data }
      brelse lbuf
      assign fun s => if i = s.n then { s with n := s.n + 1 } else s
      pure { b with dirty := true }

structure Write where
  sector : Nat
  change : Block → Block

def modify (w : Write) : LogM Unit := do
  let b ← bread w.sector
  let b ← logWrite a { b with data := w.change b.data }
  brelse b

def transaction (ws : List Write) : LogM Unit := do
  beginTrans
  Prog.forList ws (modify a)
  commitTrans a
  assign fun s => { s with returned := s.returned + 1 }

def transactions (txs : List (List Write)) : LogM Unit := Prog.forList txs (transaction a)

end Xv6.Fs
