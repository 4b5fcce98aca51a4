import Xv6.Fs.Log
import Xv6.Lib.Circle
import Xv6.Lib.Machine
import Mathlib

/-!
# The buffer cache of `bio.c`

Any number of processes call `bread`, `bwrite` and `brelse`, and store into the buffers
they hold.  The loops of `bget` are taken one turn at a time under `bcache.lock`, and a
process that finds its sector busy sleeps and starts over.  A process uses only what
`bread` has returned to it and it has not released yet.

No two buffers are for one sector, nobody uses a buffer that another process holds, the
list through `bcache.head` keeps every buffer, and `bread` returns what was last stored
for the sector.
-/

namespace Xv6.Fs

open Xv6.Lib

def NBUF : Nat := 10

/-- The device of a buffer that has never been used: `-1` as a `uint`. -/
def NODEV : UInt32 := 4294967295

namespace Bcache

abbrev Index : Type := Fin NBUF

abbrev Node : Type := Option Index

abbrev Key : Type := UInt32 × UInt32

/-- `struct buf`, with the bits of `flags` as fields of their own. -/
structure Buffer where
  busy : Bool
  valid : Bool
  dirty : Bool
  dev : UInt32
  sector : UInt32
  data : Block

namespace Buffer

def key (b : Buffer) : Key := (b.dev, b.sector)

def Fresh (b : Buffer) : Prop := b.busy = false ∧ b.valid = false

end Buffer

inductive Pc
  | idle
  /-- `bget`, before `acquire`. -/
  | bget (dev sector : UInt32)
  /-- The first loop of `bget`, with `b` at the node. -/
  | look (dev sector : UInt32) (b : Node)
  /-- In `sleep`. -/
  | asleep (dev sector : UInt32) (b : Index)
  /-- The second loop, with `b` at the node. -/
  | recycle (dev sector : UInt32) (b : Node)
  /-- `bget` has returned. -/
  | got (dev sector : UInt32) (b : Index)
  /-- `bread` waits in `iderw`. -/
  | reading (dev sector : UInt32) (b : Index)
  /-- `bread` returns. -/
  | back (dev sector : UInt32) (b : Index)
  /-- `bwrite` waits in `iderw`. -/
  | writing (b : Index)
  /-- `brelse`, before `acquire`. -/
  | brelse (b : Index)
  /-- `brelse` has the lock. -/
  | relink (b : Index)
  deriving DecidableEq

structure State (P : Type) where
  buf : Index → Buffer
  links : Links Node
  /-- `bcache.lock`. -/
  lock : Option P
  disk : UInt32 → UInt32 → Block
  pc : P → Pc
  /-- The buffers that a process may use. -/
  held : P → Index → Bool
  /-- What was last stored for a sector since its buffer was read in. -/
  stored : UInt32 → UInt32 → Option Block

def binit : Links Node :=
  (List.finRange NBUF).foldl (fun r b => r.insertFront none (some b))
    ⟨fun _ => none, fun _ => none⟩

inductive Label (P : Type)
  | bread (p : P) (dev sector : UInt32)
  /-- An assignment to the data of a buffer. -/
  | store (p : P) (b : Index) (data : Block)
  | bwrite (p : P) (b : Index)
  /-- The last line of `log_write`.  What it does before is calls of `bread`, `bwrite` and
  `brelse` and a store. -/
  | logWrite (p : P) (b : Index)
  | brelse (p : P) (b : Index)
  /-- The next step of the call that the process is in. -/
  | step (p : P)

namespace State

variable {P : Type} [DecidableEq P]

def boot (disk : UInt32 → UInt32 → Block) : State P where
  buf _ := { busy := false, valid := false, dirty := false, dev := NODEV, sector := 0,
             data := fun _ => 0 }
  links := binit
  lock := none
  disk := disk
  pc _ := .idle
  held _ _ := false
  stored _ _ := none

def goto (s : State P) (p : P) (c : Pc) : State P :=
  { s with pc := Function.update s.pc p c }

def setBuf (s : State P) (b : Index) (x : Buffer) : State P :=
  { s with buf := Function.update s.buf b x }

def setHeld (s : State P) (p : P) (b : Index) (x : Bool) : State P :=
  { s with held := Function.update s.held p (Function.update (s.held p) b x) }

def setStored (s : State P) (k : Key) (x : Option Block) : State P :=
  { s with stored := fun dev sector => if (dev, sector) = k then x else s.stored dev sector }

def setDisk (s : State P) (k : Key) (x : Block) : State P :=
  { s with disk := fun dev sector => if (dev, sector) = k then x else s.disk dev sector }

def acquire (s : State P) (p : P) (c : Pc) : Option (State P) :=
  if s.lock.isNone then some { s.goto p c with lock := some p } else none

def look (s : State P) (p : P) (dev sector : UInt32) : Node → State P
  | none => s.goto p (.recycle dev sector (s.links.prev none))
  | some b =>
    if (s.buf b).dev = dev ∧ (s.buf b).sector = sector then
      if (s.buf b).busy = false then
        { ((s.setBuf b { s.buf b with busy := true }).setHeld p b true).goto p
            (.got dev sector b) with lock := none }
      else { s.goto p (.asleep dev sector b) with lock := none }
    else s.goto p (.look dev sector (s.links.next (some b)))

/-- One turn of the second loop of `bget`, which panics with "bget: no buffers" when it
comes back to the head. -/
def recycle (s : State P) (p : P) (dev sector : UInt32) : Node → Option (State P)
  | none => none
  | some b =>
    if (s.buf b).busy = false ∧ (s.buf b).dirty = false then
      let old := s.buf b
      let t := if old.valid then s.setStored old.key none else s
      let t := t.setBuf b { old with busy := true, valid := false, dirty := false,
                                     dev := dev, sector := sector }
      some { (t.setHeld p b true).goto p (.got dev sector b) with lock := none }
    else some (s.goto p (.recycle dev sector (s.links.prev (some b))))

def iderw (s : State P) (p : P) (b : Index) (c : Pc) : Option (State P) :=
  if (s.buf b).busy = false then none
  else if (s.buf b).valid = true ∧ (s.buf b).dirty = false then none
  else some (s.goto p c)

/-- The disk serves the request for the buffer, and `ideintr` ends it. -/
def serve (s : State P) (b : Index) : State P :=
  let x := s.buf b
  if x.dirty then (s.setDisk x.key x.data).setBuf b { x with valid := true, dirty := false }
  else s.setBuf b { x with data := s.disk x.dev x.sector, valid := true, dirty := false }

def relink (s : State P) (p : P) (b : Index) : State P :=
  { ((s.setBuf b { s.buf b with busy := false }).setHeld p b false).goto p .idle with
    links := (s.links.unlink (some b)).insertFront none (some b)
    lock := none }

/-- The next step of a process.  A sleeping process may be woken up at any time, by the
`wakeup` of `brelse` or of `ideintr` or by `kill`. -/
def step (s : State P) (p : P) : Option (State P) :=
  match s.pc p with
  | .idle => none
  | .bget dev sector | .asleep dev sector _ =>
    s.acquire p (.look dev sector (s.links.next none))
  | .look dev sector b => some (s.look p dev sector b)
  | .recycle dev sector b => s.recycle p dev sector b
  | .got dev sector b =>
    if (s.buf b).valid then some (s.goto p (.back dev sector b))
    else s.iderw p b (.reading dev sector b)
  | .reading dev sector b => some ((s.serve b).goto p (.back dev sector b))
  | .back _ _ _ => some (s.goto p .idle)
  | .writing b => some ((s.serve b).goto p .idle)
  | .brelse b => s.acquire p (.relink b)
  | .relink b => some (s.relink p b)

def Uses (s : State P) (p : P) (b : Index) : Prop := s.pc p = .idle ∧ s.held p b = true

instance (s : State P) (p : P) (b : Index) : Decidable (s.Uses p b) :=
  inferInstanceAs (Decidable (_ ∧ _))

def next (s : State P) : Label P → Option (State P)
  | .bread p dev sector =>
    if s.pc p = .idle then some (s.goto p (.bget dev sector)) else none
  | .store p b data =>
    if s.Uses p b then
      some ((s.setBuf b { s.buf b with data := data }).setStored (s.buf b).key (some data))
    else none
  | .bwrite p b =>
    if s.Uses p b ∧ (s.buf b).busy = true then
      (s.setBuf b { s.buf b with dirty := true }).iderw p b (.writing b)
    else none
  | .logWrite p b =>
    if s.Uses p b then some (s.setBuf b { s.buf b with dirty := true }) else none
  | .brelse p b =>
    if s.Uses p b ∧ (s.buf b).busy = true then some (s.goto p (.brelse b)) else none
  | .step p => s.step p

end State

def machine (P : Type) [DecidableEq P] (disk : UInt32 → UInt32 → Block) :
    Machine (State P) (Label P) :=
  .ofFun (.boot disk) State.next

end Bcache

end Xv6.Fs
