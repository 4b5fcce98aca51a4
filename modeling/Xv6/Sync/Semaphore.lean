import Xv6.Lib.Int32
import Xv6.Lib.Tally
import Xv6.Sync.Wakeup

/-!
# The semaphores of `semaphore.c`

The table `stable.sem`, the descriptors `procsem` of each process and the calls
`semget`, `semfree`, `semdown` and `semup`, as a client of the monitor of
`stable.lock`.  A `struct sem *` is its index from `stable.sem`.  No call checks the
range of its argument; ids that differ by a multiple of `2 ^ 29` lead to one address,
and the id of a call here is the one of them in `0 .. 2 ^ 29 - 1` (and the -1 of `semget`).
-/

namespace Xv6.Sync

open Xv6.Lib Xv6.Sched

def MAXSEM : Nat := 16

def MAXSEMPROC : Nat := 4

structure Sem where
  value : Int
  refcount : Int
  deriving DecidableEq

/-- What has happened to a semaphore since `semget(-1, v)` last made it.  The
kernel does not keep this; it is here to be spoken about. -/
structure History where
  created : Option Int
  /-- Increments stored by `semup`. -/
  incs : Nat
  /-- Calls of `semup` that have returned 0. -/
  ups : Nat
  /-- Calls of `semdown` that have returned 0. -/
  downs : Nat
  deriving DecidableEq

/-- `stable.sem` and the semaphore fields of the processes.  `word0` is the word
at user address 0 of a process, read as a `struct sem *`. -/
structure STable where
  sem : Int → Sem
  procsem : Slot → Fin MAXSEMPROC → Option Int
  semquantity : Slot → Int
  word0 : Slot → Option Int
  firstTime : Bool
  history : Int → History

namespace STable

@[simps -fullyApplied]
def setSem (d : STable) (i : Int) (r : Sem) : STable :=
  { d with sem := Function.update d.sem i r }

@[simps -fullyApplied]
def setProcsem (d : STable) (p : Slot) (r : Fin MAXSEMPROC) (o : Option Int) : STable :=
  { d with procsem := Function.update d.procsem p (Function.update (d.procsem p) r o) }

@[simps -fullyApplied]
def record (d : STable) (i : Int) (h : History) : STable :=
  { d with history := Function.update d.history i h }

@[simps -fullyApplied]
def addQuantity (d : STable) (p : Slot) (n : Int) : STable :=
  { d with semquantity := Function.update d.semquantity p (int32 (d.semquantity p + n)) }

def checkprocsem (d : STable) (p : Slot) : Option (Fin MAXSEMPROC) :=
  (List.finRange MAXSEMPROC).find? fun r => d.procsem p r = none

/-- `*(r = checkprocsem()) == 0`, and the assignment `*r = s` made when it holds.
With no free descriptor `r` is the null pointer, which is user address 0. -/
def attach (d : STable) (p : Slot) (s : Int) : Option STable :=
  match d.checkprocsem p with
  | some r => some (d.setProcsem p r (some s))
  | none =>
    if d.word0 p = none then some { d with word0 := Function.update d.word0 p (some s) }
    else none

def unusedSem (d : STable) : Option Int :=
  ((List.range MAXSEM).find? fun t => (d.sem (Int.ofNat t)).refcount = 0).map Int.ofNat

end STable

inductive Point
  | get (semId initValue : Int)
  | free (semId : Int)
  | down (semId : Int)
  /-- The test of the loop in `semdown`. -/
  | wait (semId : Int)
  | up (semId : Int)
  /-- `semup`, after `wakeup` has returned. -/
  | upDone (semId : Int)
  deriving DecidableEq

inductive SemCall
  | semget (semId initValue : Int)
  | semfree (semId : Int)
  | semdown (semId : Int)
  | semup (semId : Int)
  /-- The user program stores to address 0. -/
  | store0 (w : Option Int)
  deriving DecidableEq

def semChan (i : Int) : Chan := .addr i

/-- `semget(sem_id, init_value)`, once it holds `stable.lock`. -/
def semgetBody (semId initValue : Int) (p : Slot) (d : STable) : Next STable Point :=
  if semId = -1 then
    match d.unusedSem with
    | none => .release d (-3)
    | some s =>
      match d.attach p s with
      | none => .release d (-2)
      | some d' =>
        let d' := d'.setSem s { value := initValue, refcount := 1 }
        .release ((d'.addQuantity p 1).record s
          { created := some initValue, incs := 0, ups := 0, downs := 0 }) s
  else if (d.sem semId).refcount = 0 then .release d (-1)
  else
    match d.attach p semId with
    | none => .release d (-2)
    | some d' =>
      let r := d'.sem semId
      .release (d'.setSem semId { r with refcount := int32 (r.refcount + 1) }) semId

def semfreeEnter (semId : Int) (p : Slot) (d : STable) : Entry STable Point :=
  if (d.sem semId).refcount = 0 then .ret d (-1)
  else
    match (List.finRange MAXSEMPROC).find? fun r => d.procsem p r = some semId with
    | none => .ret d (-1)
    | some r => .acquire (d.setProcsem p r none) (.free semId)

def semfreeBody (semId : Int) (p : Slot) (d : STable) : Next STable Point :=
  let s := d.sem semId
  let d := d.setSem semId { s with refcount := int32 (s.refcount - 1) }
  .release (d.addQuantity p (-1)) 0

def semdownBody (semId : Int) (d : STable) : Next STable Point :=
  if (d.sem semId).refcount ≤ 0 then .release d (-1) else .goto d (.wait semId)

def semdownLoop (semId : Int) (d : STable) : Next STable Point :=
  let s := d.sem semId
  if s.value = 0 then .sleep d (semChan semId) (.wait semId)
  else
    let h := d.history semId
    .release ((d.setSem semId { s with value := int32 (s.value - 1) }).record semId
      { h with downs := h.downs + 1 }) 0

/-- `semup(sem_id)`.  With a negative value it returns without `release`. -/
def semupBody (semId : Int) (d : STable) : Next STable Point :=
  let s := d.sem semId
  if s.refcount ≤ 0 then .release d (-1)
  else if 0 ≤ s.value then
    let h := d.history semId
    let d' := d.setSem semId { s with value := int32 (s.value + 1) }
    if s.value = 0 then
      .wakeup (d'.record semId { h with incs := h.incs + 1 }) (semChan semId) (.upDone semId)
    else .release (d'.record semId { h with incs := h.incs + 1, ups := h.ups + 1 }) 0
  else .ret d 0

def semupDone (semId : Int) (d : STable) : Next STable Point :=
  let h := d.history semId
  .release (d.record semId { h with ups := h.ups + 1 }) 0

/-- The semaphore calls as a client of the monitor of `stable.lock`. -/
def semClient : Client STable Point SemCall where
  enter
    | .semget semId initValue, _, d =>
      if d.firstTime then .initlock { d with firstTime := false } (.get semId initValue)
      else .acquire d (.get semId initValue)
    | .semfree semId, p, d => semfreeEnter semId p d
    | .semdown semId, _, d => .acquire d (.down semId)
    | .semup semId, _, d => .acquire d (.up semId)
    | .store0 w, p, d => .ret { d with word0 := Function.update d.word0 p w } 0
  body
    | .get semId initValue, p, d => semgetBody semId initValue p d
    | .free semId, p, d => semfreeBody semId p d
    | .down semId, _, d => semdownBody semId d
    | .wait semId, _, d => semdownLoop semId d
    | .up semId, _, d => semupBody semId d
    | .upDone semId, _, d => semupDone semId d
  own
    | .addr a => 0 ≤ a ∧ a < MAXSEM
    | .proc _ => false
  -- `exit` calls `semfree` for each of its descriptors
  mayExit d p := (List.finRange MAXSEMPROC).all fun r => d.procsem p r = none
  onExit p d := { d with semquantity := Function.update d.semquantity p 0 }

def STable.boot : STable where
  sem _ := { value := 0, refcount := 0 }
  procsem _ _ := none
  semquantity _ := 0
  word0 _ := none
  firstTime := true
  history _ := { created := none, incs := 0, ups := 0, downs := 0 }

abbrev SemState : Type := State STable Point

/-- Processes that use semaphores, the process table and `stable.lock`. -/
def semMachine : Machine SemState (Label SemCall) := semClient.machine .boot

def InTable (i : Int) : Prop := 0 ≤ i ∧ i < MAXSEM

def Holds (d : STable) (p : Slot) (i : Int) : Prop := ∃ r, d.procsem p r = some i

/-- `checkprocsem` finds a descriptor, or the word at address 0 makes `semget`
take its null result for one that is in use. -/
def Guarded (d : STable) (p : Slot) : Prop := d.checkprocsem p = none → d.word0 p ≠ none

def ProperCall (d : STable) (p : Slot) : SemCall → Prop
  | .semget i _ => (i = -1 ∨ InTable i) ∧ Guarded d p
  | .semfree i => InTable i
  | .semdown i | .semup i => InTable i ∧ Holds d p i
  | .store0 _ => True

def Proper (s : SemState) : Label SemCall → Prop
  | .call p a => ProperCall s.data p a
  | .step _ | .table _ => True

instance (i : Int) : Decidable (InTable i) := inferInstanceAs (Decidable (_ ∧ _))

instance (d : STable) (p : Slot) (i : Int) : Decidable (Holds d p i) :=
  inferInstanceAs (Decidable (∃ r, d.procsem p r = some i))

instance (d : STable) (p : Slot) : Decidable (Guarded d p) :=
  inferInstanceAs (Decidable (_ → _))

instance (s : SemState) (l : Label SemCall) : Decidable (Proper s l) :=
  match l with
  | .call _ (.semget _ _) => inferInstanceAs (Decidable (_ ∧ _))
  | .call _ (.semfree i) => inferInstanceAs (Decidable (InTable i))
  | .call _ (.semdown _) | .call _ (.semup _) => inferInstanceAs (Decidable (_ ∧ _))
  | .call _ (.store0 _) | .step _ | .table _ => inferInstanceAs (Decidable True)

end Xv6.Sync
