import Mathlib
import Xv6.Lib.Machine

/-!
# The process table and its multilevel queue

`proc.c` keeps every process in the fixed array `ptable.proc` and threads the
runnable ones through four intrusive lists `ptable.mlf`.  This module embeds
the functions that change a process's scheduling state, in the order in which
the source has them.  Each is run with `ptable.lock` held from its first to its
last table access, so each is one function from tables to tables.
-/

namespace Xv6.Sched

open Xv6.Lib

def NPROC : Nat := 64

def MLF_LEVELS : Nat := 4

def SIZEMLF : Nat := 4

/-- A slot of `ptable.proc`; the source's `struct proc *`. -/
abbrev Slot : Type := Fin NPROC

theorem zero_lt_NPROC : 0 < NPROC := by decide

theorem one_lt_NPROC : 1 < NPROC := by decide

theorem two_lt_NPROC : 2 < NPROC := by decide

inductive ProcState
  | UNUSED | EMBRYO | SLEEPING | RUNNABLE | RUNNING | ZOMBIE
  deriving DecidableEq, Repr

/-- Sleep channels are addresses: of a process, or of anything else. -/
inductive Chan
  | proc (p : Slot)
  | addr (a : Int)
  deriving DecidableEq, Repr

/-- The fields of `struct proc` that the functions below read or write. -/
structure Proc where
  state : ProcState
  pid : Int
  parent : Option Slot
  chan : Option Chan
  killed : Bool
  ticksProc : Nat
  priority : Int
  next : Option Slot
  deriving DecidableEq, Repr

structure Node where
  first : Option Slot
  last : Option Slot
  deriving DecidableEq, Repr

structure PTable where
  proc : Slot → Proc
  mlf : Nat → Node
  initproc : Option Slot
  nextpid : Int

namespace PTable

@[simps -fullyApplied mlf initproc nextpid]
def setProc (s : PTable) (p : Slot) (r : Proc) : PTable :=
  { s with proc := Function.update s.proc p r }

@[simps -fullyApplied proc initproc]
def setMlf (s : PTable) (i : Nat) (n : Node) : PTable :=
  { s with mlf := Function.update s.mlf i n }

/-- `enqueue`: append at the level given by `p->priority`.  A priority outside
the levels only prints `ERROR ENQUEUE`. -/
def enqueue (s : PTable) (p : Slot) : PTable :=
  let pr := (s.proc p).priority
  if 0 ≤ pr ∧ pr < MLF_LEVELS then
    let i := pr.toNat
    match (s.mlf i).first with
    | none =>
      let s := s.setMlf i { first := some p, last := some p }
      s.setProc p { s.proc p with next := none }
    | some f =>
      -- a level with a first process always has a last one
      let prev := (s.mlf i).last.getD f
      let s := s.setProc prev { s.proc prev with next := some p }
      let s := s.setMlf i { s.mlf i with last := some p }
      s.setProc p { s.proc p with next := none }
  else s

/-- `dequeue`: unlink the first process of a level.  The source dereferences
`first`, so the function is defined only on a non-empty level. -/
def dequeue (s : PTable) (priority : Nat) : Option (PTable × Slot) :=
  match (s.mlf priority).first with
  | none => none
  | some res =>
    let s := s.setMlf priority
      { s.mlf priority with first := (s.proc res).next }
    some (s.setProc res { s.proc res with next := none }, res)

def isempty (s : PTable) (priority : Nat) : Bool :=
  (s.mlf priority).first.isNone

/-- The priority that `makerunnable` gives; its argument is `0`, `1` or `-1`. -/
def adjustPriority (priority old : Int) : Int :=
  let pr := if priority = 0 then 0 else old
  let pr := if priority = 1 ∧ pr < SIZEMLF - 1 then pr + 1 else pr
  if priority = -1 ∧ pr > 0 then pr - 1 else pr

def makerunnable (s : PTable) (p : Slot) (priority : Int) : PTable :=
  let r := s.proc p
  (s.setProc p
    { r with priority := adjustPriority priority r.priority
             state := .RUNNABLE }).enqueue p

/-- `allocproc`: claim the first unused slot.  `kstack` says whether `kalloc`
finds a page for the kernel stack. -/
def allocproc (s : PTable) (kstack : Bool) : PTable × Option Slot :=
  match (List.finRange NPROC).find? (fun p => (s.proc p).state = .UNUSED) with
  | none => (s, none)
  | some p =>
    let s := s.setProc p { s.proc p with state := .EMBRYO, pid := s.nextpid }
    let s := { s with nextpid := s.nextpid + 1 }
    let s := s.setProc p { s.proc p with priority := 0 }
    if kstack then (s, some p)
    else (s.setProc p { s.proc p with state := .UNUSED }, none)

def userinit (s : PTable) : Option PTable :=
  match s.allocproc true with
  | (_, none) => none
  | (s, some p) => some ({ s with initproc := some p }.makerunnable p 0)

/-- `fork` by `proc`.  `kstack` and `copied` say whether the kernel stack and
the copy of the address space were obtained. -/
def fork (s : PTable) (proc : Slot) (kstack copied : Bool) : PTable × Int :=
  match s.allocproc kstack with
  | (s, none) => (s, -1)
  | (s, some np) =>
    if copied then
      let s := s.setProc np { s.proc np with parent := some proc }
      (s.makerunnable np 0, (s.proc np).pid)
    else (s.setProc np { s.proc np with state := .UNUSED }, -1)

def wakeupOne (chan : Option Chan) (s : PTable) (p : Slot) : PTable :=
  if (s.proc p).state = .SLEEPING ∧ (s.proc p).chan = chan then
    s.makerunnable p (-1)
  else s

def wakeup1 (s : PTable) (chan : Option Chan) : PTable :=
  (List.finRange NPROC).foldl (wakeupOne chan) s

def wakeup (s : PTable) (chan : Chan) : PTable := s.wakeup1 (some chan)

/-- One iteration of the loop in `exit` that passes children to `initproc`. -/
def abandonOne (proc : Slot) (s : PTable) (p : Slot) : PTable :=
  if (s.proc p).parent = some proc then
    let s := s.setProc p { s.proc p with parent := s.initproc }
    if (s.proc p).state = .ZOMBIE then s.wakeup1 (s.initproc.map Chan.proc)
    else s
  else s

/-- `exit` by `proc`, from the point where it takes `ptable.lock`.  It panics
when `init` exits. -/
def exit (s : PTable) (proc : Slot) : Option PTable :=
  if s.initproc = some proc then none
  else
    let s := s.wakeup1 ((s.proc proc).parent.map Chan.proc)
    let s := (List.finRange NPROC).foldl (abandonOne proc) s
    some (s.setProc proc { s.proc proc with state := .ZOMBIE })

def sleep (s : PTable) (proc : Slot) (chan : Chan) : PTable :=
  let r := s.proc proc
  s.setProc proc
    { r with chan := some chan
             state := .SLEEPING
             priority := if r.priority > 0 then r.priority - 1 else r.priority }

/-- One turn of the loop in `wait`: reap a zombie child, give up, or sleep on
the caller's own record until some child exits. -/
def wait (s : PTable) (proc : Slot) : PTable × Option Int :=
  match (List.finRange NPROC).find? (fun p =>
      (s.proc p).parent = some proc ∧ (s.proc p).state = .ZOMBIE) with
  | some p =>
    (s.setProc p
      { s.proc p with state := .UNUSED, pid := 0, parent := none, killed := false },
      some (s.proc p).pid)
  | none =>
    let havekids := (List.finRange NPROC).any fun p => (s.proc p).parent = some proc
    if !havekids || (s.proc proc).killed then (s, some (-1))
    else (s.sleep proc (.proc proc), none)

def firstLevel (s : PTable) : Option Nat :=
  (List.range MLF_LEVELS).find? fun i => !s.isempty i

/-- The process that `scheduler` switches to. -/
def dispatched (s : PTable) : Option Slot := s.firstLevel.bind fun i => (s.mlf i).first

/-- One turn of `scheduler`: dispatch the first process of the first non-empty
level.  A process that resumes inside `sleep` clears its channel before it
releases `ptable.lock`; for any other the field is clear already. -/
def scheduler (s : PTable) : PTable :=
  match s.firstLevel with
  | none => s
  | some i =>
    match s.dequeue i with
    | none => s
    | some (s, p) =>
      s.setProc p { s.proc p with state := .RUNNING, ticksProc := 0, chan := none }

def yield (s : PTable) (proc : Slot) : PTable :=
  let r := s.proc proc
  let s := if r.priority < 3 then
    s.setProc proc { r with priority := r.priority + 1 } else s
  s.makerunnable proc 1

/-- `kill`: mark the first process with the pid, waking it if it sleeps. -/
def kill (s : PTable) (pid : Int) : PTable × Int :=
  match (List.finRange NPROC).find? (fun p => (s.proc p).pid = pid) with
  | none => (s, -1)
  | some p =>
    let s := s.setProc p { s.proc p with killed := true }
    if (s.proc p).state = .SLEEPING then (s.makerunnable p 0, 0) else (s, 0)

/-- `sys_set_priority` by `proc`, with the word that `argint` fetched. -/
def sysSetPriority (s : PTable) (proc : Slot) (pr : Int) : PTable :=
  s.setProc proc { s.proc proc with priority := pr }

end PTable

/-- A process record as the zeroed kernel data segment holds it. -/
def Proc.zero : Proc :=
  { state := .UNUSED, pid := 0, parent := none, chan := none, killed := false,
    ticksProc := 0, priority := 0, next := none }

def PTable.boot : PTable :=
  { proc := fun _ => .zero, mlf := fun _ => ⟨none, none⟩, initproc := none, nextpid := 1 }

/-- The table operations.  Those that act for a current process name it. -/
inductive Op
  | userinit
  | fork (proc : Slot) (kstack copied : Bool)
  | scheduler
  | yield (proc : Slot)
  | sleep (proc : Slot) (chan : Chan)
  | wakeup (chan : Chan)
  | kill (pid : Int)
  | exit (proc : Slot)
  | wait (proc : Slot)
  | setPriority (proc : Slot) (pr : Int)
  deriving DecidableEq

def Op.caller : Op → Option Slot
  | .fork p _ _ | .yield p | .sleep p _ | .exit p | .wait p | .setPriority p _ => some p
  | .userinit | .scheduler | .wakeup _ | .kill _ => none

def Op.apply (s : PTable) : Op → Option PTable
  | .userinit => if s.initproc = none then s.userinit else none
  | .fork p kstack copied => some (s.fork p kstack copied).1
  | .scheduler => some s.scheduler
  | .yield p => some (s.yield p)
  | .sleep p chan => some (s.sleep p chan)
  | .wakeup chan => some (s.wakeup chan)
  | .kill pid => some (s.kill pid).1
  | .exit p => s.exit p
  | .wait p => some (s.wait p).1
  | .setPriority p pr => some (s.sysSetPriority p pr)

/-- An operation runs only on behalf of a process that is on a CPU. -/
def next (s : PTable) (op : Op) : Option PTable :=
  if ∀ p ∈ op.caller, (s.proc p).state = .RUNNING then op.apply s else none

def machine : Machine PTable Op := .ofFun .boot next

end Xv6.Sched
