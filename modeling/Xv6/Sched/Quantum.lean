import Xv6.Sched.Runs

/-!
# The quantum

`scheduler` sets `ticksProc` to zero, and `trap` counts the timer interrupts of the process on
its processor and yields when the count is equal to `QUANTUM`.
-/

namespace Xv6.Sched

open Xv6.Lib

def QUANTUM : Nat := 6

/-- The end of `trap` at a timer interrupt. -/
def PTable.timer (s : PTable) (proc : Slot) : PTable :=
  if (s.proc proc).state = .RUNNING then
    let n := (s.proc proc).ticksProc + 1
    let s := s.setProc proc { s.proc proc with ticksProc := n }
    if n = QUANTUM then s.yield proc else s
  else s

/-- The table and a count that is not in the kernel: for each process the timer interrupts on
its processor since `scheduler` last switched to it. -/
structure Clock where
  table : PTable
  since : Slot → Nat

/-- The operations of the table, and a timer interrupt on the processor of a process. -/
def clockNext (c : Clock) : Op ⊕ Slot → Option Clock
  | .inl op =>
    (next c.table op).map fun t =>
      { table := t
        since := match op with
          | .scheduler => fun p => if c.table.dispatched = some p then 0 else c.since p
          | _ => c.since }
  | .inr p => some ⟨c.table.timer p, Function.update c.since p (c.since p + 1)⟩

def clockMachine : Machine Clock (Op ⊕ Slot) := .ofFun ⟨.boot, fun _ => 0⟩ clockNext

/-- The count of the kernel is the number of interrupts, and the quantum is not over. -/
def Proc.Counted (n : Nat) (r : Proc) : Prop :=
  r.state = .RUNNING → r.ticksProc = n ∧ n < QUANTUM

theorem Edit.counted {op : Op} {x : Slot} {r r' : Proc} {n : Nat} (h : Edit op x r r')
    (hop : op ≠ .scheduler) (hr : r.Counted n) : r'.Counted n := by
  cases h with
  | dispatch hsched => exact absurd hsched hop
  | makerunnable | embryo | unused | sleep | zombie | reap => simp [Proc.Counted]
  | _ => exact hr

theorem Edits.counted {op : Op} {s t : PTable} {x : Slot} {n : Nat} (h : Edits op s t)
    (hop : op ≠ .scheduler) (hx : (s.proc x).Counted n) : (t.proc x).Counted n :=
  h.keeps (fun _ _ he => he.counted hop) hx

theorem scheduler_counted {s : PTable} {x : Slot} {n : Nat} (hx : (s.proc x).Counted n) :
    (s.scheduler.proc x).Counted (if s.dispatched = some x then 0 else n) := by
  unfold PTable.scheduler PTable.dispatched
  cases hlevel : s.firstLevel with
  | none => simpa using hx
  | some i =>
    cases hfirst : (s.mlf i).first with
    | none => simpa [PTable.dequeue, hfirst] using hx
    | some p =>
      by_cases hp : x = p
      · simp [PTable.dequeue, hfirst, hp, Proc.Counted, QUANTUM]
      · simpa [PTable.dequeue, hfirst, hp, Ne.symm hp, Proc.Counted] using hx

theorem yield_state (s : PTable) (p : Slot) : ((s.yield p).proc p).state = .RUNNABLE :=
  (makerunnable_self _ p 1).state_eq

theorem timer_counted {s : PTable} {since : Slot → Nat}
    (h : ∀ x, (s.proc x).Counted (since x)) (p x : Slot) :
    ((s.timer p).proc x).Counted (Function.update since p (since p + 1) x) := by
  unfold PTable.timer
  dsimp only
  split_ifs with hrun hlast <;> by_cases hx : x = p
  · simp [hx, Proc.Counted, yield_state]
  · refine (Edits.yield (.yield p) _ p).counted nofun ?_
    simpa [hx] using h x
  · obtain ⟨hticks, hlt⟩ := h p hrun
    intro _
    simp [hx]
    omega
  · simpa [hx] using h x
  · exact fun hr => absurd (hx ▸ hr) hrun
  · simpa [hx] using h x

theorem counted_of_clockNext {c d : Clock} {e : Op ⊕ Slot}
    (h : ∀ x, (c.table.proc x).Counted (c.since x)) (hd : clockNext c e = some d) (x : Slot) :
    (d.table.proc x).Counted (d.since x) := by
  cases e with
  | inr p =>
    cases hd
    exact timer_counted h p x
  | inl op =>
    obtain ⟨t, ht, rfl⟩ := Option.map_eq_some_iff.1 hd
    cases op with
    | scheduler =>
      obtain rfl : c.table.scheduler = t := by simpa [next, Op.caller, Op.apply] using ht
      exact scheduler_counted (h x)
    | _ => exact (next_edits ht).counted (by simp) (h x)

end Xv6.Sched
