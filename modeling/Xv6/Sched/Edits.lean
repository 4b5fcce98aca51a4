import Mathlib
import Xv6.Sched.Soundness

/-!
# How the operations change a process record

Every operation of the table is a composition of a few edits of single records.
`next_edits` says so once; what an operation keeps of a process then follows by
looking at the edits alone.
-/

namespace Xv6.Sched

open Xv6.Lib

/-- One assignment, or group of assignments, to the record of `x` during `op`. -/
inductive Edit (op : Op) (x : Slot) : Proc → Proc → Prop
  | next (r : Proc) (n : Option Slot) : Edit op x r { r with next := n }
  | makerunnable (r : Proc) (d : Int) :
      Edit op x r { r with priority := PTable.adjustPriority d r.priority, state := .RUNNABLE }
  | embryo (r : Proc) (pid : Int) (h : r.state = .UNUSED) :
      Edit op x r { r with state := .EMBRYO, pid := pid }
  | priority (r : Proc) : Edit op x r { r with priority := 0 }
  | unused (r : Proc) (h : r.state = .EMBRYO) : Edit op x r { r with state := .UNUSED }
  | parent (r : Proc) (q : Option Slot) : Edit op x r { r with parent := q }
  | dispatch (r : Proc) (h : op = .scheduler) :
      Edit op x r { r with state := .RUNNING, ticksProc := 0, chan := none }
  | lower (r : Proc) (h : r.priority < 3) : Edit op x r { r with priority := r.priority + 1 }
  | sleep (r : Proc) (chan : Chan)
      (h : op = .sleep x chan ∨ (op = .wait x ∧ chan = .proc x)) :
      Edit op x r
        { r with chan := some chan
                 state := .SLEEPING
                 priority := if r.priority > 0 then r.priority - 1 else r.priority }
  | killed (r : Proc) : Edit op x r { r with killed := true }
  | zombie (r : Proc) (h : op = .exit x) : Edit op x r { r with state := .ZOMBIE }
  | reap (r : Proc) (h : r.state = .ZOMBIE) :
      Edit op x r { r with state := .UNUSED, pid := 0, parent := none, killed := false }
  | setPriority (r : Proc) (pr : Int) (h : op = .setPriority x pr) :
      Edit op x r { r with priority := pr }

def Edits (op : Op) (s t : PTable) : Prop :=
  ∀ x, Relation.ReflTransGen (Edit op x) (s.proc x) (t.proc x)

namespace Edits

variable {op : Op} {s t u : PTable}

theorem refl (op : Op) (s : PTable) : Edits op s s := fun _ => .refl

theorem trans (h : Edits op s t) (h' : Edits op t u) : Edits op s u :=
  fun x => (h x).trans (h' x)

theorem of_proc (h : t.proc = s.proc) : Edits op s t := by
  intro x
  rw [h]

theorem setProc {p : Slot} {r : Proc} (h : Edit op p (s.proc p) r) :
    Edits op s (s.setProc p r) := by
  intro x
  by_cases hx : x = p
  · subst hx
    simpa using Relation.ReflTransGen.single h
  · simpa [hx] using Relation.ReflTransGen.refl

theorem keeps {P : Proc → Prop} (h : Edits op s t) {x : Slot}
    (hP : ∀ r r', Edit op x r r' → P r → P r') (hx : P (s.proc x)) : P (t.proc x) := by
  have hall : ∀ r, Relation.ReflTransGen (Edit op x) (s.proc x) r → P r := by
    intro r hr
    induction hr with
    | refl => exact hx
    | tail _ hedit ih => exact hP _ _ hedit ih
  exact hall _ (h x)

theorem enqueue (op : Op) (s : PTable) (p : Slot) : Edits op s (s.enqueue p) := by
  intro x
  have hsame := enqueue_sameButNext s p x
  have heq : (s.enqueue p).proc x =
      { s.proc x with next := ((s.enqueue p).proc x).next } := by
    have hfields := congrArg (fun r => { r with next := ((s.enqueue p).proc x).next }) hsame
    exact hfields
  rw [heq]
  exact .single (.next _ _)

theorem makerunnable (op : Op) (s : PTable) (p : Slot) (d : Int) :
    Edits op s (s.makerunnable p d) :=
  (setProc (.makerunnable _ d)).trans (enqueue op _ p)

theorem foldl {f : PTable → Slot → PTable} (hf : ∀ s p, Edits op s (f s p)) (l : List Slot)
    (s : PTable) : Edits op s (l.foldl f s) := by
  induction l generalizing s with
  | nil => exact refl op s
  | cons p l ih => exact (hf s p).trans (ih (f s p))

theorem wakeupOne (op : Op) (c : Option Chan) (s : PTable) (p : Slot) :
    Edits op s (PTable.wakeupOne c s p) := by
  unfold PTable.wakeupOne
  split_ifs
  · exact makerunnable op s p (-1)
  · exact refl op s

theorem wakeup1 (op : Op) (s : PTable) (c : Option Chan) : Edits op s (s.wakeup1 c) := by
  unfold PTable.wakeup1
  exact foldl (wakeupOne op c) _ s

theorem allocproc (op : Op) (s : PTable) (kstack : Bool) :
    Edits op s (s.allocproc kstack).1 := by
  unfold PTable.allocproc
  split
  · exact refl op s
  · rename_i p hfind
    have hunused : (s.proc p).state = .UNUSED := by simpa using List.find?_some hfind
    have hclaim : Edits op s
        { s.setProc p { s.proc p with state := .EMBRYO, pid := s.nextpid } with
          nextpid := s.nextpid + 1 } :=
      (setProc (.embryo _ _ hunused)).trans (of_proc rfl)
    have halloc := hclaim.trans (setProc (p := p) (.priority _))
    cases kstack with
    | true => exact halloc
    | false => exact halloc.trans (setProc (.unused _ (by simp)))

theorem allocproc_embryo {kstack : Bool} {u : PTable} {np : Slot}
    (h : s.allocproc kstack = (u, some np)) : (u.proc np).state = .EMBRYO := by
  unfold PTable.allocproc at h
  split at h
  · simp at h
  · cases kstack with
    | true =>
      obtain ⟨rfl, hnp⟩ := Prod.mk.inj h
      obtain rfl := Option.some.inj hnp
      simp
    | false => simp at h

theorem userinit (h : s.userinit = some t) : Edits op s t := by
  have halloc := allocproc op s true
  unfold PTable.userinit at h
  split at h
  · simp at h
  · rename_i u p heq
    rw [heq] at halloc
    obtain rfl := Option.some.inj h
    have hinit : Edits op u { u with initproc := some p } := of_proc rfl
    exact (halloc.trans hinit).trans (makerunnable op _ p 0)

theorem fork (op : Op) (s : PTable) (p : Slot) (kstack copied : Bool) :
    Edits op s (s.fork p kstack copied).1 := by
  have halloc := allocproc op s kstack
  unfold PTable.fork
  split
  · rename_i u heq
    rwa [heq] at halloc
  · rename_i u np heq
    rw [heq] at halloc
    cases copied with
    | true =>
      have hparent := halloc.trans (setProc (p := np) (.parent _ (some p)))
      exact hparent.trans (makerunnable op _ np 0)
    | false => exact halloc.trans (setProc (.unused _ (allocproc_embryo heq)))

theorem dequeue {i : Nat} {p : Slot} (h : s.dequeue i = some (t, p)) : Edits op s t := by
  unfold PTable.dequeue at h
  split at h
  · simp at h
  · rename_i res _
    obtain ⟨rfl, _⟩ := by simpa using h
    exact (of_proc rfl : Edits op s (s.setMlf i _)).trans (setProc (.next _ _))

theorem scheduler (s : PTable) : Edits .scheduler s s.scheduler := by
  unfold PTable.scheduler
  split
  · exact refl _ s
  · split
    · exact refl _ s
    · rename_i u p hdeq
      exact (dequeue hdeq).trans (setProc (.dispatch _ rfl))

theorem yield (op : Op) (s : PTable) (p : Slot) : Edits op s (s.yield p) := by
  unfold PTable.yield
  refine trans ?_ (makerunnable op _ p 1)
  split_ifs with hlt
  · exact setProc (.lower _ hlt)
  · exact refl op s

theorem kill (op : Op) (s : PTable) (pid : Int) : Edits op s (s.kill pid).1 := by
  unfold PTable.kill
  split
  · exact refl op s
  · rename_i p _
    have hmark : Edits op s (s.setProc p { s.proc p with killed := true }) :=
      setProc (.killed _)
    simp only
    split_ifs
    · exact hmark.trans (makerunnable op _ p 0)
    · exact hmark

theorem abandonOne (op : Op) (q : Slot) (s : PTable) (p : Slot) :
    Edits op s (PTable.abandonOne q s p) := by
  unfold PTable.abandonOne
  split_ifs
  · have hparent : Edits op s (s.setProc p { s.proc p with parent := s.initproc }) :=
      setProc (.parent _ _)
    simp only
    split_ifs
    · exact hparent.trans (wakeup1 op _ _)
    · exact hparent
  · exact refl op s

theorem exit {p : Slot} (h : s.exit p = some t) : Edits (.exit p) s t := by
  unfold PTable.exit at h
  split_ifs at h
  obtain rfl := Option.some.inj h
  have hpassed := (wakeup1 (.exit p) s ((s.proc p).parent.map Chan.proc)).trans
    (foldl (abandonOne (.exit p) p) (List.finRange NPROC) _)
  generalize (List.finRange NPROC).foldl (PTable.abandonOne p) _ = u at hpassed ⊢
  exact hpassed.trans (setProc (.zombie _ rfl))

theorem sleep {p : Slot} {chan : Chan}
    (h : op = .sleep p chan ∨ (op = .wait p ∧ chan = .proc p)) :
    Edits op s (s.sleep p chan) :=
  setProc (.sleep _ chan h)

theorem wait (s : PTable) (p : Slot) : Edits (.wait p) s (s.wait p).1 := by
  unfold PTable.wait
  split
  · rename_i c hfind
    have hzombie := List.find?_some hfind
    simp only [decide_eq_true_eq] at hzombie
    exact setProc (.reap _ hzombie.2)
  · simp only
    split_ifs
    · exact refl _ s
    · exact sleep (.inr ⟨rfl, rfl⟩)

end Edits

theorem next_edits {s t : PTable} {op : Op} (h : next s op = some t) : Edits op s t := by
  unfold next at h
  split_ifs at h
  cases op with
  | userinit =>
    simp only [Op.apply] at h
    split_ifs at h
    exact .userinit h
  | fork p kstack copied => exact Option.some.inj h ▸ .fork _ s p kstack copied
  | scheduler => exact Option.some.inj h ▸ .scheduler s
  | yield p => exact Option.some.inj h ▸ .yield _ s p
  | sleep p chan => exact Option.some.inj h ▸ .sleep (.inl rfl)
  | wakeup chan =>
    obtain rfl := Option.some.inj h
    unfold PTable.wakeup
    exact .wakeup1 _ s _
  | kill pid => exact Option.some.inj h ▸ .kill _ s pid
  | exit p => exact .exit h
  | wait p => exact Option.some.inj h ▸ .wait s p
  | setPriority p pr =>
    obtain rfl := Option.some.inj h
    exact .setProc (.setPriority _ pr rfl)

/-- A process that is asleep after an operation was asleep on the same channel
before, unless the operation put it to sleep. -/
theorem sleepsOn_of_next {s t : PTable} {op : Op} (h : next s op = some t) {x : Slot}
    {chan : Option Chan} (hx : SleepsOn t chan x) :
    SleepsOn s chan x ∨ ∃ ch, chan = some ch ∧
      (op = .sleep x ch ∨ (op = .wait x ∧ ch = .proc x)) := by
  by_contra hnot
  rw [not_or] at hnot
  refine (next_edits h).keeps (P := fun r => ¬ (r.state = .SLEEPING ∧ r.chan = chan))
    (fun r r' hedit hr hr' => ?_) hnot.1 hx
  cases hedit with
  | sleep ch hop => exact hnot.2 ⟨ch, hr'.2.symm, hop⟩
  | next | priority | parent | lower | killed | setPriority => exact hr hr'
  | makerunnable | embryo | unused | dispatch | zombie | reap =>
    exact absurd hr'.1 (by simp)

/-- A process that `fork` has completed and that has not called `exit`. -/
def Proc.Started (r : Proc) : Prop :=
  r.state = .SLEEPING ∨ r.state = .RUNNABLE ∨ r.state = .RUNNING

theorem Edits.started {s t : PTable} {op : Op} (h : Edits op s t) {x : Slot}
    (hop : op ≠ .exit x) (hx : (s.proc x).Started) : (t.proc x).Started := by
  refine h.keeps (P := Proc.Started) (fun r r' hedit hr => ?_) hx
  cases hedit with
  | embryo _ hs | unused hs | reap hs =>
    exfalso
    rcases hr with hr | hr | hr <;> rw [hr] at hs <;> simp at hs
  | zombie hexit => exact absurd hexit hop
  | next | priority | parent | lower | killed | setPriority => exact hr
  | makerunnable | dispatch | sleep => simp [Proc.Started]

end Xv6.Sched
