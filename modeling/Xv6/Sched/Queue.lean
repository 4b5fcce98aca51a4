import Mathlib
import Xv6.Lib.Chain
import Xv6.Sched.Table

/-!
# What the intrusive lists represent

The four lists of `ptable.mlf` stand for four sequences of processes.
`QueueRep s q` relates a table to the sequences `q`; `enqueue` and `dequeue`
are then appending to and dropping from a sequence, and every other write of
`proc.c` touches only processes that are on none of them.
-/

namespace Xv6.Sched

open Xv6.Lib

namespace PTable

def link (s : PTable) (p : Slot) : Option Slot := (s.proc p).next

@[simp] theorem setProc_same (s : PTable) (p : Slot) (r : Proc) :
    (s.setProc p r).proc p = r := by
  simp [setProc]

@[simp] theorem setProc_ne (s : PTable) {p x : Slot} (r : Proc) (h : x ≠ p) :
    (s.setProc p r).proc x = s.proc x := by
  simp [setProc, h]

@[simp] theorem setMlf_same (s : PTable) (i : Nat) (n : Node) :
    (s.setMlf i n).mlf i = n := by
  simp [setMlf]

@[simp] theorem setMlf_ne (s : PTable) {i j : Nat} (n : Node) (h : j ≠ i) :
    (s.setMlf i n).mlf j = s.mlf j := by
  simp [setMlf, h]

end PTable

/-- The table's lists are exactly the sequences `q`, and their members are the
runnable processes of that priority. -/
structure QueueRep (s : PTable) (q : Nat → List Slot) : Prop where
  chain : ∀ i < MLF_LEVELS, IsChain s.link (s.mlf i).first (q i)
  last : ∀ i < MLF_LEVELS, ∀ l ∈ (q i).getLast?, (s.mlf i).last = some l
  nodup : ∀ i < MLF_LEVELS, (q i).Nodup
  member : ∀ i < MLF_LEVELS, ∀ p ∈ q i,
    (s.proc p).state = .RUNNABLE ∧ (s.proc p).priority = i

def OffQueue (q : Nat → List Slot) (p : Slot) : Prop :=
  ∀ i < MLF_LEVELS, p ∉ q i

namespace QueueRep

variable {s : PTable} {q : Nat → List Slot}

theorem offQueue (h : QueueRep s q) {p : Slot}
    (hp : (s.proc p).state ≠ .RUNNABLE) : OffQueue q p :=
  fun i hi hm => hp (h.member i hi p hm).1

theorem disjoint (h : QueueRep s q) {i j : Nat} (hi : i < MLF_LEVELS)
    (hj : j < MLF_LEVELS) (hij : i ≠ j) {p : Slot} (hp : p ∈ q i) : p ∉ q j := by
  intro hp'
  have h₁ := (h.member i hi p hp).2
  have h₂ := (h.member j hj p hp').2
  omega

/-- Two tables with the same levels that agree on the queued processes
represent the same sequences. -/
theorem congr (h : QueueRep s q) {t : PTable} (hmlf : t.mlf = s.mlf)
    (hproc : ∀ p, ¬ OffQueue q p → t.proc p = s.proc p) : QueueRep t q := by
  have hmem : ∀ i < MLF_LEVELS, ∀ p ∈ q i, t.proc p = s.proc p :=
    fun i hi p hp => hproc p fun hoff => hoff i hi hp
  refine ⟨fun i hi => ?_, fun i hi => ?_, h.nodup, fun i hi p hp => ?_⟩
  · rw [hmlf]
    refine (h.chain i hi).congr fun p hp => ?_
    simp only [PTable.link, hmem i hi p hp]
  · rw [hmlf]
    exact h.last i hi
  · rw [hmem i hi p hp]
    exact h.member i hi p hp

theorem setProc (h : QueueRep s q) {p : Slot} (hoff : OffQueue q p) (r : Proc) :
    QueueRep (s.setProc p r) q := by
  refine h.congr rfl fun x hx => PTable.setProc_ne s r ?_
  rintro rfl
  exact hx hoff

theorem touch (h : QueueRep s q) {p : Slot} {r : Proc} (hstate : r.state = (s.proc p).state)
    (hprio : r.priority = (s.proc p).priority) (hnext : r.next = (s.proc p).next) :
    QueueRep (s.setProc p r) q := by
  have hrec : ∀ x, ((s.setProc p r).proc x).state = (s.proc x).state ∧
      ((s.setProc p r).proc x).priority = (s.proc x).priority ∧
      (s.setProc p r).link x = s.link x := by
    intro x
    by_cases hx : x = p
    · subst hx
      simp [PTable.link, hstate, hprio, hnext]
    · simp [PTable.link, hx]
  refine ⟨fun i hi => ?_, h.last, h.nodup, fun i hi x hx => ?_⟩
  · exact (h.chain i hi).congr fun x _ => (hrec x).2.2
  · rw [(hrec x).1, (hrec x).2.1]
    exact h.member i hi x hx

end QueueRep

def pushAt (q : Nat → List Slot) (p : Slot) (pr : Int) : Nat → List Slot :=
  if 0 ≤ pr ∧ pr < MLF_LEVELS then
    Function.update q pr.toNat (q pr.toNat ++ [p])
  else q

/-! ## `enqueue` writes link fields only -/

def SameButNext (r r' : Proc) : Prop := { r with next := none } = { r' with next := none }

theorem SameButNext.refl (r : Proc) : SameButNext r r := rfl

theorem SameButNext.trans {a b c : Proc} (h : SameButNext a b) (h' : SameButNext b c) :
    SameButNext a c := Eq.trans h h'

theorem sameButNext_next (r : Proc) (n : Option Slot) :
    SameButNext { r with next := n } r := rfl

theorem SameButNext.state_eq {a b : Proc} (h : SameButNext a b) : a.state = b.state := by
  have := congrArg Proc.state h
  simpa using this

theorem SameButNext.priority_eq {a b : Proc} (h : SameButNext a b) :
    a.priority = b.priority := by
  have := congrArg Proc.priority h
  simpa using this

theorem SameButNext.chan_eq {a b : Proc} (h : SameButNext a b) : a.chan = b.chan := by
  have := congrArg Proc.chan h
  simpa using this

theorem SameButNext.parent_eq {a b : Proc} (h : SameButNext a b) :
    a.parent = b.parent := by
  have := congrArg Proc.parent h
  simpa using this

theorem sameButNext_setProc_next (s : PTable) (p x : Slot) (n : Option Slot) :
    SameButNext ((s.setProc p { s.proc p with next := n }).proc x) (s.proc x) := by
  by_cases hx : x = p
  · subst hx
    simpa using sameButNext_next _ _
  · simpa [hx] using SameButNext.refl _

theorem enqueue_sameButNext (s : PTable) (p x : Slot) :
    SameButNext ((s.enqueue p).proc x) (s.proc x) := by
  unfold PTable.enqueue
  simp only
  split_ifs with hpr
  · split
    · exact sameButNext_setProc_next (s.setMlf _ _) p x none
    · rename_i f _
      refine (sameButNext_setProc_next _ p x none).trans ?_
      exact sameButNext_setProc_next s _ x (some p)
  · exact .refl _

theorem enqueue_initproc (s : PTable) (p : Slot) :
    (s.enqueue p).initproc = s.initproc := by
  unfold PTable.enqueue
  simp only
  split_ifs
  · split <;> rfl
  · rfl

theorem QueueRep.snoc {s t : PTable} {q : Nat → List Slot} (h : QueueRep s q) {p : Slot}
    {i : Nat} (hi : i < MLF_LEVELS) (hoff : OffQueue q p)
    (hrun : (s.proc p).state = .RUNNABLE) (hprio : (s.proc p).priority = i)
    (hsame : ∀ x, SameButNext (t.proc x) (s.proc x))
    (hlevels : ∀ j, j ≠ i → t.mlf j = s.mlf j)
    (hfirst : (t.mlf i).first = (q i ++ [p]).head?) (hlast : (t.mlf i).last = some p)
    (hend : t.link p = none) (hback : ∀ l ∈ (q i).getLast?, t.link l = some p)
    (hlink : ∀ x, x ≠ p → x ∉ (q i).getLast? → t.link x = s.link x) :
    QueueRep t (Function.update q i (q i ++ [p])) := by
  refine ⟨fun j hj => ?_, fun j hj => ?_, fun j hj => ?_, fun j hj => ?_⟩
  · by_cases hji : j = i
    · subst hji
      rw [Function.update_self, hfirst]
      by_cases hne : q j = []
      · simp [hne, Lib.IsChain, hend]
      · have hl := List.getLast?_eq_some_getLast hne
        rw [List.head?_append_of_ne_nil _ hne, (h.chain j hj).head_eq]
        refine (h.chain j hj).snoc hl (h.nodup j hj) (hoff j hj) (hback _ hl) hend
          fun y hy hyl => hlink y ?_ ?_
        · rintro rfl
          exact hoff j hj hy
        · rw [hl]
          simpa using Ne.symm hyl
    · rw [Function.update_of_ne hji, hlevels j hji]
      refine (h.chain j hj).congr fun x hx => hlink x ?_ ?_
      · rintro rfl
        exact hoff j hj hx
      · intro hxl
        exact h.disjoint hi hj (Ne.symm hji) (List.mem_of_getLast? hxl) hx
  · by_cases hji : j = i
    · subst hji
      simpa using hlast
    · rw [Function.update_of_ne hji, hlevels j hji]
      exact h.last j hj
  · by_cases hji : j = i
    · subst hji
      rw [Function.update_self, ← List.concat_eq_append]
      exact (h.nodup j hj).concat (hoff j hj)
    · rw [Function.update_of_ne hji]
      exact h.nodup j hj
  · intro x hx
    rw [(hsame x).state_eq, (hsame x).priority_eq]
    by_cases hji : j = i
    · subst hji
      simp only [Function.update_self, List.mem_append, List.mem_singleton] at hx
      rcases hx with hx | rfl
      · exact h.member j hj x hx
      · exact ⟨hrun, hprio⟩
    · rw [Function.update_of_ne hji] at hx
      exact h.member j hj x hx

theorem enqueue_of_empty {s : PTable} {p : Slot} {i : Nat} (hi : i < MLF_LEVELS)
    (hprio : (s.proc p).priority = i) (hfirst : (s.mlf i).first = none) :
    s.enqueue p =
      (s.setMlf i ⟨some p, some p⟩).setProc p { s.proc p with next := none } := by
  simp [PTable.enqueue, hprio, hi, hfirst]

theorem enqueue_of_last {s : PTable} {p f l : Slot} {i : Nat} (hi : i < MLF_LEVELS)
    (hprio : (s.proc p).priority = i) (hfirst : (s.mlf i).first = some f)
    (hlast : (s.mlf i).last = some l) (hlp : l ≠ p) :
    s.enqueue p = ((s.setProc l { s.proc l with next := some p }).setMlf i
      ⟨some f, some p⟩).setProc p { s.proc p with next := none } := by
  simp [PTable.enqueue, hprio, hi, hfirst, hlast, hlp.symm]

theorem QueueRep.enqueue {s : PTable} {q : Nat → List Slot} (h : QueueRep s q) {p : Slot}
    (hrun : (s.proc p).state = .RUNNABLE) (hoff : OffQueue q p) :
    QueueRep (s.enqueue p) (pushAt q p (s.proc p).priority) := by
  by_cases hpr : 0 ≤ (s.proc p).priority ∧ (s.proc p).priority < MLF_LEVELS
  case neg => simpa [PTable.enqueue, pushAt, hpr] using h
  obtain ⟨i, hprio⟩ := Int.eq_ofNat_of_zero_le hpr.1
  have hi : i < MLF_LEVELS := by omega
  have hq : pushAt q p (s.proc p).priority = Function.update q i (q i ++ [p]) := by
    simp [pushAt, hprio, hi]
  rw [hq]
  have hsame := enqueue_sameButNext s p
  have hchain := h.chain i hi
  cases hf : (s.mlf i).first with
  | none =>
    have hnil : q i = [] := hchain.eq_nil_iff.2 hf
    rw [enqueue_of_empty hi hprio hf] at hsame ⊢
    refine h.snoc hi hoff hrun hprio hsame (fun j hj => ?_) ?_ ?_ ?_ ?_ fun x hx _ => ?_
    · simp [hj]
    · simp [hnil]
    · simp
    · simp [PTable.link]
    · simp [hnil]
    · simp [PTable.link, hx]
  | some f =>
    have hne : q i ≠ [] := fun hnil => by simp [hchain.eq_nil_iff.1 hnil] at hf
    have hl := List.getLast?_eq_some_getLast hne
    have hlp : (q i).getLast hne ≠ p := fun heq =>
      hoff i hi (heq ▸ List.getLast_mem hne)
    rw [enqueue_of_last hi hprio hf (h.last i hi _ hl) hlp] at hsame ⊢
    refine h.snoc hi hoff hrun hprio hsame (fun j hj => ?_) ?_ ?_ ?_ ?_ fun x hx hxl => ?_
    · simp [hj]
    · rw [List.head?_append_of_ne_nil _ hne, hchain.head_eq]
      simpa using hf.symm
    · simp
    · simp [PTable.link]
    · intro l hl'
      obtain rfl : (q i).getLast hne = l := by simpa [hl] using hl'
      simp [PTable.link, hlp]
    · have hxl' : x ≠ (q i).getLast hne := fun heq => hxl (heq ▸ hl)
      simp [PTable.link, hx, hxl']

theorem QueueRep.dequeue {s t : PTable} {q : Nat → List Slot} (h : QueueRep s q) {p : Slot}
    {i : Nat} (hi : i < MLF_LEVELS) (hdeq : s.dequeue i = some (t, p)) :
    q i = p :: (q i).tail ∧ QueueRep t (Function.update q i (q i).tail) := by
  have hchain := h.chain i hi
  cases hf : (s.mlf i).first with
  | none => simp [PTable.dequeue, hf] at hdeq
  | some f =>
    simp only [PTable.dequeue, hf, Option.some.injEq, Prod.mk.injEq] at hdeq
    obtain ⟨rfl, rfl⟩ := hdeq
    cases hqi : q i with
    | nil => simp [hchain.eq_nil_iff.1 hqi] at hf
    | cons x xs =>
      rw [hqi] at hchain
      obtain rfl : f = x := by simpa [hf] using hchain.1
      have hnodup := List.nodup_cons.1 (hqi ▸ h.nodup i hi)
      refine ⟨rfl, ?_⟩
      have hx : ∀ j < MLF_LEVELS, ∀ y ∈ Function.update q i xs j, y ≠ f := by
        rintro j hj y hy rfl
        by_cases hji : j = i
        · subst hji
          exact hnodup.1 (by simpa using hy)
        · rw [Function.update_of_ne hji] at hy
          exact h.disjoint hi hj (Ne.symm hji) (hqi ▸ List.mem_cons_self) hy
      have hsub : ∀ j < MLF_LEVELS, ∀ y ∈ Function.update q i xs j, y ∈ q j := by
        intro j _ y hy
        by_cases hji : j = i
        · subst hji
          exact hqi ▸ List.mem_cons_of_mem _ (by simpa using hy)
        · simpa [hji] using hy
      refine ⟨fun j hj => ?_, fun j hj => ?_, fun j hj => ?_, fun j hj y hy => ?_⟩
      · by_cases hji : j = i
        · subst hji
          simp only [Function.update_self, List.tail_cons, PTable.setProc_mlf,
            PTable.setMlf_same]
          refine hchain.2.congr fun y hy => ?_
          simp [PTable.link, hx j hj y (by simpa using hy)]
        · simp only [List.tail_cons, Function.update_of_ne hji, PTable.setProc_mlf,
            PTable.setMlf_ne _ _ hji]
          refine (h.chain j hj).congr fun y hy => ?_
          simp [PTable.link, hx j hj y (by simpa [hji] using hy)]
      · by_cases hji : j = i
        · subst hji
          intro l hl
          have hlast := h.last j hj l (by
            rw [hqi]
            cases xs with
            | nil => simp at hl
            | cons y ys => simpa using hl)
          simpa using hlast
        · simpa [hji] using h.last j hj
      · by_cases hji : j = i
        · subst hji
          simpa using hnodup.2
        · simpa [hji] using h.nodup j hj
      · have hyf := hx j hj y hy
        simpa [hyf] using h.member j hj y (hsub j hj y hy)

theorem QueueRep.dispatch {s t : PTable} {q : Nat → List Slot} (h : QueueRep s q) {p : Slot}
    {i : Nat} (hi : i < MLF_LEVELS) (hdeq : s.dequeue i = some (t, p)) (r : Proc) :
    q i = p :: (q i).tail ∧ QueueRep (t.setProc p r) (Function.update q i (q i).tail) := by
  obtain ⟨hqi, hrep⟩ := h.dequeue hi hdeq
  have hnodup := List.nodup_cons.1 (hqi ▸ h.nodup i hi)
  refine ⟨hqi, hrep.setProc (fun j hj hm => ?_) r⟩
  by_cases hji : j = i
  · subst hji
    exact hnodup.1 (by simpa using hm)
  · rw [Function.update_of_ne hji] at hm
    exact h.disjoint hi hj (Ne.symm hji) (hqi ▸ List.mem_cons_self) hm

theorem dequeue_sameButNext {s t : PTable} {p : Slot} {i : Nat}
    (hdeq : s.dequeue i = some (t, p)) (x : Slot) : SameButNext (t.proc x) (s.proc x) := by
  unfold PTable.dequeue at hdeq
  split at hdeq
  · cases hdeq
  · rename_i f _
    obtain ⟨rfl, rfl⟩ := Prod.mk.inj (Option.some.inj hdeq)
    exact sameButNext_setProc_next _ f x none

end Xv6.Sched
