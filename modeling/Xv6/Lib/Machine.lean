import Mathlib

/-!
# Labelled machines and conditioned reachability

A machine is a set of initial states and a labelled step relation.  Safety
statements about it quantify over `Reach ok`: the states of all runs whose
every step met the condition `ok` in the state it was taken from.  With the
trivial condition these are simply the reachable states.
-/

namespace Xv6.Lib

universe u v

structure Machine (σ : Type u) (ε : Type v) where
  init : σ → Prop
  step : σ → ε → σ → Prop

namespace Machine

variable {σ : Type u} {ε : Type v} (M : Machine σ ε)

/-- The states reached by runs whose steps all satisfy `ok` in their pre-state. -/
inductive Reach (ok : σ → ε → Prop) : σ → Prop
  | init {s : σ} (h : M.init s) : Reach ok s
  | step {s t : σ} {e : ε} (hs : Reach ok s) (hok : ok s e)
      (ht : M.step s e t) : Reach ok t

def Reachable : σ → Prop := M.Reach fun _ _ => True

variable {M}

/-- A property of the initial states kept by every conditioned step holds of
every state a conditioned run reaches. -/
theorem Reach.invariant {ok : σ → ε → Prop} {I : σ → Prop}
    (hinit : ∀ s, M.init s → I s)
    (hstep : ∀ s e t, I s → ok s e → M.step s e t → I t)
    {s : σ} (h : M.Reach ok s) : I s := by
  induction h with
  | init h => exact hinit _ h
  | step _ hok ht ih => exact hstep _ _ _ ih hok ht

theorem Reach.invariant_of_reach {ok : σ → ε → Prop} {I : σ → Prop}
    (hinit : ∀ s, M.init s → I s)
    (hstep : ∀ s e t, M.Reach ok s → I s → ok s e → M.step s e t → I t)
    {s : σ} (h : M.Reach ok s) : I s := by
  induction h with
  | init h => exact hinit _ h
  | step hs hok ht ih => exact hstep _ _ _ hs ih hok ht

theorem Reach.mono {ok ok' : σ → ε → Prop} (himp : ∀ s e, ok s e → ok' s e)
    {s : σ} (h : M.Reach ok s) : M.Reach ok' s := by
  induction h with
  | init h => exact .init h
  | step _ hok ht ih => exact .step ih (himp _ _ hok) ht

theorem Reach.reachable {ok : σ → ε → Prop} {s : σ} (h : M.Reach ok s) :
    M.Reachable s :=
  h.mono fun _ _ _ => trivial

def ofFun (init : σ) (next : σ → ε → Option σ) : Machine σ ε where
  init s := s = init
  step s e t := next s e = some t

/-- The state after a list of labels, when every label is enabled in turn. -/
def runList (next : σ → ε → Option σ) : σ → List ε → Option σ
  | s, [] => some s
  | s, e :: es => (next s e).bind fun t => runList next t es

theorem Reach.runList {next : σ → ε → Option σ} {ok : σ → ε → Prop}
    [∀ s e, Decidable (ok s e)] (hnext : ∀ s e t, next s e = some t → M.step s e t) {s t : σ}
    (es : List ε) (hs : M.Reach ok s)
    (hrun : Machine.runList (fun s e => if ok s e then next s e else none) s es = some t) :
    M.Reach ok t := by
  induction es generalizing s with
  | nil =>
    simp only [Machine.runList, Option.some.injEq] at hrun
    exact hrun ▸ hs
  | cons e es ih =>
    simp only [Machine.runList, Option.bind_eq_some_iff,
      Option.ite_none_right_eq_some] at hrun
    obtain ⟨u, ⟨hok, hu⟩, hrest⟩ := hrun
    exact ih (.step hs hok (hnext s e u hu)) hrest

theorem reach_of_runList {init : σ} {next : σ → ε → Option σ} {ok : σ → ε → Prop}
    [∀ s e, Decidable (ok s e)] {s t : σ} (es : List ε) (hs : (ofFun init next).Reach ok s)
    (hrun : Machine.runList (fun s e => if ok s e then next s e else none) s es = some t) :
    (ofFun init next).Reach ok t :=
  hs.runList (fun _ _ _ h => h) es hrun

theorem reachable_of_runList {init : σ} {next : σ → ε → Option σ} {s t : σ}
    (es : List ε) (hs : (ofFun init next).Reachable s)
    (hrun : runList next s es = some t) : (ofFun init next).Reachable t := by
  have htrue : (ofFun init next).Reach (fun _ _ => True) s := hs
  apply reach_of_runList es htrue
  simpa using hrun

end Machine

/-- A relation of waiting has no cycle if only one thing can both wait and be waited for, and
nothing waits for itself. -/
theorem not_transGen_of_unique {α : Type u} {waits : α → α → Prop} {P : α → Prop}
    (hboth : ∀ p q r, waits p q → waits r p → P p) (hone : ∀ p q, P p → P q → p = q)
    (hself : ∀ p, ¬ waits p p) (p : α) : ¬ Relation.TransGen waits p p := by
  intro hcycle
  obtain ⟨r, hr⟩ : ∃ r, waits r p := by
    cases hcycle with
    | single h => exact ⟨p, h⟩
    | tail _ h => exact ⟨_, h⟩
  obtain ⟨q, hpq, hback⟩ := Relation.TransGen.head'_iff.1 hcycle
  have hp : P p := hboth p q r hpq hr
  rcases Relation.ReflTransGen.cases_head hback with heq | ⟨u, hqu, _⟩
  · rw [heq] at hpq
    exact hself p hpq
  · have heq : p = q := hone p q hp (hboth q u p hqu hpq)
    rw [← heq] at hpq
    exact hself p hpq

end Xv6.Lib
