import Xv6.Lib.Machine
import Xv6.Lib.Prog
import Mathlib

/-!
# Programs that take turns

Processes run programs over a shared state, one action at a time in any order.  Each
process has an account of what it holds of the state, and the invariant is about the state
and all the accounts.  A program is safe from an account if each of its actions keeps the
invariant with the process's own account moved on, whatever the others have done in
between; so programs are verified one by one.
-/

namespace Xv6.Lib

/-- Processes over a shared state, each running a program or none. -/
structure Pool (π σ ℓ ρ : Type) : Type 1 where
  state : σ
  prog : π → Option (Prog σ ℓ ρ)

/-- The code of the calls, who may make one, and what else happens to the state, which can
depend on who is in a call. -/
structure System (π κ ε σ ℓ ρ : Type) : Type 1 where
  code : π → κ → Prog σ ℓ ρ
  ready : σ → π → Bool
  env : (π → Bool) → σ → ε → Option σ

inductive Turn (π κ ε : Type)
  | call (p : π) (c : κ)
  | step (p : π)
  | env (e : ε)

def Turn.proc {π κ ε : Type} : Turn π κ ε → Option π
  | .call p _ => some p
  | .step p => some p
  | .env _ => none

variable {π κ ε σ τ ℓ ρ α β A B ι : Type}

namespace Pool

def action (s : Pool π σ ℓ ρ) (p : π) : Option ℓ :=
  match s.prog p with
  | some (.act l _ _) => some l
  | _ => none

def halted (s : Pool π σ ℓ ρ) (p : π) : Option Halt :=
  match s.prog p with
  | some (.act _ f _) =>
    match f s.state with
    | .ok _ => none
    | .halt h => some h
  | _ => none

def Meets (cond : π → σ → ℓ → Prop) (s : Pool π σ ℓ ρ) : Turn π κ ε → Prop
  | .step p =>
    match s.action p with
    | some l => cond p s.state l
    | none => True
  | _ => True

instance (cond : π → σ → ℓ → Prop) [∀ p s l, Decidable (cond p s l)] (s : Pool π σ ℓ ρ)
    (e : Turn π κ ε) : Decidable (s.Meets cond e) := by
  unfold Meets
  split
  · split
    · infer_instance
    · infer_instance
  · infer_instance

theorem Meets.of_forall {cond : π → σ → ℓ → Prop} (h : ∀ p s l, cond p s l)
    {s : Pool π σ ℓ ρ} {e : Turn π κ ε} : s.Meets cond e := by
  cases e with
  | call p c => trivial
  | env e => trivial
  | step p =>
    simp only [Meets]
    split
    · exact h _ _ _
    · trivial

theorem Meets.mono {cond cond' : π → σ → ℓ → Prop} (himp : ∀ p s l, cond p s l → cond' p s l)
    {s : Pool π σ ℓ ρ} {e : Turn π κ ε} (h : s.Meets cond e) : s.Meets cond' e := by
  cases e with
  | call p c => trivial
  | env e => trivial
  | step p =>
    simp only [Meets] at h ⊢
    split
    · rename_i l hact
      rw [hact] at h
      exact himp p s.state l h
    · trivial

/-- What is left of a program that goes on; one that is at its end is gone. -/
def rest : Prog σ ℓ ρ → Option (Prog σ ℓ ρ)
  | .ret _ => none
  | k => some k

variable [DecidableEq π]

def next (S : System π κ ε σ ℓ ρ) (s : Pool π σ ℓ ρ) : Turn π κ ε → Option (Pool π σ ℓ ρ)
  | .call p c =>
    if (s.prog p).isNone ∧ S.ready s.state p then
      some { s with prog := Function.update s.prog p (rest (S.code p c)) }
    else none
  | .step p =>
    match s.prog p with
    | some (.act _ f k) =>
      match f s.state with
      | .ok (b, t) => some { state := t, prog := Function.update s.prog p (rest (k b)) }
      | .halt _ => none
    | _ => none
  | .env e => (S.env (fun p => (s.prog p).isSome) s.state e).map fun t => { s with state := t }

def machine (S : System π κ ε σ ℓ ρ) (init : σ → Prop) :
    Machine (Pool π σ ℓ ρ) (Turn π κ ε) where
  init s := init s.state ∧ s.prog = fun _ => none
  step s e t := s.next S e = some t

/-- The turns of a process that makes a call and is alone until its end. -/
def alone (p : π) (c : κ) (n : Nat) : List (Turn π κ ε) :=
  .call p c :: List.replicate n (.step p)

end Pool

/-- The invariant of the state and the accounts, the accounts of processes that run no
program, and what may be assumed and is to be shown of each action. -/
structure Rules (π σ ℓ A ι : Type) where
  inv : ι → σ → (π → A) → Prop
  idle : A → Prop
  cond : π → σ → ℓ → Prop
  check : π → A → σ → ℓ → Prop

namespace Rules

/-- The accounts of the other processes are kept, unless they are idle. -/
def Keeps (R : Rules π σ ℓ A ι) (p : π) (acc acc' : π → A) : Prop :=
  ∀ q, q ≠ p → acc' q = acc q ∨ R.idle (acc q) ∧ R.idle (acc' q)

/-- The accounts of the processes whose turn it is not are kept, unless they are idle. -/
def Follows (R : Rules π σ ℓ A ι) (e : Turn π κ ε) (acc acc' : π → A) : Prop :=
  ∀ q, e.proc ≠ some q → acc' q = acc q ∨ R.idle (acc q) ∧ R.idle (acc' q)

/-- The program of process `p` keeps the invariant from the account on, and ends with `Q`. -/
def Safe (R : Rules π σ ℓ A ι) (p : π) (Q : α → A → Prop) : Prog σ ℓ α → A → Prop
  | .ret x, a => Q x a
  | .act l f k, a => ∀ i s acc, R.inv i s acc → acc p = a → ¬ R.idle a → R.cond p s l →
      R.check p a s l ∧ ∀ b t, f s = .ok (b, t) →
        ∃ acc', R.inv i t acc' ∧ R.Keeps p acc acc' ∧ ¬ R.idle (acc' p) ∧
          R.Safe p Q (k b) (acc' p)

variable {R : Rules π σ ℓ A ι} {p : π} {Q Q' : α → A → Prop} {a : A}

theorem Safe.mono {m : Prog σ ℓ α} (h : R.Safe p Q m a) (himp : ∀ x a, Q x a → Q' x a) :
    R.Safe p Q' m a := by
  induction m generalizing a with
  | ret x => exact himp x a h
  | act l f k ih =>
    intro i s acc hinv hacc hactive hcond
    obtain ⟨hcheck, hnext⟩ := h i s acc hinv hacc hactive hcond
    refine ⟨hcheck, fun b t hf => ?_⟩
    obtain ⟨acc', hinv', hkeeps, hactive', hsafe⟩ := hnext b t hf
    exact ⟨acc', hinv', hkeeps, hactive', ih b hsafe⟩

theorem Safe.bind {m : Prog σ ℓ α} {g : α → Prog σ ℓ β} {T : β → A → Prop}
    (h : R.Safe p Q m a) (hg : ∀ x a, Q x a → R.Safe p T (g x) a) :
    R.Safe p T (m.bind g) a := by
  induction m generalizing a with
  | ret x => exact hg x a h
  | act l f k ih =>
    intro i s acc hinv hacc hactive hcond
    obtain ⟨hcheck, hnext⟩ := h i s acc hinv hacc hactive hcond
    refine ⟨hcheck, fun b t hf => ?_⟩
    obtain ⟨acc', hinv', hkeeps, hactive', hsafe⟩ := hnext b t hf
    exact ⟨acc', hinv', hkeeps, hactive', ih b hsafe⟩

theorem safe_ite {c : Prop} [Decidable c] {m m' : Prog σ ℓ α} (hpos : c → R.Safe p Q m a)
    (hneg : ¬ c → R.Safe p Q m' a) : R.Safe p Q (if c then m else m') a := by
  split_ifs with hc
  · exact hpos hc
  · exact hneg hc

theorem safe_loop {f : Nat → Prog σ ℓ Unit} {I : Nat → A → Prop} {i m : Nat} (ha : I i a)
    (hbody : ∀ j a, i ≤ j → j < i + m → I j a → R.Safe p (fun _ => I (j + 1)) (f j) a) :
    R.Safe p (fun _ => I (i + m)) (Prog.loop f i m) a := by
  induction m generalizing i a with
  | zero => exact ha
  | succ m ih =>
    apply (hbody i a (Nat.le_refl i) (by omega) ha).bind
    intro _ a' ha'
    have hrest := ih ha' fun j a hij hjm => hbody j a (by omega) (by omega)
    have hend : i + 1 + m = i + (m + 1) := by omega
    rwa [hend] at hrest

theorem safe_forRange {f : Nat → Prog σ ℓ Unit} {I : Nat → A → Prop} {n : Nat} (ha : I 0 a)
    (hbody : ∀ j a, j < n → I j a → R.Safe p (fun _ => I (j + 1)) (f j) a) :
    R.Safe p (fun _ => I n) (Prog.forRange n f) a := by
  have hloop := safe_loop (i := 0) (m := n) ha fun j a _ hj => hbody j a (by omega)
  rwa [Nat.zero_add] at hloop

theorem safe_forList {f : β → Prog σ ℓ Unit} {I : List β → A → Prop} {xs : List β} (ha : I xs a)
    (hbody : ∀ x rest a, x ∈ xs → I (x :: rest) a → R.Safe p (fun _ => I rest) (f x) a) :
    R.Safe p (fun _ => I []) (Prog.forList xs f) a := by
  induction xs generalizing a with
  | nil => exact ha
  | cons x xs ih =>
    apply (hbody x xs a List.mem_cons_self ha).bind
    intro _ a' ha'
    exact ih ha' fun y rest b hy => hbody y rest b (List.mem_cons_of_mem x hy)

variable [DecidableEq π]

theorem keeps_update (acc : π → A) (x : A) : R.Keeps p acc (Function.update acc p x) :=
  fun _ hq => .inl (Function.update_of_ne hq ..)

theorem safe_atomic {l : ℓ} {f : σ → Res (α × σ)}
    (h : ∀ i s acc, R.inv i s acc → acc p = a → ¬ R.idle a → R.cond p s l →
      R.check p a s l ∧ ∀ x t, f s = .ok (x, t) →
        ∃ a', R.inv i t (Function.update acc p a') ∧ ¬ R.idle a' ∧ Q x a') :
    R.Safe p Q (.atomic l f) a := by
  intro i s acc hinv hacc hactive hcond
  obtain ⟨hcheck, hnext⟩ := h i s acc hinv hacc hactive hcond
  refine ⟨hcheck, fun x t hf => ?_⟩
  obtain ⟨a', hinv', hactive', hQ⟩ := hnext x t hf
  refine ⟨_, hinv', keeps_update acc a', ?_⟩
  rw [Function.update_self]
  exact ⟨hactive', hQ⟩

/-! ## A program on a part of the state -/

/-- The rules `T` for the whole state contain the rules `R` for a part of it. -/
structure Part (R : Rules π σ ℓ A ι) (T : Rules π τ ℓ B Unit) (get : τ → σ)
    (set : σ → τ → τ) (view : B → A) (put : A → B → B) (p : π) : Prop where
  idle : ∀ a, ¬ R.idle a
  active : ∀ x b, ¬ T.idle b → ¬ T.idle (put x b)
  inv : ∀ s acc, T.inv () s acc → ¬ T.idle (acc p) → ∃ i, R.inv i (get s) (fun q => view (acc q)) ∧
    ∀ t x, R.inv i t (Function.update (fun q => view (acc q)) p x) →
      T.inv () (set t s) (Function.update acc p (put x (acc p)))
  cond : ∀ s l, T.cond p s l → R.cond p (get s) l
  check : ∀ b s l, R.check p (view b) (get s) l → T.check p b s l
  view_put : ∀ x b, view (put x b) = x
  put_put : ∀ x y b, put x (put y b) = put x b
  put_view : ∀ b, put (view b) b = b

theorem Safe.lift {T : Rules π τ ℓ B Unit} {get : τ → σ} {set : σ → τ → τ} {view : B → A}
    {put : A → B → B} (hpart : Part R T get set view put p) {m : Prog σ ℓ α} {b : B}
    (h : R.Safe p Q m (view b)) :
    T.Safe p (fun x c => ∃ y, c = put y b ∧ Q x y) (m.lift get set) b := by
  induction m generalizing b with
  | ret x => exact ⟨view b, (hpart.put_view b).symm, h⟩
  | act l f k ih =>
    rintro ⟨⟩ s acc hinv hacc hactive hcond
    obtain ⟨i, hpartInv, hback⟩ := hpart.inv s acc hinv (by rwa [hacc])
    obtain ⟨hcheck, hnext⟩ :=
      h i (get s) _ hpartInv (by rw [hacc]) (hpart.idle _) (hpart.cond s l hcond)
    refine ⟨hpart.check b s l hcheck, fun x t hf => ?_⟩
    cases hfs : f (get s) with
    | halt e => simp [hfs] at hf
    | ok r =>
      obtain ⟨y, u⟩ := r
      obtain ⟨rfl, rfl⟩ : y = x ∧ set u s = t := by simpa [hfs] using hf
      obtain ⟨acc', hinv', hkeeps, _, hsafe⟩ := hnext y u hfs
      have hacc' : acc' = Function.update (fun q => view (acc q)) p (acc' p) := by
        funext q
        by_cases hq : q = p
        · rw [hq, Function.update_self]
        · rw [Function.update_of_ne hq]
          exact (hkeeps q hq).resolve_right fun hidle => hpart.idle _ hidle.1
      rw [hacc'] at hinv'
      refine ⟨_, hback u (acc' p) hinv', keeps_update acc _, ?_⟩
      rw [Function.update_self, hacc]
      refine ⟨hpart.active _ b hactive, ?_⟩
      have hview : view (put (acc' p) b) = acc' p := hpart.view_put _ _
      have hrest := ih y (b := put (acc' p) b) (by rwa [hview])
      apply hrest.mono
      rintro z c ⟨w, rfl, hw⟩
      exact ⟨w, by rw [hpart.put_put], hw⟩

/-! ## Runs -/

def Done (R : Rules π σ ℓ A ι) (i : ι) (p : π) (a : A) : Prop :=
  ∀ s acc, R.inv i s acc → acc p = a → ∃ a', R.idle a' ∧ R.inv i s (Function.update acc p a')

structure Holds (R : Rules π σ ℓ A ι) (i : ι) (s : Pool π σ ℓ ρ) (acc : π → A) : Prop where
  inv : R.inv i s.state acc
  idle : ∀ p, s.prog p = none → R.idle (acc p)
  active : ∀ p k, s.prog p = some k → ¬ R.idle (acc p)
  safe : ∀ p k, s.prog p = some k → R.Safe p (fun _ => R.Done i p) k (acc p)

theorem Holds.move {i : ι} {s t : Pool π σ ℓ ρ} {acc acc' : π → A} (h : R.Holds i s acc)
    (hinv : R.inv i t.state acc') (hprog : ∀ q, q ≠ p → t.prog q = s.prog q)
    (hkeeps : R.Keeps p acc acc') (hidle : t.prog p = none → R.idle (acc' p))
    (hactive : ∀ k, t.prog p = some k → ¬ R.idle (acc' p))
    (hsafe : ∀ k, t.prog p = some k → R.Safe p (fun _ => R.Done i p) k (acc' p)) :
    R.Holds i t acc' := by
  have hcases : ∀ q, q ≠ p → acc' q = acc q ∨ s.prog q = none ∧ R.idle (acc' q) := by
    intro q hqp
    rcases hkeeps q hqp with heq | ⟨hq, hq'⟩
    · exact .inl heq
    · refine .inr ⟨?_, hq'⟩
      cases hprog : s.prog q with
      | none => rfl
      | some k => exact absurd hq (h.active q k hprog)
  refine ⟨hinv, fun q hq => ?_, fun q k hq => ?_, fun q k hq => ?_⟩
  · by_cases hqp : q = p
    · subst q
      exact hidle hq
    · rw [hprog q hqp] at hq
      rcases hcases q hqp with heq | ⟨_, hidle'⟩
      · rw [heq]
        exact h.idle q hq
      · exact hidle'
  · by_cases hqp : q = p
    · subst q
      exact hactive k hq
    · rw [hprog q hqp] at hq
      rcases hcases q hqp with heq | ⟨hnone, _⟩
      · rw [heq]
        exact h.active q k hq
      · rw [hnone] at hq
        cases hq
  · by_cases hqp : q = p
    · subst q
      exact hsafe k hq
    · rw [hprog q hqp] at hq
      rcases hcases q hqp with heq | ⟨hnone, _⟩
      · rw [heq]
        exact h.safe q k hq
      · rw [hnone] at hq
        cases hq

theorem Holds.goOn {i : ι} {s t : Pool π σ ℓ ρ} {acc acc' : π → A} {k : Prog σ ℓ ρ}
    (h : R.Holds i s acc) (hprog : t.prog = Function.update s.prog p (Pool.rest k))
    (hinv : R.inv i t.state acc') (hkeeps : R.Keeps p acc acc') (hactive : ¬ R.idle (acc' p))
    (hsafe : R.Safe p (fun _ => R.Done i p) k (acc' p)) :
    ∃ acc', R.Holds i t acc' ∧ R.Keeps p acc acc' := by
  have hothers : ∀ q, q ≠ p → t.prog q = s.prog q := fun q hq => by
    rw [hprog, Function.update_of_ne hq]
  have hown : t.prog p = Pool.rest k := by rw [hprog, Function.update_self]
  cases k with
  | ret x =>
    obtain ⟨a, hidle, hinv'⟩ := hsafe t.state acc' hinv rfl
    have hnone : t.prog p = none := hown
    have hkeeps' : R.Keeps p acc (Function.update acc' p a) := by
      intro q hq
      rw [Function.update_of_ne hq]
      exact hkeeps q hq
    refine ⟨_, h.move (p := p) hinv' hothers hkeeps' ?_ ?_ ?_, hkeeps'⟩
    · rw [Function.update_self]
      exact fun _ => hidle
    · rw [hnone]
      rintro _ ⟨⟩
    · rw [hnone]
      rintro _ ⟨⟩
  | act l f k =>
    have hsome : t.prog p = some (.act l f k) := hown
    refine ⟨acc', h.move (p := p) hinv hothers hkeeps ?_ ?_ ?_, hkeeps⟩
    · rw [hsome]
      intro hk
      cases hk
    · exact fun _ _ => hactive
    · rw [hsome]
      rintro _ ⟨⟩
      exact hsafe

structure Sound (R : Rules π σ ℓ A ι) (S : System π κ ε σ ℓ ρ) (i : ι) : Prop where
  call : ∀ s acc p c, R.inv i s acc → R.idle (acc p) → S.ready s p = true →
    ∃ a, ¬ R.idle a ∧ R.inv i s (Function.update acc p a) ∧
      R.Safe p (fun _ => R.Done i p) (S.code p c) a
  env : ∀ busy s acc e t, R.inv i s acc → (∀ p, busy p = false → R.idle (acc p)) →
    S.env busy s e = some t →
    ∃ acc', R.inv i t acc' ∧ ∀ q, acc' q = acc q ∨ R.idle (acc q) ∧ R.idle (acc' q)

variable {S : System π κ ε σ ℓ ρ} {i : ι} {s t : Pool π σ ℓ ρ} {acc : π → A}

theorem Holds.call (hS : R.Sound S i) (h : R.Holds i s acc) {p : π} {c : κ}
    (ht : s.next S (.call p c) = some t) :
    ∃ acc', R.Holds i t acc' ∧ R.Keeps p acc acc' := by
  simp only [Pool.next] at ht
  split_ifs at ht with hready
  obtain rfl := Option.some.inj ht
  have hnone : s.prog p = none := Option.isNone_iff_eq_none.1 hready.1
  obtain ⟨a, hactive, hinv, hsafe⟩ :=
    hS.call s.state acc p c h.inv (h.idle p hnone) hready.2
  have hself : Function.update acc p a p = a := Function.update_self ..
  refine h.goOn (p := p) (k := S.code p c) rfl ?_ (keeps_update acc a) ?_ ?_
  · exact hinv
  · rwa [hself]
  · rwa [hself]

theorem Holds.step (h : R.Holds i s acc) {p : π}
    (hcond : s.Meets (κ := κ) (ε := ε) R.cond (.step p))
    (ht : s.next S (.step p) = some t) : ∃ acc', R.Holds i t acc' ∧ R.Keeps p acc acc' := by
  simp only [Pool.next] at ht
  split at ht
  · rename_i l f k hprog
    have hcond' : R.cond p s.state l := by
      simpa only [Pool.Meets, Pool.action, hprog] using hcond
    obtain ⟨_, hnext⟩ := h.safe p _ hprog i s.state acc h.inv rfl (h.active p _ hprog) hcond'
    split at ht
    · rename_i b u hf
      obtain rfl := Option.some.inj ht
      obtain ⟨acc', hinv, hkeeps, hactive, hsafe⟩ := hnext b u hf
      exact h.goOn rfl hinv hkeeps hactive hsafe
    · cases ht
  · cases ht

theorem Holds.env (hS : R.Sound S i) (h : R.Holds i s acc) {e : ε}
    (ht : s.next S (.env e) = some t) :
    ∃ acc', R.Holds i t acc' ∧ ∀ q, acc' q = acc q ∨ R.idle (acc q) ∧ R.idle (acc' q) := by
  simp only [Pool.next, Option.map_eq_some_iff] at ht
  obtain ⟨u, hu, rfl⟩ := ht
  have hidle : ∀ p, (s.prog p).isSome = false → R.idle (acc p) := fun p hp =>
    h.idle p (Option.not_isSome_iff_eq_none.1 (Bool.eq_false_iff.1 hp))
  obtain ⟨acc', hinv, hkeeps⟩ := hS.env _ s.state acc e u h.inv hidle hu
  refine ⟨acc', ⟨hinv, fun q hq => ?_, fun q k hq => ?_, fun q k hq => ?_⟩, hkeeps⟩
  · rcases hkeeps q with heq | ⟨_, hidle⟩
    · rw [heq]
      exact h.idle q hq
    · exact hidle
  · rcases hkeeps q with heq | ⟨hidle, _⟩
    · rw [heq]
      exact h.active q k hq
    · exact absurd hidle (h.active q k hq)
  · rcases hkeeps q with heq | ⟨hidle, _⟩
    · rw [heq]
      exact h.safe q k hq
    · exact absurd hidle (h.active q k hq)

theorem Holds.next (hS : R.Sound S i) (h : R.Holds i s acc) {e : Turn π κ ε}
    (hmeets : s.Meets R.cond e) (ht : s.next S e = some t) :
    ∃ acc', R.Holds i t acc' ∧ R.Follows e acc acc' := by
  cases e with
  | call p c =>
    obtain ⟨acc', ht', hkeeps⟩ := h.call hS ht
    exact ⟨acc', ht', fun q hq => hkeeps q fun heq => hq (congrArg some heq.symm)⟩
  | step p =>
    obtain ⟨acc', ht', hkeeps⟩ := h.step hmeets ht
    exact ⟨acc', ht', fun q hq => hkeeps q fun heq => hq (congrArg some heq.symm)⟩
  | env e =>
    obtain ⟨acc', ht', hkeeps⟩ := h.env hS ht
    exact ⟨acc', ht', fun q _ => hkeeps q⟩

theorem Holds.init (hprog : s.prog = fun _ => none) (hinv : R.inv i s.state acc)
    (hidle : ∀ p, R.idle (acc p)) : R.Holds i s acc := by
  refine ⟨hinv, fun p _ => hidle p, fun p k hp => ?_, fun p k hp => ?_⟩
  · rw [hprog] at hp
    cases hp
  · rw [hprog] at hp
    cases hp

theorem Sound.holds {init : σ → Prop} (hS : R.Sound S i)
    (hinit : ∀ s, init s → ∃ acc, R.inv i s acc ∧ ∀ p, R.idle (acc p))
    (h : (Pool.machine S init).Reach (fun s e => s.Meets R.cond e) s) :
    ∃ acc, R.Holds i s acc := by
  refine Machine.Reach.invariant (I := fun s => ∃ acc, R.Holds i s acc) ?_ ?_ h
  · rintro s ⟨hs, hprog⟩
    obtain ⟨acc, hinv, hidle⟩ := hinit s.state hs
    exact ⟨acc, .init hprog hinv hidle⟩
  · rintro s e t ⟨acc, hs⟩ hmeets ht
    obtain ⟨acc', ht', _⟩ := hs.next hS hmeets ht
    exact ⟨acc', ht'⟩

theorem Holds.check (h : R.Holds i s acc) {p : π} {l : ℓ} (hact : s.action p = some l)
    (hcond : R.cond p s.state l) : R.check p (acc p) s.state l := by
  unfold Pool.action at hact
  split at hact
  · rename_i l' f k hprog
    obtain rfl := Option.some.inj hact
    exact (h.safe p _ hprog i s.state acc h.inv rfl (h.active p _ hprog) hcond).1
  · cases hact

end Rules

end Xv6.Lib
