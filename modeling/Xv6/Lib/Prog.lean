import Mathlib

/-!
# Programs of atomic actions

A program is a tree of atomic actions on a state.  An action can go on, or halt
the program with a panic or by waiting for something that another program would
have to do.  `exec n` runs at most `n` actions, so a crash at any moment is a
choice of `n`; `wp` is the calculus for what holds at every moment, at a halt
and at the end.
-/

namespace Xv6.Lib

inductive Halt
  | panic (msg : String)
  | block
  deriving DecidableEq

inductive Res (α : Type)
  | ok (a : α)
  | halt (h : Halt)

def Res.toOption {α : Type} : Res α → Option α
  | .ok a => some a
  | .halt _ => none

theorem Res.toOption_eq_some {α : Type} {r : Res α} {a : α} : r.toOption = some a ↔ r = .ok a := by
  cases r <;> simp [Res.toOption]

def Res.why {α : Type} : Res α → Option Halt
  | .ok _ => none
  | .halt h => some h

theorem Res.halt_of_why {α : Type} {r : Res α} {h : Halt} (hr : r.why = some h) :
    r = .halt h := by
  cases r with
  | ok a => cases hr
  | halt x => rw [Option.some.inj hr]

def Res.All {α : Type} (P : α → Prop) : Res α → Prop
  | .ok a => P a
  | .halt _ => True

instance {α : Type} (P : α → Prop) [DecidablePred P] : (r : Res α) → Decidable (r.All P)
  | .ok a => inferInstanceAs (Decidable (P a))
  | .halt _ => inferInstanceAs (Decidable True)

/-- Programs over the state `σ` with actions labelled by `ℓ`. -/
inductive Prog (σ ℓ α : Type) : Type 1
  | ret (a : α) : Prog σ ℓ α
  | act {β : Type} (l : ℓ) (f : σ → Res (β × σ)) (k : β → Prog σ ℓ α) : Prog σ ℓ α

variable {σ ℓ α β : Type}

namespace Prog

def bind : Prog σ ℓ α → (α → Prog σ ℓ β) → Prog σ ℓ β
  | .ret a, g => g a
  | .act l f k, g => .act l f fun b => (k b).bind g

instance : Monad (Prog σ ℓ) where
  pure := .ret
  bind := bind

theorem bind_assoc {γ : Type} (p : Prog σ ℓ α) (f : α → Prog σ ℓ β) (g : β → Prog σ ℓ γ) :
    (p.bind f).bind g = p.bind fun a => (f a).bind g := by
  induction p with
  | ret a => rfl
  | act l f k ih => simp only [bind, ih]

def atomic (l : ℓ) (f : σ → Res (α × σ)) : Prog σ ℓ α := .act l f .ret

def panic (l : ℓ) (msg : String) : Prog σ ℓ α := atomic l fun _ => .halt (.panic msg)

def when (c : Prop) [Decidable c] (m : Prog σ ℓ Unit) : Prog σ ℓ Unit := if c then m else .ret ()

def loop (f : Nat → Prog σ ℓ Unit) : Nat → Nat → Prog σ ℓ Unit
  | _, 0 => .ret ()
  | i, m + 1 => (f i).bind fun _ => loop f (i + 1) m

/-- The loop `for (i = 0; i < n; i++)`. -/
def forRange (n : Nat) (f : Nat → Prog σ ℓ Unit) : Prog σ ℓ Unit := loop f 0 n

def forList : List α → (α → Prog σ ℓ Unit) → Prog σ ℓ Unit
  | [], _ => .ret ()
  | a :: as, f => (f a).bind fun _ => forList as f

def lift {τ : Type} (get : τ → σ) (set : σ → τ → τ) : Prog σ ℓ α → Prog τ ℓ α
  | .ret a => .ret a
  | .act l f k => .act l
      (fun s => match f (get s) with
        | .ok (b, t) => .ok (b, set t s)
        | .halt h => .halt h)
      fun b => (k b).lift get set

/-- Run at most `n` actions.  The result is there if the program ended, with the
number of actions that were left over. -/
def exec : Nat → Prog σ ℓ α → σ → σ × Option (α × Nat)
  | n, .ret a, s => (s, some (a, n))
  | 0, .act _ _ _, s => (s, none)
  | n + 1, .act _ f k, s =>
    match f s with
    | .ok (b, t) => exec n (k b) t
    | .halt _ => (s, none)

def run : Prog σ ℓ α → σ → Res (α × σ)
  | .ret a, s => .ok (a, s)
  | .act _ f k, s =>
    match f s with
    | .ok (b, t) => run (k b) t
    | .halt h => .halt h

/-- `C` holds before every action, `E` when an action halts, `Q` at the end. -/
def wp (C : σ → Prop) (E : Halt → σ → Prop) (Q : α → σ → Prop) : Prog σ ℓ α → σ → Prop
  | .ret a, s => Q a s
  | .act _ f k, s => C s ∧
      match f s with
      | .ok (b, t) => wp C E Q (k b) t
      | .halt h => E h s

abbrev post (Q : α → σ → Prop) (p : Prog σ ℓ α) (s : σ) : Prop :=
  p.wp (fun _ => True) (fun _ _ => True) Q s

abbrev ends (Q : α → σ → Prop) (p : Prog σ ℓ α) (s : σ) : Prop :=
  p.wp (fun _ => True) (fun _ _ => False) Q s

variable {C C' : σ → Prop} {E E' : Halt → σ → Prop} {Q Q' : α → σ → Prop}

theorem wp_act {γ : Type} {l : ℓ} {f : σ → Res (γ × σ)} {k : γ → Prog σ ℓ α} {s : σ} :
    (act l f k).wp C E Q s ↔ C s ∧
      (∀ b t, f s = .ok (b, t) → (k b).wp C E Q t) ∧ ∀ x, f s = .halt x → E x s := by
  simp only [wp]
  cases hf : f s with
  | ok r =>
    obtain ⟨b, t⟩ := r
    simp
  | halt x => simp

theorem wp_mono {p : Prog σ ℓ α} {s : σ} (h : p.wp C E Q s) (hC : ∀ s, C s → C' s)
    (hE : ∀ x s, E x s → E' x s) (hQ : ∀ a s, Q a s → Q' a s) : p.wp C' E' Q' s := by
  induction p generalizing s with
  | ret a => exact hQ a s h
  | act l f k ih =>
    obtain ⟨hc, hok, hhalt⟩ := wp_act.1 h
    exact wp_act.2 ⟨hC s hc, fun b t hf => ih b (hok b t hf), fun x hf => hE x s (hhalt x hf)⟩

theorem wp_imp {p : Prog σ ℓ α} {s : σ} (h : p.wp C E Q s) (hQ : ∀ a s, Q a s → Q' a s) :
    p.wp C E Q' s :=
  wp_mono h (fun _ hc => hc) (fun _ _ he => he) hQ

theorem wp_bind {p : Prog σ ℓ α} {g : α → Prog σ ℓ β} {Q : β → σ → Prop} {s : σ}
    (h : p.wp C E (fun a t => (g a).wp C E Q t) s) : (p.bind g).wp C E Q s := by
  induction p generalizing s with
  | ret a => exact h
  | act l f k ih =>
    obtain ⟨hc, hok, hhalt⟩ := wp_act.1 h
    exact wp_act.2 ⟨hc, fun b t hf => ih b (hok b t hf), hhalt⟩

theorem wp_seq {p : Prog σ ℓ α} {g : α → Prog σ ℓ β} {R : α → σ → Prop} {Q : β → σ → Prop}
    {s : σ} (h : p.wp C E R s) (hg : ∀ a t, R a t → (g a).wp C E Q t) :
    (p.bind g).wp C E Q s :=
  wp_bind (wp_imp h hg)

theorem wp_atomic {l : ℓ} {f : σ → Res (α × σ)} {s : σ} (hC : C s)
    (hok : ∀ a t, f s = .ok (a, t) → Q a t) (hhalt : ∀ x, f s = .halt x → E x s) :
    (atomic l f).wp C E Q s :=
  wp_act.2 ⟨hC, hok, hhalt⟩

theorem wp_loop {f : Nat → Prog σ ℓ Unit} {I : Nat → σ → Prop} {i m : Nat} {s : σ}
    (hs : I i s) (hbody : ∀ j t, i ≤ j → j < i + m → I j t →
      (f j).wp C E (fun _ => I (j + 1)) t) :
    (loop f i m).wp C E (fun _ => I (i + m)) s := by
  induction m generalizing i s with
  | zero => exact hs
  | succ m ih =>
    apply wp_seq (hbody i s (Nat.le_refl i) (by omega) hs)
    intro _ t ht
    have hrest := ih ht fun j u hij hjm => hbody j u (by omega) (by omega)
    have hend : i + 1 + m = i + (m + 1) := by omega
    rwa [hend] at hrest

theorem wp_forRange {f : Nat → Prog σ ℓ Unit} {I : Nat → σ → Prop} {n : Nat} {s : σ}
    (hs : I 0 s) (hbody : ∀ j t, j < n → I j t → (f j).wp C E (fun _ => I (j + 1)) t) :
    (forRange n f).wp C E (fun _ => I n) s := by
  have hloop := wp_loop (i := 0) (m := n) hs fun j t _ hj => hbody j t (by omega)
  rwa [Nat.zero_add] at hloop

theorem wp_forList {f : α → Prog σ ℓ Unit} {I : List α → σ → Prop} {as : List α} {s : σ}
    (hs : I as s) (hbody : ∀ a rest t, a ∈ as → I (a :: rest) t →
      (f a).wp C E (fun _ => I rest) t) :
    (forList as f).wp C E (fun _ => I []) s := by
  induction as generalizing s with
  | nil => exact hs
  | cons a as ih =>
    apply wp_seq (hbody a as s List.mem_cons_self hs)
    intro _ t ht
    exact ih ht fun b rest u hb => hbody b rest u (List.mem_cons_of_mem a hb)

theorem wp_exec {p : Prog σ ℓ α} {s : σ} (h : p.wp C (fun _ => C) Q s) (n : Nat) :
    ((p.exec n s).2 = none → C (p.exec n s).1) ∧
      ∀ a m, (p.exec n s).2 = some (a, m) → Q a (p.exec n s).1 := by
  induction p generalizing n s with
  | ret a =>
    refine ⟨by simp [exec], fun b m hb => ?_⟩
    obtain ⟨rfl, _⟩ : a = b ∧ n = m := by simpa [exec] using hb
    simpa [exec, wp] using h
  | act l f k ih =>
    obtain ⟨hc, hok, hhalt⟩ := wp_act.1 h
    cases n with
    | zero => exact ⟨fun _ => hc, by simp [exec]⟩
    | succ n =>
      simp only [exec]
      cases hf : f s with
      | ok r => exact ih r.1 (hok r.1 r.2 hf) n
      | halt x => exact ⟨fun _ => hhalt x hf, by simp⟩

theorem post_trivial {p : Prog σ ℓ α} {s : σ} : p.post (fun _ _ => True) s := by
  induction p generalizing s with
  | ret a => exact trivial
  | act l f k ih => exact wp_act.2 ⟨trivial, fun b t _ => ih b, fun _ _ => trivial⟩

theorem wp_and_post {p : Prog σ ℓ α} {s : σ} (h : p.wp C E Q s) (h' : p.post Q' s) :
    p.wp C E (fun a t => Q a t ∧ Q' a t) s := by
  induction p generalizing s with
  | ret a => exact ⟨h, h'⟩
  | act l f k ih =>
    obtain ⟨hC, hok, hhalt⟩ := wp_act.1 h
    obtain ⟨_, hok', _⟩ := wp_act.1 h'
    exact wp_act.2 ⟨hC, fun b t hf => ih b (hok b t hf) (hok' b t hf), hhalt⟩

theorem post_and {p : Prog σ ℓ α} {s : σ} (h : p.post Q s) (h' : p.post Q' s) :
    p.post (fun a t => Q a t ∧ Q' a t) s :=
  wp_and_post h h'

theorem wp_run {p : Prog σ ℓ α} {s : σ} (h : p.wp C E Q s) :
    (∀ a t, p.run s = .ok (a, t) → Q a t) ∧ ∀ x, p.run s = .halt x → ∃ t, E x t := by
  induction p generalizing s with
  | ret a =>
    constructor
    · intro b t hrun
      obtain ⟨rfl, rfl⟩ : a = b ∧ s = t := by simpa [run] using hrun
      exact h
    · simp [run]
  | act l f k ih =>
    obtain ⟨_, hok, hhalt⟩ := wp_act.1 h
    simp only [run]
    cases hf : f s with
    | ok r => exact ih r.1 (hok r.1 r.2 hf)
    | halt x =>
      refine ⟨by simp, fun y hy => ⟨s, ?_⟩⟩
      obtain rfl : x = y := by simpa using hy
      exact hhalt x hf

theorem ends_run {p : Prog σ ℓ α} {s : σ} (h : p.ends Q s) :
    ∃ a t, p.run s = .ok (a, t) ∧ Q a t := by
  obtain ⟨hok, hhalt⟩ := wp_run h
  cases hrun : p.run s with
  | ok r =>
    obtain ⟨a, t⟩ := r
    exact ⟨a, t, rfl, hok a t hrun⟩
  | halt x =>
    obtain ⟨_, hfalse⟩ := hhalt x hrun
    exact hfalse.elim

theorem ends_run_iff {p : Prog σ ℓ α} {s : σ} {P : α → σ → Prop} {c : Prop} (h : p.ends Q s)
    (hiff : ∀ a t, Q a t → (P a t ↔ c)) : (∃ a t, p.run s = .ok (a, t) ∧ P a t) ↔ c := by
  obtain ⟨a, t, hrun, hQ⟩ := ends_run h
  rw [← hiff a t hQ]
  constructor
  · rintro ⟨b, u, hrun', hP⟩
    cases hrun.symm.trans hrun'
    exact hP
  · exact fun hP => ⟨a, t, hrun, hP⟩

theorem run_bind_of_ok {p : Prog σ ℓ α} {g : α → Prog σ ℓ β} {s t : σ} {a : α}
    (h : p.run s = .ok (a, t)) : (p.bind g).run s = (g a).run t := by
  induction p generalizing s with
  | ret b =>
    obtain ⟨rfl, rfl⟩ : b = a ∧ s = t := by simpa [run] using h
    rfl
  | act l f k ih =>
    simp only [run, bind] at h ⊢
    cases hf : f s with
    | ok r =>
      rw [hf] at h
      exact ih r.1 h
    | halt x => simp [hf] at h

theorem exists_of_run_bind {p : Prog σ ℓ α} {g : α → Prog σ ℓ β} {s : σ} {r : β × σ}
    (h : (p.bind g).run s = .ok r) : ∃ a t, p.run s = .ok (a, t) ∧ (g a).run t = .ok r := by
  induction p generalizing s with
  | ret b => exact ⟨b, s, rfl, h⟩
  | act l f k ih =>
    simp only [run, bind] at h ⊢
    cases hf : f s with
    | ok x =>
      rw [hf] at h
      exact ih x.1 h
    | halt x => simp [hf] at h

theorem run_lift_of_ok {τ : Type} {get : τ → σ} {set : σ → τ → τ} (hget : ∀ t s, get (set t s) = t)
    (hset : ∀ t t' s, set t' (set t s) = set t' s) (hself : ∀ s, set (get s) s = s)
    {p : Prog σ ℓ α} {s : τ} {t : σ} {a : α} (h : p.run (get s) = .ok (a, t)) :
    (p.lift get set).run s = .ok (a, set t s) := by
  induction p generalizing s with
  | ret b =>
    obtain ⟨rfl, rfl⟩ : b = a ∧ get s = t := by simpa [run] using h
    simp [lift, run, hself]
  | act l f k ih =>
    simp only [run, lift] at h ⊢
    cases hf : f (get s) with
    | ok r =>
      rw [hf] at h
      have hrest := ih r.1 (s := set r.2 s) (by rw [hget]; exact h)
      rwa [hset] at hrest
    | halt x => simp [hf] at h

theorem wp_and_run {p : Prog σ ℓ α} {s : σ} (h : p.wp C E Q s) :
    p.wp C E (fun a t => Q a t ∧ p.run s = .ok (a, t)) s := by
  induction p generalizing s with
  | ret a => exact ⟨h, rfl⟩
  | act l f k ih =>
    obtain ⟨hc, hok, hhalt⟩ := wp_act.1 h
    refine wp_act.2 ⟨hc, fun b t hf => ?_, hhalt⟩
    have hk := ih b (hok b t hf)
    simpa only [run, hf] using hk

theorem exists_exec_of_wp {p : Prog σ ℓ α} {s : σ} (h : p.wp C (fun _ _ => False) Q s) :
    ∃ n a t, p.exec n s = (t, some (a, 0)) ∧ Q a t := by
  induction p generalizing s with
  | ret a => exact ⟨0, a, s, by simp [exec], h⟩
  | act l f k ih =>
    obtain ⟨_, hok, hhalt⟩ := wp_act.1 h
    cases hf : f s with
    | ok r =>
      obtain ⟨n, a, t, hexec, hQ⟩ := ih r.1 (hok r.1 r.2 hf)
      exact ⟨n + 1, a, t, by simpa only [exec, hf] using hexec, hQ⟩
    | halt x => exact absurd (hhalt x hf) id

end Prog

end Xv6.Lib
