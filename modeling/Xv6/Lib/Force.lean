import Xv6.Lib.Pool

/-!
# Running a pool on values

A run that is computed by rewriting carries expressions along where a machine would store
values, and they grow with every step.  `force a k` is `k a`, computed with `a` as a value; a
table does this for a part of a function.  With the state forced now and then, a run is
computed in time that is linear in its length.
-/

namespace Xv6.Lib

/-- Data that can be turned into a value before it is passed on. -/
class Forced (α : Type) where
  force : {γ : Type 1} → α → (α → γ) → γ
  force_eq : ∀ {γ : Type 1} (a : α) (k : α → γ), force a k = k a

attribute [simp] Forced.force_eq

open Forced (force)

variable {α : Type} {γ : Type 1}

instance : Forced Nat where
  force n k := match n with
    | 0 => k 0
    | m + 1 => k (Nat.succ m)
  force_eq n k := by cases n <;> rfl

instance : Forced Bool where
  force b k := match b with
    | false => k false
    | true => k true
  force_eq b k := by cases b <;> rfl

instance : Forced Int where
  force n k := match n with
    | .ofNat m => force m fun m => k (.ofNat m)
    | .negSucc m => force m fun m => k (.negSucc m)
  force_eq n k := by cases n <;> simp

instance {N : Nat} : Forced (Fin N) where
  force i k := match i with
    | ⟨0, h⟩ => k ⟨0, h⟩
    | ⟨m + 1, h⟩ => k ⟨Nat.succ m, h⟩
  force_eq i k := by
    obtain ⟨_ | m, h⟩ := i
    · rfl
    · rfl

instance [Forced α] : Forced (Option α) where
  force x k := match x with
    | none => k none
    | some a => force a fun a => k (some a)
  force_eq x k := by cases x <;> simp

def forceList [Forced α] : List α → (List α → γ) → γ
  | [], k => k []
  | a :: as, k => force a fun a => forceList as fun as => k (a :: as)

instance [Forced α] : Forced (List α) where
  force := forceList
  force_eq l k := by
    induction l generalizing k with
    | nil => rfl
    | cons a as ih => simp [forceList, ih]

def table [Forced α] (N : Nat) (f : Nat → α) (k : (Nat → α) → γ) : γ :=
  force ((List.range N).map f) fun l => k fun n => (l[n]?).getD (f n)

@[simp] theorem table_eq [Forced α] (N : Nat) (f : Nat → α) (k : (Nat → α) → γ) :
    table N f k = k f := by
  have hsame : (fun n => (((List.range N).map f)[n]?).getD (f n)) = f := by
    funext n
    by_cases hn : n < N
    · simp [hn]
    · simp [Nat.not_lt.1 hn]
  rw [table, Forced.force_eq, hsame]

def tableFin [Forced α] {M : Nat} (N : Nat) (f : Fin M → α) (k : (Fin M → α) → γ) : γ :=
  force (((List.finRange M).take N).map f) fun l => k fun i => (l[i.val]?).getD (f i)

@[simp] theorem tableFin_eq [Forced α] {M : Nat} (N : Nat) (f : Fin M → α)
    (k : (Fin M → α) → γ) : tableFin N f k = k f := by
  have hsame : (fun i : Fin M => ((((List.finRange M).take N).map f)[i.val]?).getD (f i)) = f := by
    funext i
    by_cases hi : i.val < N
    · simp [hi]
    · simp [hi]
  rw [tableFin, Forced.force_eq, hsame]

/-! ## Runs -/

/-- The run of a program, with the state forced after `n` actions, and then after every eighth
one. -/
def Prog.evaluate {σ ℓ α : Type} [Forced σ] : Nat → Prog σ ℓ α → σ → Res (α × σ)
  | _, .ret a, s => .ok (a, s)
  | n, .act _ f k, s =>
    match f s with
    | .ok (b, t) =>
      match n with
      | 0 => (force t fun u => ULift.up.{1} ((k b).evaluate 7 u)).down
      | n + 1 => (k b).evaluate n t
    | .halt h => .halt h

theorem Prog.evaluate_eq {σ ℓ α : Type} [Forced σ] (n : Nat) (m : Prog σ ℓ α) (s : σ) :
    m.evaluate n s = m.run s := by
  induction m generalizing n s with
  | ret a => rfl
  | act l f k ih =>
    simp only [evaluate, run]
    cases hf : f s with
    | halt h => rfl
    | ok r =>
      obtain ⟨b, t⟩ := r
      cases n with
      | zero =>
        simp only [Forced.force_eq]
        exact ih b 7 t
      | succ n => exact ih b n t

namespace Pool

variable {π κ ε σ ℓ ρ : Type} [DecidableEq π] [Forced σ]

/-- The pool after a list of turns that meet the condition, with the state forced after `n`
turns, and then after every eighth one. -/
def evaluate (S : System π κ ε σ ℓ ρ) (C : Pool π σ ℓ ρ → Turn π κ ε → Prop)
    [∀ s e, Decidable (C s e)] :
    Nat → Pool π σ ℓ ρ → List (Turn π κ ε) → Option (Pool π σ ℓ ρ)
  | _, s, [] => some s
  | n, s, e :: es =>
    if C s e then
      (s.next S e).bind fun t =>
        match n with
        | 0 => force t.state fun u => evaluate S C 7 ⟨u, t.prog⟩ es
        | n + 1 => evaluate S C n t es
    else none

theorem evaluate_eq (S : System π κ ε σ ℓ ρ) (C : Pool π σ ℓ ρ → Turn π κ ε → Prop)
    [∀ s e, Decidable (C s e)] (n : Nat) (s : Pool π σ ℓ ρ) (es : List (Turn π κ ε)) :
    evaluate S C n s es =
      Machine.runList (fun s e => if C s e then s.next S e else none) s es := by
  induction es generalizing n s with
  | nil => rw [evaluate, Machine.runList]
  | cons e es ih =>
    simp only [evaluate, Machine.runList]
    split_ifs
    · congr 1
      funext t
      cases n with
      | zero =>
        simp only [Forced.force_eq]
        exact ih 7 t
      | succ n => exact ih n t
    · rfl

end Pool

end Xv6.Lib
