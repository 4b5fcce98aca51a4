import Mathlib

/-!
# Pointers that own what they point to

Things are numbers, and zero is no pointer.  The pointers of a table own what they point to
if no two of them point to the same thing and only things in use are pointed to; the table is
complete if everything in use has its pointer.
-/

namespace Xv6.Lib

variable {κ : Type}

/-- Pointers that are not null point to different things, which are in use. -/
structure Owns (ptr : κ → Nat) (used : Nat → Prop) : Prop where
  inj : ∀ k l, ptr k ≠ 0 → ptr k = ptr l → k = l
  used : ∀ k, ptr k ≠ 0 → used (ptr k)

def Covers (ptr : κ → Nat) (used : Nat → Prop) : Prop := ∀ b, used b → ∃ k, ptr k = b

variable {ptr : κ → Nat} {used used' : Nat → Prop}

theorem Owns.mono (h : Owns ptr used) (hsub : ∀ b, used b → used' b) : Owns ptr used' :=
  ⟨h.inj, fun k hk => hsub _ (h.used k hk)⟩

theorem Owns.ne (h : Owns ptr used) {b : Nat} (hb : ¬ used b) (hpos : b ≠ 0) (k : κ) :
    ptr k ≠ b := by
  rintro rfl
  exact hb (h.used k hpos)

variable [DecidableEq κ]

theorem Owns.alloc (h : Owns ptr used) {b : Nat} (k : κ) (hb : ¬ used b)
    (hsub : ∀ c, used c → used' c) (hnew : used' b) : Owns (Function.update ptr k b) used' := by
  refine ⟨fun l l' hne heq => ?_, fun l hl => ?_⟩
  · by_cases hlk : l = k <;> by_cases hlk' : l' = k
    · rw [hlk, hlk']
    · rw [hlk, Function.update_self] at hne
      rw [hlk, Function.update_self, Function.update_of_ne hlk'] at heq
      exact absurd heq.symm (h.ne hb hne l')
    · rw [Function.update_of_ne hlk] at hne
      rw [hlk', Function.update_self, Function.update_of_ne hlk] at heq
      exact absurd heq (h.ne hb (heq ▸ hne) l)
    · rw [Function.update_of_ne hlk] at hne
      rw [Function.update_of_ne hlk, Function.update_of_ne hlk'] at heq
      exact h.inj l l' hne heq
  · by_cases hlk : l = k
    · rw [hlk, Function.update_self]
      exact hnew
    · rw [Function.update_of_ne hlk] at hl ⊢
      exact hsub _ (h.used l hl)

theorem Covers.alloc (h : Covers ptr used) {b : Nat} {k : κ} (hk : ptr k = 0)
    (hsub : ∀ c, used' c → c = b ∨ (c ≠ 0 ∧ used c)) :
    Covers (Function.update ptr k b) used' := by
  intro c hc
  rcases hsub c hc with rfl | ⟨hpos, hold⟩
  · exact ⟨k, Function.update_self _ _ _⟩
  · obtain ⟨l, hl⟩ := h c hold
    refine ⟨l, ?_⟩
    rw [Function.update_of_ne, hl]
    rintro rfl
    exact hpos (hl.symm.trans hk)

end Xv6.Lib
