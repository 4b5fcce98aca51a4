import Mathlib

/-!
# Counting the places that hold a value

A reference count is right when it equals the number of places that refer to the
object.  `tally f b` is that number for places `α` with contents `f`, and
`tally_update` says how one assignment changes it.
-/

namespace Xv6.Lib

variable {α β : Type} [Fintype α] [DecidableEq β]

@[irreducible]
def tally (f : α → β) (b : β) : Nat := (Finset.univ.filter fun a => f a = b).card

theorem tally_pos_iff {f : α → β} {b : β} : 0 < tally f b ↔ ∃ a, f a = b := by
  simp [tally, Finset.card_pos, Finset.filter_nonempty_iff]

theorem tally_eq_zero_iff {f : α → β} {b : β} : tally f b = 0 ↔ ∀ a, f a ≠ b := by
  simp [tally, Finset.filter_eq_empty_iff]

theorem tally_le_card (f : α → β) (b : β) : tally f b ≤ Fintype.card α := by
  unfold tally
  exact Finset.card_filter_le _ _

variable [DecidableEq α]

theorem tally_eq_add (f : α → β) (a : α) (b : β) :
    tally f b = ((Finset.univ.erase a).filter fun x => f x = b).card +
      if f a = b then 1 else 0 := by
  unfold tally
  rw [← Finset.insert_erase (Finset.mem_univ a), Finset.filter_insert]
  split_ifs with h
  · rw [Finset.card_insert_of_notMem (by simp)]
    simp
  · simp

theorem tally_update (f : α → β) (a : α) (v b : β) :
    tally (Function.update f a v) b + (if f a = b then 1 else 0) =
      tally f b + if v = b then 1 else 0 := by
  rw [tally_eq_add (Function.update f a v) a b, tally_eq_add f a b, Function.update_self]
  have hrest : ((Finset.univ.erase a).filter fun x => Function.update f a v x = b) =
      (Finset.univ.erase a).filter fun x => f x = b := by
    apply Finset.filter_congr
    intro x hx
    rw [Function.update_of_ne (Finset.ne_of_mem_erase hx)]
  rw [hrest]
  omega

end Xv6.Lib
