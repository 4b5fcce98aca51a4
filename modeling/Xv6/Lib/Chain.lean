import Mathlib

/-!
# Null-terminated chains of link fields

The nodes of an intrusive singly linked list are the values of an index type
and their links are a function.  `IsChain next o xs` says that following the
links from `o` visits exactly the nodes of `xs`, in order, and then meets the
null link.  The two writes that queue code performs are relinking the final
node to a fresh one and advancing past the first node.
-/

namespace Xv6.Lib

variable {ι : Type}

/-- Following `next` from `o` visits exactly `xs` and then ends in null. -/
def IsChain (next : ι → Option ι) : Option ι → List ι → Prop
  | o, [] => o = none
  | o, x :: xs => o = some x ∧ IsChain next (next x) xs

namespace IsChain

variable {next next' : ι → Option ι} {o : Option ι} {xs ys : List ι}

theorem congr (h : IsChain next o xs) (heq : ∀ x ∈ xs, next' x = next x) :
    IsChain next' o xs := by
  induction xs generalizing o with
  | nil => exact h
  | cons x xs ih =>
    refine ⟨h.1, ?_⟩
    rw [heq x (by simp)]
    exact ih h.2 fun y hy => heq y (by simp [hy])

theorem eq_nil_iff (h : IsChain next o xs) : xs = [] ↔ o = none := by
  cases xs with
  | nil => simpa [IsChain] using h
  | cons x xs => simp [h.1]

theorem head_eq (h : IsChain next o xs) : xs.head? = o := by
  cases xs with
  | nil => exact h.symm
  | cons x xs => exact h.1.symm

theorem snoc [DecidableEq ι] {l x : ι} (h : IsChain next o xs)
    (hlast : xs.getLast? = some l) (hnodup : xs.Nodup) (hfresh : x ∉ xs)
    (hl : next' l = some x) (hx : next' x = none)
    (heq : ∀ y ∈ xs, y ≠ l → next' y = next y) : IsChain next' o (xs ++ [x]) := by
  induction xs generalizing o with
  | nil => simp at hlast
  | cons y ys ih =>
    refine ⟨h.1, ?_⟩
    obtain ⟨hy, hys⟩ := List.nodup_cons.1 hnodup
    cases ys with
    | nil =>
      obtain rfl : y = l := by simpa using hlast
      exact ⟨hl, hx⟩
    | cons z zs =>
      have hlast' : (z :: zs).getLast? = some l := by simpa using hlast
      have hyl : y ≠ l := by
        rintro rfl
        exact hy (List.mem_of_getLast? hlast')
      rw [heq y (by simp) hyl]
      exact ih h.2 hlast' hys (fun hm => hfresh (by simp [hm]))
        fun w hw => heq w (by simp [hw])

end IsChain

end Xv6.Lib
