import Mathlib

/-!
# Overwriting a part of a list

What a write into a file does to its contents: from the offset on, the old
elements are replaced, and the list grows if the new ones reach beyond its end.
-/

namespace Xv6.Lib

variable {α : Type} {l xs ys : List α} {off k : Nat}

def overwrite (l : List α) (off : Nat) (xs : List α) : List α :=
  l.take off ++ xs ++ l.drop (off + xs.length)

theorem overwrite_nil : overwrite l off [] = l := by
  simp [overwrite]

theorem overwrite_end : overwrite l l.length xs = l ++ xs := by
  simp [overwrite]

theorem length_overwrite (h : off ≤ l.length) :
    (overwrite l off xs).length = max l.length (off + xs.length) := by
  simp only [overwrite, List.length_append, List.length_take, List.length_drop]
  omega

theorem getElem?_overwrite_of_lt (h : off ≤ l.length) (hk : k < off) :
    (overwrite l off xs)[k]? = l[k]? := by
  have hlen : (l.take off).length = off := List.length_take_of_le h
  rw [overwrite, List.append_assoc, List.getElem?_append_left (by omega),
    List.getElem?_take_of_lt hk]

theorem getElem?_overwrite (h : off ≤ l.length) (hk : k < xs.length) :
    (overwrite l off xs)[off + k]? = xs[k]? := by
  have hlen : (l.take off).length = off := List.length_take_of_le h
  rw [overwrite, List.append_assoc, List.getElem?_append_right (by omega), hlen,
    Nat.add_sub_cancel_left, List.getElem?_append_left hk]

theorem overwrite_overwrite (h : off ≤ l.length) :
    overwrite (overwrite l off xs) (off + xs.length) ys = overwrite l off (xs ++ ys) := by
  have hlen : (l.take off ++ xs).length = off + xs.length := by
    rw [List.length_append, List.length_take_of_le h]
  have htake : (overwrite l off xs).take (off + xs.length) = l.take off ++ xs := by
    rw [overwrite, List.take_left' hlen]
  have hdrop : (overwrite l off xs).drop (off + xs.length + ys.length) =
      l.drop (off + (xs ++ ys).length) := by
    rw [← List.drop_drop, overwrite, List.drop_left' hlen, List.drop_drop, List.length_append,
      Nat.add_assoc]
  calc overwrite (overwrite l off xs) (off + xs.length) ys
      = l.take off ++ xs ++ ys ++ l.drop (off + (xs ++ ys).length) := by
        rw [overwrite, htake, hdrop]
    _ = overwrite l off (xs ++ ys) := by
        rw [overwrite, List.append_assoc (l.take off)]

end Xv6.Lib
