import Mathlib

/-!
# `memmove`

The kernel's `memmove` and that of the user library, on a flat memory.  The kernel's copies
downwards where the destination begins inside the source; the other one always copies upwards,
and there it repeats the first bytes.
-/

namespace Xv6.Util

abbrev Flat : Type := Nat → UInt8

def copyUp : Nat → Flat → Nat → Nat → Flat
  | 0, mem, _, _ => mem
  | n + 1, mem, d, s =>
    copyUp n (Function.update mem d (mem s)) ((d + 1) % 2 ^ 32) ((s + 1) % 2 ^ 32)

def copyDown : Nat → Flat → Nat → Nat → Flat
  | 0, mem, _, _ => mem
  | n + 1, mem, d, s => copyDown n (Function.update mem (d - 1) (mem (s - 1))) (d - 1) (s - 1)

def memmove (mem : Flat) (dst src n : Nat) : Flat :=
  if src < dst ∧ dst < (src + n) % 2 ^ 32 then
    copyDown n mem ((dst + n) % 2 ^ 32) ((src + n) % 2 ^ 32)
  else copyUp n mem dst src

def userMemmove (mem : Flat) (dst src : Nat) (n : Int) : Flat := copyUp n.toNat mem dst src

section Copy

variable {n d s : Nat}

theorem copyUp_of_le (mem : Flat) (hds : d ≤ s) (hs : s + n < 2 ^ 32) (a : Nat) :
    copyUp n mem d s a = if d ≤ a ∧ a < d + n then mem (s + (a - d)) else mem a := by
  induction n generalizing mem d s with
  | zero => rw [copyUp, if_neg (by omega)]
  | succ n ih =>
    rw [copyUp, Nat.mod_eq_of_lt (by omega), Nat.mod_eq_of_lt (by omega),
      ih _ (by omega) (by omega)]
    by_cases ha : a = d
    · rw [if_neg (by omega), if_pos (by omega), ha, Function.update_self, Nat.sub_self, Nat.add_zero]
    · by_cases hin : d + 1 ≤ a ∧ a < d + 1 + n
      · rw [if_pos hin, if_pos (by omega), Function.update_of_ne (by omega),
          show s + 1 + (a - (d + 1)) = s + (a - d) by omega]
      · rw [if_neg hin, if_neg (by omega), Function.update_of_ne ha]

theorem copyUp_of_lt (mem : Flat) (hsd : s < d) (hd : d + n < 2 ^ 32) (a : Nat) :
    copyUp n mem d s a = if d ≤ a ∧ a < d + n then mem (s + (a - d) % (d - s)) else mem a := by
  induction n generalizing mem d s with
  | zero => rw [copyUp, if_neg (by omega)]
  | succ n ih =>
    rw [copyUp, Nat.mod_eq_of_lt (by omega), Nat.mod_eq_of_lt (by omega),
      ih _ (by omega) (by omega), Nat.add_sub_add_right]
    by_cases ha : a = d
    · rw [if_neg (by omega), if_pos (by omega), ha, Function.update_self, Nat.sub_self,
        Nat.zero_mod, Nat.add_zero]
    · by_cases hin : d + 1 ≤ a ∧ a < d + 1 + n
      · obtain ⟨i, rfl⟩ : ∃ i, a = d + 1 + i := ⟨a - (d + 1), by omega⟩
        rw [if_pos hin, if_pos (by omega), Nat.add_sub_cancel_left,
          show d + 1 + i - d = i + 1 by omega, Nat.add_mod i 1]
        have hlt := Nat.mod_lt i (Nat.sub_pos_of_lt hsd)
        -- the byte at `d` is the first one again
        by_cases hwrap : i % (d - s) = d - s - 1
        · rw [show s + 1 + i % (d - s) = d by omega, Function.update_self]
          by_cases hone : d - s = 1
          · rw [hone, Nat.mod_one, Nat.add_zero]
          · rw [Nat.mod_eq_of_lt (by omega : 1 < d - s), hwrap,
              show d - s - 1 + 1 = d - s by omega, Nat.mod_self, Nat.add_zero]
        · rw [Function.update_of_ne (by omega), Nat.mod_eq_of_lt (by omega : 1 < d - s),
            Nat.mod_eq_of_lt (by omega : i % (d - s) + 1 < d - s), Nat.add_right_comm, Nat.add_assoc]
      · rw [if_neg hin, if_neg (by omega), Function.update_of_ne ha]

theorem copyDown_apply (mem : Flat) (hsd : s ≤ d) (a : Nat) :
    copyDown n mem (d + n) (s + n) a =
      if d ≤ a ∧ a < d + n then mem (s + (a - d)) else mem a := by
  induction n generalizing mem with
  | zero => rw [copyDown, if_neg (by omega)]
  | succ n ih =>
    rw [copyDown, ← Nat.add_assoc, ← Nat.add_assoc, Nat.add_sub_cancel, Nat.add_sub_cancel, ih]
    by_cases ha : a = d + n
    · rw [if_neg (by omega), if_pos (by omega), ha, Function.update_self, Nat.add_sub_cancel_left]
    · by_cases hin : d ≤ a ∧ a < d + n
      · rw [if_pos hin, if_pos (by omega), Function.update_of_ne (by omega)]
      · rw [if_neg hin, if_neg (by omega), Function.update_of_ne ha]

theorem memmove_apply (mem : Flat) (dst src n : Nat) (hsrc : src + n < 2 ^ 32)
    (hdst : dst + n < 2 ^ 32) (a : Nat) : memmove mem dst src n a =
      if dst ≤ a ∧ a < dst + n then mem (src + (a - dst)) else mem a := by
  rw [memmove, Nat.mod_eq_of_lt hsrc, Nat.mod_eq_of_lt hdst]
  by_cases hover : src < dst ∧ dst < src + n
  · rw [if_pos hover, copyDown_apply mem hover.1.le]
  · rw [if_neg hover]
    by_cases hlt : src < dst
    · rw [copyUp_of_lt mem hlt hdst]
      by_cases hin : dst ≤ a ∧ a < dst + n
      · rw [if_pos hin, if_pos hin, Nat.mod_eq_of_lt (by omega)]
      · rw [if_neg hin, if_neg hin]
    · rw [copyUp_of_le mem (by omega) hsrc]

end Copy

/-- `memmove` copies the bytes whatever the ranges have in common. -/
theorem memmove_copies (mem : Flat) (dst src n : Nat) (hsrc : src + n < 2 ^ 32)
    (hdst : dst + n < 2 ^ 32) :
    (∀ i, i < n → memmove mem dst src n (dst + i) = mem (src + i)) ∧
      ∀ a, a < dst ∨ dst + n ≤ a → memmove mem dst src n a = mem a := by
  constructor
  · intro i hi
    rw [memmove_apply mem dst src n hsrc hdst, if_pos (by omega), Nat.add_sub_cancel_left]
  · intro a ha
    rw [memmove_apply mem dst src n hsrc hdst, if_neg (by omega)]

theorem memmove_copies_overlap :
    (∀ i, i < 8 → memmove (fun a => .ofNat a) 102 100 8 (102 + i) = .ofNat (100 + i)) ∧
      ∀ a, a < 102 ∨ 110 ≤ a → memmove (fun a => .ofNat a) 102 100 8 a = .ofNat a :=
  memmove_copies (fun a => .ofNat a) 102 100 8 (by decide) (by decide)

/-- The two agree unless the destination begins inside a source that is not periodic. -/
theorem userMemmove_eq_iff (mem : Flat) (dst src : Nat) (n : Int) (hn : 0 ≤ n)
    (hsrc : src + n < 2 ^ 32) (hdst : dst + n < 2 ^ 32) :
    userMemmove mem dst src n = memmove mem dst src n.toNat ↔
      (src < dst → ∀ i : Nat, i < n → mem (src + i) = mem (src + i % (dst - src))) := by
  obtain ⟨k, rfl⟩ := Int.eq_ofNat_of_zero_le hn
  rw [userMemmove, Int.toNat_natCast, funext_iff]
  have hk : src + k < 2 ^ 32 := by exact_mod_cast hsrc
  have hk' : dst + k < 2 ^ 32 := by exact_mod_cast hdst
  by_cases hlt : src < dst
  · simp only [copyUp_of_lt mem hlt hk', memmove_apply mem dst src k hk hk', hlt, true_imp_iff,
      Nat.cast_lt]
    constructor
    · intro heq i hi
      have hbyte := heq (dst + i)
      rw [if_pos (by omega), if_pos (by omega), Nat.add_sub_cancel_left] at hbyte
      exact hbyte.symm
    · intro hper a
      split_ifs with hin
      · exact (hper (a - dst) (by omega)).symm
      · rfl
  · simp only [copyUp_of_le mem (Nat.not_lt.1 hlt) hk, memmove_apply mem dst src k hk hk', hlt,
      false_imp_iff, implies_true]

theorem userMemmove_eq_iff_down :
    userMemmove (fun a => .ofNat a) 98 100 8 = memmove (fun a => .ofNat a) 98 100 8 :=
  (userMemmove_eq_iff _ 98 100 8 (by decide) (by decide) (by decide)).2 fun h =>
    absurd h (by decide)

/-- Three bytes moved up by one. -/
theorem userMemmove_repeats : ¬ ∀ (mem : Flat) (dst src : Nat) (n : Int), 0 ≤ n →
    src + n < 2 ^ 32 → dst + n < 2 ^ 32 →
    userMemmove mem dst src n = memmove mem dst src n.toNat := by
  intro hall
  have hbyte := congrFun (hall (fun a => .ofNat a) 11 10 3 (by decide) (by decide) (by decide)) 12
  exact absurd hbyte (by decide)

end Xv6.Util
