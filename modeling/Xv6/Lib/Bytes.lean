import Mathlib

/-!
# Little-endian fields in a block of bytes

C structures laid over a buffer read and write fields of a few bytes at fixed
offsets.  A field is given by its offset and its width; writing a field is read
back, and leaves every field that does not overlap it alone.
-/

namespace Xv6.Lib

abbrev Bytes (N : Nat) : Type := Fin N → UInt8

namespace Bytes

variable {N : Nat}

def byte (b : Bytes N) (i : Nat) : UInt8 := if h : i < N then b ⟨i, h⟩ else 0

def get (b : Bytes N) : Nat → Nat → Nat
  | _, 0 => 0
  | off, w + 1 => (b.byte off).toNat + 256 * b.get (off + 1) w

def set (b : Bytes N) (off w v : Nat) : Bytes N := fun i =>
  if off ≤ i.val ∧ i.val < off + w then UInt8.ofNat (v / 256 ^ (i.val - off)) else b i

theorem get_congr {b c : Bytes N} {off w : Nat}
    (h : ∀ i, off ≤ i → i < off + w → b.byte i = c.byte i) : b.get off w = c.get off w := by
  induction w generalizing off with
  | zero => rfl
  | succ w ih =>
    simp only [get]
    rw [h off (by omega) (by omega), ih fun i hlo hhi => h i (by omega) (by omega)]

theorem byte_set_of_mem {b : Bytes N} {off w v i : Nat} (hN : i < N) (hlo : off ≤ i)
    (hhi : i < off + w) : (b.set off w v).byte i = UInt8.ofNat (v / 256 ^ (i - off)) := by
  simp [byte, set, hN, hlo, hhi]

theorem byte_set_of_notMem {b : Bytes N} {off w v i : Nat} (h : ¬ (off ≤ i ∧ i < off + w)) :
    (b.set off w v).byte i = b.byte i := by
  simp [byte, set, h]

theorem get_set_of_disjoint {b : Bytes N} {off w v off' w' : Nat}
    (h : off' + w' ≤ off ∨ off + w ≤ off') : (b.set off w v).get off' w' = b.get off' w' := by
  apply get_congr
  intro i hlo hhi
  apply byte_set_of_notMem
  omega

theorem get_eq_mod {b : Bytes N} {off w v : Nat}
    (h : ∀ i, i < w → b.byte (off + i) = UInt8.ofNat (v / 256 ^ i)) :
    b.get off w = v % 256 ^ w := by
  induction w generalizing off v with
  | zero => simp [get, Nat.mod_one]
  | succ w ih =>
    have hfirst : b.byte off = UInt8.ofNat v := by simpa using h 0 (by omega)
    have hrest : b.get (off + 1) w = v / 256 % 256 ^ w := by
      apply ih
      intro i hi
      have hbyte := h (i + 1) (by omega)
      rw [Nat.div_div_eq_div_mul, ← Nat.pow_succ']
      rwa [Nat.add_comm i 1, ← Nat.add_assoc, Nat.add_comm 1 i] at hbyte
    have hsplit : v % 256 ^ (w + 1) = v % 256 + 256 * (v / 256 % 256 ^ w) := by
      rw [Nat.pow_succ', Nat.mod_mul]
    have hbyte : (UInt8.ofNat v).toNat = v % 256 := UInt8.toNat_ofNat'
    rw [get, hfirst, hrest, hsplit, hbyte]

theorem get_set_self {b : Bytes N} {off w v : Nat} (hN : off + w ≤ N) (hv : v < 256 ^ w) :
    (b.set off w v).get off w = v := by
  have hmod : (b.set off w v).get off w = v % 256 ^ w := by
    apply get_eq_mod
    intro i hi
    rw [byte_set_of_mem (by omega) (by omega) (by omega), Nat.add_sub_cancel_left]
  rw [hmod, Nat.mod_eq_of_lt hv]

theorem get_lt (b : Bytes N) (off w : Nat) : b.get off w < 256 ^ w := by
  induction w generalizing off with
  | zero => simp [get]
  | succ w ih =>
    have hbyte := (b.byte off).toNat_lt
    have hrest := ih (off + 1)
    rw [get, Nat.pow_succ']
    omega

theorem byte_zero (i : Nat) : byte (N := N) (fun _ => 0) i = 0 := by
  unfold byte
  split_ifs <;> rfl

theorem get_zero (off w : Nat) : get (N := N) (fun _ => 0) off w = 0 := by
  induction w generalizing off with
  | zero => rfl
  | succ w ih =>
    rw [get, byte_zero, ih]
    rfl

end Bytes

end Xv6.Lib
