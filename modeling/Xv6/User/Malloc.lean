import Mathlib
import Xv6.Lib.Int32

/-!
# The sizes that `malloc` asks for

A request passes through `malloc`, `morecore`, `sbrk` and `growproc`.  Each of them computes with
32-bit words, the last one with signed ones, and none looks for a wrap.
-/

namespace Xv6.User

open Xv6.Lib

/-- `nunits` of `malloc`: the units of the block, its header included. -/
def nunits (nbytes : UInt32) : UInt32 := (nbytes + 8 - 1) / 8 + 1

def coreUnits (nu : UInt32) : UInt32 := if nu < 4096 then 4096 else nu

def coreBytes (nu : UInt32) : UInt32 := coreUnits nu * 8

def sbrkArg (bytes : UInt32) : Int := int32 bytes.toNat

def grownSize (sz : Nat) (n : Int) : Nat := ((sz + n) % 2 ^ 32).toNat

/-- No step of the request wraps: the block has room for its header and `nbytes` more, `sbrk` is
asked for the bytes of the units, at least those of the block, and the process for just as many
more than it has. -/
structure Unwrapped (nbytes : UInt32) : Prop where
  units : 8 + nbytes.toNat ≤ 8 * (nunits nbytes).toNat
  core : (nunits nbytes).toNat ≤ (coreUnits (nunits nbytes)).toNat
  bytes : (coreBytes (nunits nbytes)).toNat = 8 * (coreUnits (nunits nbytes)).toNat
  signed : 0 < sbrkArg (coreBytes (nunits nbytes))
  grown : ∀ sz < 2 ^ 31, grownSize sz (sbrkArg (coreBytes (nunits nbytes))) =
    sz + 8 * (coreUnits (nunits nbytes)).toNat

theorem toNat_nunits (nbytes : UInt32) :
    (nunits nbytes).toNat = (nbytes.toNat + 7) % 2 ^ 32 / 8 + 1 := by
  have hlt := nbytes.toNat_lt
  simp only [nunits, UInt32.toNat_add, UInt32.toNat_sub, UInt32.toNat_div, UInt32.toNat_ofNat]
  norm_num only
  omega

theorem toNat_coreUnits (nu : UInt32) : (coreUnits nu).toNat = max 4096 nu.toNat := by
  unfold coreUnits
  split_ifs with h
  · rw [UInt32.lt_iff_toNat_lt] at h
    exact (max_eq_left h.le).symm
  · rw [UInt32.lt_iff_toNat_lt, not_lt] at h
    exact (max_eq_right h).symm

theorem toNat_coreBytes (nu : UInt32) :
    (coreBytes nu).toNat = 8 * max 4096 nu.toNat % 2 ^ 32 := by
  rw [coreBytes, UInt32.toNat_mul, toNat_coreUnits, Nat.mul_comm]
  rfl

theorem sbrkArg_pos_iff (bytes : UInt32) :
    0 < sbrkArg bytes ↔ 0 < bytes.toNat ∧ bytes.toNat < 2 ^ 31 := by
  have hlt := bytes.toNat_lt
  rw [sbrkArg, int32, Int.bmod_def]
  omega

/-- A request wraps nowhere just when it is 16 bytes short of half the address space. -/
theorem malloc_unwrapped_iff (nbytes : UInt32) :
    Unwrapped nbytes ↔ nbytes.toNat ≤ 2 ^ 31 - 16 := by
  have hlt := nbytes.toNat_lt
  have hunits := toNat_nunits nbytes
  have hbytes := toNat_coreBytes (nunits nbytes)
  have hcore := toNat_coreUnits (nunits nbytes)
  constructor
  · intro h
    have hroom := h.units
    have hsigned := (sbrkArg_pos_iff _).1 h.signed
    have hexact := h.bytes
    omega
  · intro h
    refine ⟨by omega, by omega, by omega, (sbrkArg_pos_iff _).2 (by omega), ?_⟩
    intro sz hsz
    have harg : sbrkArg (coreBytes (nunits nbytes)) = (coreBytes (nunits nbytes)).toNat :=
      int32_eq_self (by omega) (by omega)
    rw [harg, grownSize]
    omega

/-- The sum of `malloc` wraps: all but 7 bytes of the address space are one unit. -/
theorem malloc_wraps : ¬ Unwrapped 0xffffffff := by
  intro h
  exact absurd h.units (by decide)

/-- Half the address space is a negative request. -/
example : sbrkArg (coreBytes (nunits 0x7ffffff1)) = -2 ^ 31 := by
  decide

end Xv6.User
