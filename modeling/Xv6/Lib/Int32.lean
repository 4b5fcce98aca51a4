import Mathlib

/-!
# Signed 32-bit words

The value of a C `int` after an operation whose exact result is `x`.
-/

namespace Xv6.Lib

def int32 (x : Int) : Int := x.bmod (2 ^ 32)

theorem int32_eq_self {x : Int} (hlo : -2 ^ 31 ≤ x) (hhi : x < 2 ^ 31) : int32 x = x := by
  unfold int32
  apply Int.bmod_eq_of_le <;> omega

end Xv6.Lib
