/-
  Cs330.Lib.CInt — what C's integer types keep of a number.

  `u32`, `u64` are the unsigned values of the low bits, `int32` and `int64` the signed
  ones; each leaves a number of its range as it is.
-/
import Mathlib.Data.Set.Card

namespace Cs330.Lib.CInt

def u32 (x : Int) : Nat := (x % 2 ^ 32).toNat
def u64 (x : Int) : Nat := (x % 2 ^ 64).toNat

def int32 (x : Int) : Int := (x + 2 ^ 31) % 2 ^ 32 - 2 ^ 31
def int64 (x : Int) : Int := (x + 2 ^ 63) % 2 ^ 64 - 2 ^ 63

theorem u32_eq {n : Nat} (h : n < 2 ^ 32) : u32 n = n := by unfold u32; omega

theorem u64_eq {n : Nat} (h : n < 2 ^ 64) : u64 n = n := by unfold u64; omega

theorem int32_eq {x : Int} (h1 : -2 ^ 31 ≤ x) (h2 : x < 2 ^ 31) : int32 x = x := by unfold int32; omega

theorem int64_eq {x : Int} (h1 : -2 ^ 63 ≤ x) (h2 : x < 2 ^ 63) : int64 x = x := by unfold int64; omega

end Cs330.Lib.CInt
