import Mathlib.Algebra.Group.Int.Defs
import Mathlib.Algebra.Group.Nat.Defs

/-! Conversions of an LP64 C implementation: `int` has 32 bits, `long`, `size_t` and
`unsigned long` have 64. Signed overflow is modelled by the wrap that the compilers
of the labs emit; the standard leaves it undefined. -/
namespace OsLabs.CInteger

@[irreducible] def toInt (x : Int) : Int := (x + 2^31) % 2^32 - 2^31

@[irreducible] def toLong (x : Int) : Int := (x + 2^63) % 2^64 - 2^63

@[irreducible] def toULong (x : Int) : Nat := (x % 2^64).toNat

theorem toIntExact {x : Int} (low : -2^31 ≤ x) (high : x < 2^31) : toInt x = x := by
  unfold toInt; omega

theorem toIntRange (x : Int) : -2^31 ≤ toInt x ∧ toInt x < 2^31 := by
  unfold toInt; omega

theorem toLongExact {x : Int} (low : -2^63 ≤ x) (high : x < 2^63) : toLong x = x := by
  unfold toLong; omega

theorem toULongExact {x : Int} (low : 0 ≤ x) (high : x < 2^64) : (toULong x : Int) = x := by
  unfold toULong; omega

end OsLabs.CInteger
