import FuzzyInference.Decimal.Shortest

/-!
# The double nearest to a decimal

A decimal is read as a fraction of naturals, and the fraction is rounded once, to an even mantissa
when it lies halfway between two doubles.
-/

set_option autoImplicit false

namespace FuzzyInference

/-- The quotient rounded to the nearest natural, and to the even one of two that are equally
near. -/
def divideToEven (num den : Nat) : Nat :=
  let q := num / den
  let twice := 2 * (num % den)
  if den < twice ∨ (twice = den ∧ q % 2 = 1) then q + 1 else q

namespace Binary

/-- The exponent of the mantissas that are next to a positive fraction: the one that leaves 53 bits
before the point, but never less than that of the subnormal numbers. -/
def exponentFor (num den : Nat) : Int :=
  let k : Int := Int.ofNat num.log2 - Int.ofNat den.log2
  let atLeast : Bool := den * Nat.pow 2 k.toNat ≤ num * Nat.pow 2 (-k).toNat
  max ((if atLeast then k else k - 1) - 52) (-1074)

/-- The mantissa and exponent nearest to a positive fraction. The mantissa can be rounded up to
`2 ^ 53`, which is the next power of two. -/
def nearest (num den : Nat) : Binary :=
  let e := exponentFor num den
  ⟨divideToEven (num * Nat.pow 2 (-e).toNat) (den * Nat.pow 2 e.toNat), e⟩

/-- The bit pattern. A mantissa of `2 ^ 53` carries into the exponent field. -/
def bits (b : Binary) : Nat := (b.exponent + 1074).toNat * Nat.pow 2 52 + b.mantissa

/-- The bit pattern of infinity, the first that is no finite number. -/
def infinityBits : Nat := 2047 * Nat.pow 2 52

end Binary

namespace Decimal

/-- The bit pattern of the double nearest to a decimal. A decimal with a digit beyond `10 ^ 310`
is infinite and one below `10 ^ (-330)` is zero, which keeps the fraction small. -/
def nearestBits (d : Decimal) : Nat :=
  let top := Int.ofNat (Nat.toDigits 10 d.digits).length + d.place
  if d.digits = 0 ∨ top < -330 then 0
  else if 310 < top then Binary.infinityBits
  else
    min (Binary.nearest (d.digits * Nat.pow 10 d.place.toNat) (Nat.pow 10 (-d.place).toNat)).bits
      Binary.infinityBits

/-- The double nearest to a decimal with a sign; zero keeps the sign. None beyond the range of the
doubles. -/
def toFloat? (negative : Bool) (d : Decimal) : Option Float :=
  if d.nearestBits < Binary.infinityBits then
    some (Float.ofBits (UInt64.ofNat ((if negative then Nat.pow 2 63 else 0) + d.nearestBits)))
  else none

end Decimal

end FuzzyInference
