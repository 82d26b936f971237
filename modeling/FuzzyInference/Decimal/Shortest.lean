import FuzzyInference.Decimal.Binary

/-!
# The shortest decimal of a double

The reals that round to a double form an interval around it, halfway to its neighbours on both
sides, with the ends included when the mantissa is even. `Binary.shortest` searches the decimals
of one digit, of two digits, and so on, up to seventeen, for one in that interval. On each grid
only the two neighbours of the double can lie in it; the nearer one is taken, and the upper one
when both are equally near.
-/

set_option autoImplicit false

namespace FuzzyInference

/-- The number `digits * 10 ^ place`. -/
structure Decimal where
  digits : Nat
  place : Int
  deriving DecidableEq

namespace Binary

/-- The gap to the next lower double is half the gap to the next upper one: so it is at a power of
two, except at the least normal number. -/
def narrowBelow (b : Binary) : Bool := b.mantissa = Nat.pow 2 52 && -1074 < b.exponent

/-- Whether a decimal lies in the interval of the reals that round to the double. -/
def readsBack (b : Binary) (d : Decimal) : Bool :=
  let quarter : Binary := ⟨1, b.exponent - 2⟩
  let below := if b.narrowBelow then 4 * b.mantissa - 1 else 4 * b.mantissa - 2
  let above := 4 * b.mantissa + 2
  let point := d.digits * Nat.pow 10 d.place.toNat * quarter.denominator
  let scale := quarter.numerator * Nat.pow 10 (-d.place).toNat
  if b.mantissa % 2 = 0 then below * scale ≤ point && point ≤ above * scale
  else below * scale < point && point < above * scale

/-- The decimal of `n` digits nearest to the double among those that read back. -/
def candidate (b : Binary) (n : Nat) : Option Decimal :=
  let place := b.magnitude - n
  let (units, rest, divisor) := unitsOf b.numerator b.denominator place
  let low : Decimal := ⟨units, place⟩
  let high : Decimal := ⟨units + 1, place⟩
  match b.readsBack low, b.readsBack high with
  | true, true => some (if 2 * rest < divisor then low else high)
  | true, false => some low
  | false, true => some high
  | false, false => none

/-- The shortest decimal that reads back to the double; seventeen digits always suffice. -/
def shortest (b : Binary) : Decimal :=
  ((List.range 17).findSome? fun n => b.candidate (n + 1)).getD
    ⟨b.numerator * Nat.pow 5 (-b.exponent).toNat, min b.exponent 0⟩

end Binary

end FuzzyInference
