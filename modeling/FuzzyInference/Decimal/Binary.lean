/-!
# Doubles as exact numbers

A finite double is a natural number times a power of two. `Binary` holds that pair, and
everything that is written of a double is computed from it by exact arithmetic on naturals.
-/

set_option autoImplicit false

namespace FuzzyInference

/-- The magnitude of a finite double, `mantissa * 2 ^ exponent`. -/
structure Binary where
  mantissa : Nat
  exponent : Int
  deriving DecidableEq

namespace Binary

/-- The magnitude of a finite double. The exponent field 0 marks a subnormal number, which has no
hidden bit. -/
def ofFloat (x : Float) : Binary :=
  let bits := x.toBits.toNat
  -- `Nat.pow` here and below, since the instance behind `^` depends on what is imported
  let field : Nat := bits / Nat.pow 2 52 % Nat.pow 2 11
  let fraction : Nat := bits % Nat.pow 2 52
  if field = 0 then ⟨fraction, -1074⟩ else ⟨Nat.pow 2 52 + fraction, Int.ofNat field - 1075⟩

/-- The numerator of the number as a fraction of naturals. -/
def numerator (b : Binary) : Nat := b.mantissa * Nat.pow 2 b.exponent.toNat

/-- The denominator of the number as a fraction of naturals. -/
def denominator (b : Binary) : Nat := Nat.pow 2 (-b.exponent).toNat

/-- The number of digits before the decimal point, or minus the number of zeros after it: for a
positive number the least `k` with `b < 10 ^ k`. A number below 1 is no power of ten, so the digits
of its reciprocal, rounded down, tell its place. -/
def magnitude (b : Binary) : Int :=
  if b.denominator ≤ b.numerator then (Nat.toDigits 10 (b.numerator / b.denominator)).length
  else 1 - (Nat.toDigits 10 (b.denominator / b.numerator)).length

/-- The whole number of units `10 ^ place` in a fraction, with what is left over and the divisor, so
that the fraction is `(quotient + rest / divisor) * 10 ^ place`. -/
def unitsOf (num den : Nat) (place : Int) : Nat × Nat × Nat :=
  let n := num * Nat.pow 10 (-place).toNat
  let d := den * Nat.pow 10 place.toNat
  (n / d, n % d, d)

end Binary

end FuzzyInference
