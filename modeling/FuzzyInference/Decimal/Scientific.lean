import FuzzyInference.Decimal.Nearest
import FuzzyInference.Decimal.Plain

/-!
# Scientific decimal text

A double is written with a fixed number of significant digits, rounded once from its exact value,
and without the zeros at the end: `1.5e0`, `-2.5e-1`. Zero is written without a sign.
-/

set_option autoImplicit false

namespace FuzzyInference

/-- A positive number rounded to `n` significant digits. It may be rounded up to the next power of
ten. -/
def Binary.rounded (b : Binary) (n : Nat) : Decimal :=
  let place := b.magnitude - n
  ⟨divideToEven (b.numerator * Nat.pow 10 (-place).toNat)
    (b.denominator * Nat.pow 10 place.toNat), place⟩

/-- A decimal with one digit before the point and an exponent. -/
def Decimal.scientific (d : Decimal) : String :=
  let (digits, place) := d.trimmed
  let mantissa :=
    match digits with
    | first :: second :: rest => first :: '.' :: second :: rest
    | short => short
  String.ofList mantissa ++ "e" ++ toString (place + digits.length - 1)

/-- The text of a double with at most `n` significant digits. -/
def scientificText (n : Nat) (x : Float) : String :=
  if x.isNaN then "nan"
  else
    let b := Binary.ofFloat x
    if b.mantissa = 0 then "0e0"
    else
      (if x.toBits.toNat < Nat.pow 2 63 then "" else "-") ++
        if x.isInf then "inf" else (b.rounded n).scientific

end FuzzyInference
