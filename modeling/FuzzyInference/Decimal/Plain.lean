import FuzzyInference.Decimal.Shortest

/-!
# Plain decimal text

A double is written with the fewest digits that identify it, always positionally: without an
exponent, and without a point when it is whole. The sign of zero is written.
-/

set_option autoImplicit false

namespace FuzzyInference

/-- Digits without the zeros at their end, and the number of these zeros. -/
def Decimal.trimmed (d : Decimal) : List Char × Int :=
  let reversed := (Nat.toDigits 10 d.digits).reverse
  let zeros := (reversed.takeWhile (· = '0')).length
  ((reversed.drop zeros).reverse, d.place + zeros)

/-- A decimal written positionally. -/
def Decimal.plain (d : Decimal) : String :=
  let (digits, place) := d.trimmed
  let zeros (n : Int) : List Char := List.replicate n.toNat '0'
  String.ofList <|
    if 0 ≤ place then digits ++ zeros place
    else
      let whole := digits.length + place
      if 0 < whole then digits.take whole.toNat ++ '.' :: digits.drop whole.toNat
      else '0' :: '.' :: zeros (-whole) ++ digits

/-- The text of a double. -/
def plainText (x : Float) : String :=
  if x.isNaN then "NaN"
  else
    let sign := if x.toBits.toNat < Nat.pow 2 63 then "" else "-"
    let b := Binary.ofFloat x
    sign ++ if x.isInf then "inf" else if b.mantissa = 0 then "0" else b.shortest.plain

end FuzzyInference
