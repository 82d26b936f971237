import FuzzyInference.Decimal.Nearest

/-!
# JSON values

A value is kept as it was written: fields in order with their repetitions, and numbers as decimals
that remember whether they had a sign, a fraction or an exponent. So `-0` and `0` differ, and a
reader of counts can refuse `1.0`.

A string may be written with half of a surrogate pair, which is no character. Such a string is
kept as none: it can be passed over, but not read.
-/

set_option autoImplicit false

namespace FuzzyInference

/-- A number as it was written. -/
structure Numeral extends Decimal where
  negative : Bool
  /-- Written without a fraction and without an exponent. -/
  integral : Bool
  deriving DecidableEq

/-- A JSON value. -/
inductive Json where
  | null
  | boolean (b : Bool)
  | number (n : Numeral)
  | text (s : Option String)
  | list (items : List Json)
  | record (fields : List (Option String × Json))

namespace Json

/-- The number nearest to a numeral; none when it is too large for a double. -/
def float? : Json → Option Float
  | number n => n.toDecimal.toFloat? n.negative
  | _ => none

/-- A count of 64 bits. It is written without sign, fraction and exponent. -/
def count? : Json → Option Nat
  | number n =>
      if n.integral = true ∧ n.negative = false ∧ n.digits < Nat.pow 2 64 then some n.digits
      else none
  | _ => none

/-- A name, written as a string or as the only field of a record, with null as its value. -/
def choice? : Json → Option String
  | text s => s
  | record [(s, null)] => s
  | _ => none

/-- The values of a field. -/
def valuesOf (fields : List (Option String × Json)) (name : String) : List Json :=
  (fields.filter fun f => f.1 = some name).map Prod.snd

/-- The value of a field that must be there once. -/
def single? (fields : List (Option String × Json)) (name : String) : Option Json :=
  match valuesOf fields name with
  | [j] => some j
  | _ => none

/-- The values of the named fields, in the order of the names. Each must be there once; other
fields are passed over, but their names must be readable. A list of as many values is taken for
them in that order. -/
def fields? (names : List String) : Json → Option (List Json)
  | record fields =>
      if fields.all (fun f => f.1.isSome) then names.mapM (single? fields) else none
  | list items => if items.length = names.length then some items else none
  | _ => none

end Json

end FuzzyInference
