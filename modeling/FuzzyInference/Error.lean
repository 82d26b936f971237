import FuzzyInference.Defuzz.Method
import FuzzyInference.Operator
import FuzzyInference.Walk.Basic

/-!
# Errors

Everything that a caller can be told, as data. `FuzzyInference.ErrorText` has the wording.
-/

set_option autoImplicit false

namespace FuzzyInference

/-- The tables of a system. -/
inductive Table where
  | inputs
  | outputs
  | inputMemberships
  | outputMemberships
  | rules
  deriving DecidableEq

/-- Why an operation is refused or fails. -/
inductive EngineError (α : Type) where
  | emptyTable (table : Table)
  /-- A table holds more entries than the rule stream can name. -/
  | tooManyEntries (table : Table) (actual limit : Nat)
  | strengthsTooShort (required actual : Nat)
  | weightsTooShort (required actual : Nat)
  | tagOutOfRange (side : Side) (tag : Int) (count : Nat)
  | membershipOutOfRange (tag : Int) (count : Nat)
  | invalidRange (lower upper : α)
  | missingCoefficients (shape : String) (expected actual : Nat)
  | shapeNotAllowed (shape : String) (side : Side) (architecture : Architecture)
  | operatorNotAllowed (role : Role) (operator : Operator)
  | methodNotSupported (method : Method) (architecture : Architecture)
  | noEvalPoints
  | regionTooShort (required actual : Nat)
  | walk (fault : WalkFault)
  /-- Defuzzification was asked for without a successful inference before it. -/
  | inferenceNotValid
  deriving DecidableEq

end FuzzyInference
