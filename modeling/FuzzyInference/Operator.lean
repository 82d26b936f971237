import FuzzyInference.Scalar

/-!
# Fuzzy operators

A fuzzy operator combines two degrees. Its result is confined to the unit interval, so a
bounded sum saturates at 1 and undefined operands cannot leave the operator.

A `Role` is a place in the inference pipeline where an operator is bound. Each role admits a
fixed list of operators (`Role.allowed`).
-/

set_option autoImplicit false

namespace FuzzyInference

/-- The five operators on degrees. -/
inductive Operator where
  /-- The smaller degree. -/
  | min
  | product
  /-- The larger degree. -/
  | max
  /-- The probabilistic sum `a + b - a * b`. -/
  | probabilisticOr
  /-- The bounded sum. -/
  | sum
  deriving DecidableEq

namespace Operator

/-- Every operator, in the order in which they are listed to a user. -/
def all : List Operator := [min, product, max, probabilisticOr, sum]

/-- The short name shown to a user. -/
def name : Operator → String
  | min => "min"
  | product => "product"
  | max => "max"
  | probabilisticOr => "probor"
  | sum => "sum"

section Apply

variable {α : Type} [Scalar α]

/-- The operator's formula, before the result is confined. A comparison with an undefined
degree fails, so `min` and `max` then give their second operand. -/
def combine : Operator → α → α → α
  | min, a, b => if a < b then a else b
  | product, a, b => a * b
  | max, a, b => if b < a then a else b
  | probabilisticOr, a, b => a + b - a * b
  | sum, a, b => a + b

/-- The operator on two degrees, confined to the unit interval. -/
def apply (op : Operator) (a b : α) : α := Scalar.unit (op.combine a b)

end Apply

end Operator

/-- A place in the pipeline where an operator is bound. -/
inductive Role where
  /-- Joins two antecedents by AND. -/
  | and
  /-- Joins two antecedents by OR. -/
  | or
  /-- Combines a rule's strength with the degree of a consequent. -/
  | implication
  /-- Folds the contributions of the rules into an output. -/
  | aggregation
  deriving DecidableEq

namespace Role

/-- Every role, in the order in which settings are checked. -/
def all : List Role := [and, or, implication, aggregation]

/-- The name shown to a user. -/
def name : Role → String
  | and => "AND"
  | or => "OR"
  | implication => "implication"
  | aggregation => "aggregation"

/-- The operators that a role admits. -/
def allowed : Role → List Operator
  | and => [.min, .product]
  | or => [.max, .probabilisticOr]
  | implication => [.min, .product, .max, .probabilisticOr]
  | aggregation => [.max, .probabilisticOr, .sum]

/-- Whether an operator may be bound to the role. -/
def accepts (role : Role) (op : Operator) : Bool := role.allowed.contains op

end Role

end FuzzyInference
