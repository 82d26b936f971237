import FuzzyInference.Scalar

/-!
# Linguistic variables

An input or output variable has a range, its universe of discourse, and a current crisp value.
A membership shape reads the value as the point at which it is evaluated.
-/

set_option autoImplicit false

namespace FuzzyInference

/-- A variable: its range and its current value. -/
structure Variable (α : Type) where
  lower : α
  upper : α
  value : α

namespace Variable

variable {α : Type} [Scalar α]

/-- A variable that nobody has set up yet: the range from -1 to 1 with the value 0. -/
def blank : Variable α := ⟨-1, 1, 0⟩

/-- A variable over a range, standing at its lower end. -/
def spanning (lower upper : α) : Variable α := ⟨lower, upper, lower⟩

/-- The variable with its value confined to its range. -/
def confined (v : Variable α) : Variable α :=
  { v with value := Scalar.clamp v.lower v.upper v.value }

/-- Writes values into variables, the first value into the first variable and so on. Variables
beyond the last value keep theirs. -/
def assign : List (Variable α) → List α → List (Variable α)
  | v :: vs, x :: xs => { v with value := x } :: assign vs xs
  | vs, _ => vs

end Variable

end FuzzyInference
