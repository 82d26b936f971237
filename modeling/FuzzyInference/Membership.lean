import FuzzyInference.Shape.Basic

/-!
# Membership functions

A membership function is a shape with coefficients, attached to one variable and scaled by a
height between 0 and 1. A function of the input side keeps the degree of the last fuzzification.
-/

set_option autoImplicit false

namespace FuzzyInference

/-- An entry of a membership table. Without a shape it evaluates to 0. -/
structure Membership (α : Type) where
  shape : Option (Shape α)
  coefficients : List α
  height : α
  /-- The position of the variable it is attached to. -/
  variableIndex : Nat
  /-- The degree at the last fuzzification. -/
  degree : α

namespace Membership

variable {α : Type} [Scalar α]

/-- An entry that nobody has set up yet. -/
def blank : Membership α := ⟨none, [], 1, 0, 0⟩

/-- An entry with a shape; the height is confined to the unit interval. -/
def attached (variableIndex : Nat) (shape : Shape α) (coefficients : List α) (height : α) :
    Membership α :=
  ⟨some shape, coefficients, Scalar.unit height, variableIndex, 0⟩

/-- The value of the shape, not scaled. -/
def evaluate (m : Membership α) (vars : List (Variable α)) : α :=
  match m.shape with
  | some shape => shape.evaluate vars m.coefficients
  | none => 0

/-- The scaled degree at the value of a variable. -/
def scaled (m : Membership α) (v : Variable α) : α := m.height * m.evaluate [v]

/-- Keeps the scaled degree at the value of the variable it is attached to, 0 if there is none. -/
def fuzzify (inputs : List (Variable α)) (m : Membership α) : Membership α :=
  { m with degree := (inputs[m.variableIndex]?.map m.scaled).getD 0 }

end Membership

end FuzzyInference
