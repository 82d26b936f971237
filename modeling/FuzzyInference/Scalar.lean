/-!
# Scalars

Degrees, strengths and crisp values are computed in one arithmetic, given by the class
`Scalar`. Everything numeric in this library is stated over the class: it runs at `Float`,
and a statement that needs laws (order, field, exact division) takes a carrier that has them.

- `Scalar.IsNaN` is the failure of `y ≤ y`; no other test for an undefined number is used.
- `Scalar.clamp lo hi y` confines `y` to a range and sends an undefined number to the lower
  end, so a clamped value is never undefined when the range is not.
- `Scalar.minimum` ignores an undefined operand.
-/

set_option autoImplicit false

namespace FuzzyInference

/-- The arithmetic of an inference system: the field operations and the order, with the
elementary functions that membership shapes use. No law is part of the class. -/
class Scalar (α : Type) extends Zero α, One α, Add α, Sub α, Mul α, Div α, Neg α,
    OfScientific α, LT α, LE α where
  /-- The number of a count. -/
  ofNat : Nat → α
  /-- An undefined number, the value of a quotient that has none. -/
  nan : α
  abs : α → α
  sqrt : α → α
  exp : α → α
  log : α → α
  cos : α → α
  pow : α → α → α
  decidableLT : DecidableLT α
  decidableLE : DecidableLE α

attribute [reducible, instance] Scalar.decidableLT Scalar.decidableLE

instance : Scalar Float where
  zero := 0.0
  one := 1.0
  ofNat := Float.ofNat
  nan := 0.0 / 0.0
  abs := Float.abs
  sqrt := Float.sqrt
  exp := Float.exp
  log := Float.log
  cos := Float.cos
  pow := Float.pow
  decidableLT := inferInstance
  decidableLE := inferInstance

namespace Scalar

variable {α : Type} [Scalar α]

/-- An undefined number is the only one that is not at most itself. -/
abbrev IsNaN (y : α) : Prop := ¬ y ≤ y

/-- `y` confined to the range from `lo` to `hi`; an undefined `y` becomes `lo`. -/
def clamp (lo hi y : α) : α :=
  if IsNaN y ∨ y < lo then lo
  else if hi < y then hi
  else y

/-- `y` confined to the range from 0 to 1. -/
def unit (y : α) : α := clamp 0 1 y

/-- The smaller of two numbers; an undefined operand is ignored. -/
def minimum (a b : α) : α :=
  if IsNaN a then b
  else if b < a then b
  else a

/-- The ratio of a circle's circumference to its diameter, to sixteen digits. -/
def pi : α := 3.141592653589793

/-- The distance within which a singleton counts as hit, to sixteen digits the gap between 1
and the next double. -/
def singletonTolerance : α := 2.220446049250313e-16

end Scalar

end FuzzyInference
