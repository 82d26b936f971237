import FuzzyInference.Scalar

/-!
# Formulas of membership shapes

Each formula gives the degree at a point `x` from the coefficients of a shape. Quotients are not
guarded: a flank of zero width divides by zero, and `Scalar.minimum` and `Scalar.unit` decide
what the undefined or infinite quotient means.
-/

set_option autoImplicit false

namespace FuzzyInference.Formula

variable {α : Type} [Scalar α]

/-- Rises from the foot `a` to the peak `b` and falls to the foot `c`. -/
def triangle (a b c x : α) : α :=
  Scalar.unit (Scalar.minimum ((x - a) / (b - a)) ((c - x) / (c - b)))

/-- Rises from the foot `a` to the shoulder `b`, stays at 1 up to `c` and falls to the foot `d`. -/
def trapezoid (a b c d x : α) : α :=
  Scalar.unit
    (Scalar.minimum (Scalar.minimum ((x - a) / (b - a)) 1) ((d - x) / (d - c)))

/-- A bell of the given width and slope around a centre. -/
def bell (width slope center x : α) : α :=
  1 / (1 + Scalar.pow (Scalar.abs ((x - center) / width)) (2.0 * slope))

/-- A Gaussian of deviation `sigma` around a centre. -/
def gaussian (sigma center x : α) : α :=
  let t := (x - center) / sigma
  Scalar.exp (-0.5 * t * t)

/-- A left Gaussian flank up to `c1` and a right one from `c2` on, multiplied. -/
def gaussianFlanks (sigma1 c1 sigma2 c2 x : α) : α :=
  let left := if x ≤ c1 then gaussian sigma1 c1 x else 1
  let right := if c2 ≤ x then gaussian sigma2 c2 x else 1
  left * right

/-- The logistic curve with slope `a` and inflection point `c`. -/
def sigmoid (a c x : α) : α := 1 / (1 + Scalar.exp (-a * (x - c)))

/-- A smooth step from 0 at `a` to 1 at `b`, made of two parabolas. -/
def smoothStep (a b x : α) : α :=
  if x ≤ a then 0
  else if b ≤ x then 1
  else if x ≤ 0.5 * (a + b) then
    let t := (x - a) / (b - a)
    2.0 * t * t
  else
    let t := (x - b) / (b - a)
    1 - 2.0 * t * t

/-- A smooth step from 1 at `a` to 0 at `b`. -/
def smoothFall (a b x : α) : α := 1 - smoothStep a b x

/-- The point at which the smooth step from `a` to `b` has degree `y`. -/
def smoothStepInverse (a b y : α) : α :=
  let y := Scalar.unit y
  if y ≤ 0.5 then a + (b - a) * Scalar.sqrt (0.5 * y)
  else b - (b - a) * Scalar.sqrt (0.5 * (1 - y))

/-- 1 at the point `a` alone, up to the tolerance for singletons. -/
def singleton (a x : α) : α :=
  if Scalar.abs (x - a) ≤ Scalar.singletonTolerance then 1 else 0

/-- A hyperbolic branch through the inflection point `i` that reaches 1 at the end point `e` and
stays there. It rises when `i ≤ e` and falls otherwise. -/
def concave (i e x : α) : α :=
  if i ≤ e ∧ x < e then (e - i) / (2.0 * e - i - x)
  else if e < i ∧ e < x then (i - e) / (-2.0 * e + i + x)
  else 1

/-- A spike of the given width at a centre, falling exponentially on both sides. -/
def spike (width center x : α) : α :=
  Scalar.exp (-Scalar.abs (10.0 * (x - center) / width))

/-- A linear ramp from 0 at `a` to 1 at `b`; a step up at `a` when the two coincide, and 0 when
they are exchanged. -/
def rampUp (a b x : α) : α :=
  if a < b then Scalar.unit ((x - a) / (b - a))
  else if a ≤ b ∧ b ≤ a then if x < a then 0 else 1
  else 0

/-- A linear ramp from 1 at `a` to 0 at `b`; a step down at `a` when the two coincide, and 0 when
they are exchanged. -/
def rampDown (a b x : α) : α :=
  if a < b then Scalar.unit ((b - x) / (b - a))
  else if a ≤ b ∧ b ≤ a then if x < a then 1 else 0
  else 0

/-- 1 between `a` and `b`. -/
def rectangle (a b x : α) : α := if a ≤ x ∧ x ≤ b then 1 else 0

/-- One period of a raised cosine around a centre, 0 outside it. -/
def raisedCosine (center width x : α) : α :=
  if x < center - 0.5 * width ∨ center + 0.5 * width < x then 0
  else 0.5 * (1 + Scalar.cos (2.0 / width * Scalar.pi * (x - center)))

/-- The point that divides the way from `a` to `b` in the ratio `y`. -/
def rampInverse (a b y : α) : α := a + (b - a) * y

/-- The point at which the concave branch has degree `y`. -/
def concaveInverse (i e y : α) : α := (i - e) / y + 2.0 * e - i

/-- The point at which the logistic curve has degree `y`. Degrees that the curve does not reach
are sent to the end of the range where the curve approaches them. -/
def sigmoidInverse (lower upper a c y : α) : α :=
  if 1 ≤ y then if 0 ≤ a then upper else lower
  else if y ≤ 0 then if 0 ≤ a then lower else upper
  else c - Scalar.log (1 / y - 1) / a

end FuzzyInference.Formula
