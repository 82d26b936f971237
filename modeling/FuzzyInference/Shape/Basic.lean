import FuzzyInference.Architecture
import FuzzyInference.Shape.Formula
import FuzzyInference.Variable

/-!
# Membership shapes

A shape maps variables and coefficients to a number. There are four kinds:

- a `Curve` is a fuzzy set on a universe: it reads the value of one variable and gives a degree;
- `constant` and `linear` are crisp consequents of Sugeno systems, `linear` over all inputs;
- an `Inverse` is a monotone fuzzy set read backwards, for Tsukamoto systems: it reads a strength
  from the value of a variable and gives the point of the variable's range with that degree;
- a `custom` shape is a function that the caller supplies.

`Shape.value?` is none exactly when a coefficient or the variable that the shape reads is
missing; `Shape.evaluate` is 0 then.
-/

set_option autoImplicit false

namespace FuzzyInference

/-- A fuzzy set on a universe. The coefficients are listed in the order in which they are read. -/
inductive Curve where
  /-- Feet `a` and `c`, peak `b`: coefficients `a, b, c`. -/
  | triangular
  /-- Feet `a` and `d`, shoulders `b` and `c`: coefficients `a, b, c, d`. -/
  | trapezoidal
  /-- Width, slope, centre. -/
  | generalizedBell
  /-- Deviation, centre. -/
  | gaussian
  /-- Deviation and centre of the left and of the right flank. -/
  | gaussian2
  /-- Slope, inflection point. -/
  | sigmoid
  /-- Two sigmoids, of which the absolute difference is taken. -/
  | differenceSigmoid
  /-- Two sigmoids, of which the absolute product is taken. -/
  | productSigmoid
  /-- Smooth rise over `a, b`, smooth fall over `c, d`. -/
  | pi
  /-- Smooth rise over `a, b`. -/
  | s
  /-- Smooth fall over `a, b`. -/
  | z
  | singleton
  /-- Inflection point, end point. -/
  | concave
  /-- Width, centre. -/
  | spike
  /-- Linear rise over `a, b`. -/
  | linearS
  /-- Linear fall over `a, b`. -/
  | linearZ
  /-- Start, end. -/
  | rectangle
  /-- Centre, width. -/
  | cosine
  deriving DecidableEq

/-- A monotone fuzzy set, read backwards. -/
inductive Inverse where
  | linearS
  | linearZ
  | concave
  | sigmoid
  | s
  | z
  deriving DecidableEq

/-- A membership shape. -/
inductive Shape (α : Type) where
  | curve (c : Curve)
  | constant
  | linear
  | inverse (i : Inverse)
  | custom (evaluate : List (Variable α) → List α → α)

namespace Curve

/-- Every curve, in the order in which shapes are listed to a user. -/
def all : List Curve :=
  [triangular, trapezoidal, generalizedBell, gaussian, gaussian2, sigmoid, differenceSigmoid,
    productSigmoid, pi, s, z, singleton, concave, spike, linearS, linearZ, rectangle, cosine]

/-- The short name shown to a user. -/
def name : Curve → String
  | triangular => "trimf"
  | trapezoidal => "trapmf"
  | generalizedBell => "gbellmf"
  | gaussian => "gaussmf"
  | gaussian2 => "gauss2mf"
  | sigmoid => "sigmf"
  | differenceSigmoid => "dsigmf"
  | productSigmoid => "psigmf"
  | pi => "pimf"
  | s => "smf"
  | z => "zmf"
  | singleton => "singletonmf"
  | concave => "concavemf"
  | spike => "spikemf"
  | linearS => "linsmf"
  | linearZ => "linzmf"
  | rectangle => "rectmf"
  | cosine => "cosmf"

/-- The number of coefficients that a curve reads. -/
def arity : Curve → Nat
  | singleton => 1
  | gaussian | sigmoid | s | z | concave | spike | linearS | linearZ | rectangle | cosine => 2
  | triangular | generalizedBell => 3
  | trapezoidal | gaussian2 | differenceSigmoid | productSigmoid | pi => 4

/-- The degree of a curve at `x`, if all its coefficients are there. -/
def degree? {α : Type} [Scalar α] (c : Curve) (coefficients : List α) (x : α) : Option α :=
  match c, coefficients with
  | triangular, a :: b :: c :: _ => some (Formula.triangle a b c x)
  | trapezoidal, a :: b :: c :: d :: _ => some (Formula.trapezoid a b c d x)
  | generalizedBell, a :: b :: c :: _ => some (Formula.bell a b c x)
  | gaussian, a :: b :: _ => some (Formula.gaussian a b x)
  | gaussian2, a :: b :: c :: d :: _ => some (Formula.gaussianFlanks a b c d x)
  | sigmoid, a :: b :: _ => some (Formula.sigmoid a b x)
  | differenceSigmoid, a :: b :: c :: d :: _ =>
      some (Scalar.abs (Formula.sigmoid a b x - Formula.sigmoid c d x))
  | productSigmoid, a :: b :: c :: d :: _ =>
      some (Scalar.abs (Formula.sigmoid a b x * Formula.sigmoid c d x))
  | pi, a :: b :: c :: d :: _ =>
      some (Scalar.abs (Formula.smoothStep a b x * Formula.smoothFall c d x))
  | s, a :: b :: _ => some (Formula.smoothStep a b x)
  | z, a :: b :: _ => some (Formula.smoothFall a b x)
  | singleton, a :: _ => some (Formula.singleton a x)
  | concave, a :: b :: _ => some (Formula.concave a b x)
  | spike, a :: b :: _ => some (Formula.spike a b x)
  | linearS, a :: b :: _ => some (Formula.rampUp a b x)
  | linearZ, a :: b :: _ => some (Formula.rampDown a b x)
  | rectangle, a :: b :: _ => some (Formula.rectangle a b x)
  | cosine, a :: b :: _ => some (Formula.raisedCosine a b x)
  | _, _ => none

end Curve

namespace Inverse

/-- Every inverse, in the order in which shapes are listed to a user. -/
def all : List Inverse := [linearS, linearZ, concave, sigmoid, s, z]

/-- The short name shown to a user. -/
def name : Inverse → String
  | linearS => "tlinsmf"
  | linearZ => "tlinzmf"
  | concave => "tconcavemf"
  | sigmoid => "tsigmf"
  | s => "tsmf"
  | z => "tzmf"

/-- The point of a range whose degree is the value of `v`, if both coefficients are there. -/
def point? {α : Type} [Scalar α] (i : Inverse) (coefficients : List α) (v : Variable α) :
    Option α :=
  match coefficients with
  | a :: b :: _ =>
      match i with
      | linearS | linearZ => some (Formula.rampInverse a b v.value)
      | concave => some (Formula.concaveInverse a b v.value)
      | sigmoid => some (Formula.sigmoidInverse v.lower v.upper a b v.value)
      | s => some (Formula.smoothStepInverse a b v.value)
      | z => some (Formula.smoothStepInverse a b (1 - v.value))
  | _ => none

end Inverse

namespace Shape

variable {α : Type}

/-- Every shape that the library supplies. -/
def builtin : List (Shape α) :=
  Curve.all.map curve ++ [constant, linear] ++ Inverse.all.map inverse

/-- The short name shown to a user. -/
def name : Shape α → String
  | curve c => c.name
  | constant => "constantmf"
  | linear => "linearmf"
  | inverse i => i.name
  | custom _ => "custom"

/-- The number of coefficients that a shape reads in a system with `inputs` inputs. A custom shape
asks for none. -/
def arity (inputs : Nat) : Shape α → Nat
  | curve c => c.arity
  | constant => 1
  | linear => inputs + 1
  | inverse _ => 2
  | custom _ => 0

/-- Whether the shape is a curve. -/
def isCurve : Shape α → Bool
  | curve _ => true
  | _ => false

/-- Whether the shape is an inverse. -/
def isInverse : Shape α → Bool
  | inverse _ => true
  | _ => false

/-- Whether a shape can be attached to a side of a system. Inputs take curves and constants;
outputs take what the architecture evaluates. A custom shape is taken everywhere. -/
def allowed (side : Side) (architecture : Architecture) : Shape α → Bool
  | curve _ => match side, architecture with
      | .input, _ | .output, .mamdani => true
      | _, _ => false
  | constant => match side, architecture with
      | .input, _ | .output, .sugeno => true
      | _, _ => false
  | linear => match side, architecture with
      | .output, .sugeno => true
      | _, _ => false
  | inverse _ => match side, architecture with
      | .output, .tsukamoto => true
      | _, _ => false
  | custom _ => true

variable [Scalar α]

/-- The sum of the variables' values, each times its coefficient, from left to right. -/
def dot (vars : List (Variable α)) (coefficients : List α) : α :=
  (vars.zip coefficients).foldl (fun sum p => sum + p.1.value * p.2) 0

/-- The value of a shape, if every coefficient and variable that it reads is there. The last
coefficient of `linear`, after one for each variable, is the constant term. -/
def value? (shape : Shape α) (vars : List (Variable α)) (coefficients : List α) :
    Option α :=
  match shape with
  | curve c => vars.head?.bind fun v => c.degree? coefficients v.value
  | constant => vars.head?.bind fun _ => coefficients.head?
  | linear => coefficients[vars.length]?.map fun c => dot vars coefficients + c
  | inverse i => vars.head?.bind fun v => i.point? coefficients v
  | custom evaluate => some (evaluate vars coefficients)

/-- The value of a shape, 0 when something that it reads is missing. -/
def evaluate (shape : Shape α) (vars : List (Variable α)) (coefficients : List α) : α :=
  (shape.value? vars coefficients).getD 0

end Shape

end FuzzyInference
