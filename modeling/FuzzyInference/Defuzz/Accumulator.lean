import FuzzyInference.Defuzz.Method
import FuzzyInference.Variable

/-!
# Accumulators

A method works through an accumulator: `Method.init` makes a fresh one for an output,
`Method.accumulate` feeds it one sample, `Accumulator.addWeighted` one rule output, and
`Method.finalize` reads the crisp value off. An accumulator that saw no membership yields an
undefined value.

The bisector needs a second sweep: `beginBisection` fixes half of the total area, and
`scanArea` adds samples until that half is reached. Feeding an accumulator that belongs to
another method changes nothing.
-/

set_option autoImplicit false

namespace FuzzyInference

/-- The running state of a defuzzification. -/
inductive Accumulator (α : Type) where
  | idle
  | centroid (sumXY sumY : α)
  | area (total half current crossing : α)
  | maximum (peak smallest largest : α) (plateau : Bool)
  | weighted (sumWZ sumW : α)

variable {α : Type} [Scalar α]

/-- Degrees that differ by no more than this share a maximum. -/
def plateauTolerance : α := 1e-10

namespace Method

/-- A fresh accumulator for an output over the range of `v`. -/
def init (v : Variable α) : Method → Accumulator α
  | centroid => .centroid 0 0
  | bisector => .area 0 0 0 v.lower
  | meanOfMaximum | largestOfMaximum | smallestOfMaximum =>
      .maximum (-1) v.lower v.upper false
  | weightedAverage | weightedSum => .weighted 0 0

/-- Feeds the aggregated degree `y` sampled at `x`. -/
def accumulate (m : Method) (x y : α) (acc : Accumulator α) : Accumulator α :=
  match m, acc with
  | centroid, .centroid sumXY sumY => .centroid (sumXY + x * y) (sumY + y)
  | bisector, .area total half current crossing => .area (total + y) half current crossing
  | largestOfMaximum, .maximum peak smallest largest plateau =>
      if peak + plateauTolerance < y then .maximum y smallest x plateau
      else if Scalar.abs (y - peak) ≤ plateauTolerance then .maximum peak smallest x plateau
      else .maximum peak smallest largest plateau
  | smallestOfMaximum, .maximum peak smallest largest plateau =>
      if peak + plateauTolerance < y then .maximum y x largest plateau
      else .maximum peak smallest largest plateau
  | meanOfMaximum, .maximum peak smallest largest plateau =>
      if peak + plateauTolerance < y then .maximum y x x true
      else if Scalar.abs (y - peak) ≤ plateauTolerance then
        .maximum peak smallest (if plateau then x else largest) plateau
      -- a fall ends the first plateau, and a later one of the same height does not count
      else .maximum peak smallest largest false
  | _, acc => acc

/-- The crisp value of a completed accumulator. The bisector needs its second sweep first. -/
def finalize (m : Method) (acc : Accumulator α) : α :=
  match m, acc with
  | centroid, .centroid sumXY sumY => sumXY / sumY
  | bisector, .area total _ _ crossing => if total ≤ 0 then Scalar.nan else crossing
  | meanOfMaximum, .maximum peak smallest largest _ =>
      if peak ≤ 0 then Scalar.nan else 0.5 * (smallest + largest)
  | largestOfMaximum, .maximum peak _ largest _ => if peak ≤ 0 then Scalar.nan else largest
  | smallestOfMaximum, .maximum peak smallest _ _ => if peak ≤ 0 then Scalar.nan else smallest
  | weightedAverage, .weighted sumWZ sumW => sumWZ / sumW
  | weightedSum, .weighted sumWZ _ => sumWZ
  | _, _ => Scalar.nan

end Method

namespace Accumulator

/-- Adds a rule output `z` with strength `w`. -/
def addWeighted (w z : α) : Accumulator α → Accumulator α
  | weighted sumWZ sumW => weighted (sumWZ + w * z) (sumW + w)
  | acc => acc

/-- Prepares the second sweep of the bisector. -/
def beginBisection : Accumulator α → Accumulator α
  | area total _ _ crossing => area total (0.5 * total) 0 crossing
  | acc => acc

/-- One sample of the second sweep, and whether half of the area is reached. -/
def scanArea (x y : α) : Accumulator α → Accumulator α × Bool
  | area total half current _ => (area total half (current + y) x, decide (half ≤ current + y))
  | acc => (acc, true)

end Accumulator

end FuzzyInference
