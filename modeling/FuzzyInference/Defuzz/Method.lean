import FuzzyInference.Architecture

/-!
# Defuzzification methods

Five methods read a sampled curve and belong to Mamdani systems; two consume the outputs of the
rules directly and belong to the other architectures.
-/

set_option autoImplicit false

namespace FuzzyInference

/-- A way to turn what the rules say about an output into one crisp value. -/
inductive Method where
  /-- The centre of gravity of the sampled curve. -/
  | centroid
  /-- The point that halves the area under the sampled curve. -/
  | bisector
  /-- The middle of the first plateau of greatest degree. -/
  | meanOfMaximum
  /-- The last point of greatest degree. -/
  | largestOfMaximum
  /-- The first point of greatest degree. -/
  | smallestOfMaximum
  /-- The average of the rule outputs, weighted by strength. -/
  | weightedAverage
  /-- The sum of the rule outputs, weighted by strength. -/
  | weightedSum
  deriving DecidableEq

namespace Method

/-- Every method, in the order in which they are listed to a user. -/
def all : List Method :=
  [centroid, bisector, meanOfMaximum, largestOfMaximum, smallestOfMaximum, weightedAverage,
    weightedSum]

/-- The short name shown to a user. -/
def name : Method → String
  | centroid => "centroid"
  | bisector => "bisector"
  | meanOfMaximum => "mom"
  | largestOfMaximum => "lom"
  | smallestOfMaximum => "som"
  | weightedAverage => "wtaver"
  | weightedSum => "wtsum"

/-- The method of an architecture for which none was chosen. -/
def default : Architecture → Method
  | .mamdani => centroid
  | .sugeno | .tsukamoto => weightedAverage

/-- Whether a method reads a sampled curve. -/
def requiresSampling : Method → Bool
  | weightedAverage | weightedSum => false
  | _ => true

/-- Whether a method can serve an architecture. -/
def supports (m : Method) : Architecture → Bool
  | .mamdani => m.requiresSampling
  | .sugeno => m = weightedAverage || m = weightedSum
  | .tsukamoto => m = weightedAverage

end Method

end FuzzyInference
