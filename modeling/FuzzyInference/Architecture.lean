/-!
# Architectures

The three kinds of inference system differ in what a rule's consequent names: a fuzzy set that
is sampled (`mamdani`), a function of the inputs (`sugeno`), or a monotone fuzzy set that is
inverted at the rule's strength (`tsukamoto`).
-/

set_option autoImplicit false

namespace FuzzyInference

/-- The two sides of a system. Tags and membership functions are counted on each side. -/
inductive Side where
  | input
  | output
  deriving DecidableEq

/-- The name shown to a user. -/
def Side.name : Side → String
  | .input => "input"
  | .output => "output"

/-- The kind of an inference system. -/
inductive Architecture where
  | mamdani
  | sugeno
  | tsukamoto
  deriving DecidableEq

namespace Architecture

/-- Every architecture. -/
def all : List Architecture := [mamdani, sugeno, tsukamoto]

/-- The name shown to a user. -/
def name : Architecture → String
  | mamdani => "Mamdani"
  | sugeno => "Sugeno"
  | tsukamoto => "Tsukamoto"

end Architecture

end FuzzyInference
