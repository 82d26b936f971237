import FuzzyInference.Config.Basic
import FuzzyInference.Json.Document
import FuzzyInference.Variable

/-!
# Settings as JSON

Operators, roles, architectures and methods are stored by their keys, which differ from the short
names that a user is shown. A configuration is stored as a record of six fields, a variable as a
record of three.

`Config.json` writes a configuration, and `Config.ofJson?` reads it. Reading does not check a
configuration against an architecture.
-/

set_option autoImplicit false

namespace FuzzyInference

/-- The key that an operator is stored by. -/
def Operator.key : Operator → String
  | min => "Min"
  | product => "Product"
  | max => "Max"
  | probabilisticOr => "ProbabilisticOr"
  | sum => "Sum"

/-- The key that a role is stored by. -/
def Role.key : Role → String
  | and => "And"
  | or => "Or"
  | implication => "Implication"
  | aggregation => "Aggregation"

/-- The key that an architecture is stored by. -/
def Architecture.key : Architecture → String
  | mamdani => "Mamdani"
  | sugeno => "Sugeno"
  | tsukamoto => "Tsukamoto"

/-- The key that a method is stored by. -/
def Method.key : Method → String
  | centroid => "Centroid"
  | bisector => "Bisector"
  | meanOfMaximum => "MeanOfMaximum"
  | largestOfMaximum => "LargestOfMaximum"
  | smallestOfMaximum => "SmallestOfMaximum"
  | weightedAverage => "WeightedAverage"
  | weightedSum => "WeightedSum"

/-- The operator with a key. -/
def Operator.ofKey? (key : String) : Option Operator := all.find? fun op => op.key = key

/-- The role with a key. -/
def Role.ofKey? (key : String) : Option Role := all.find? fun role => role.key = key

/-- The architecture with a key. -/
def Architecture.ofKey? (key : String) : Option Architecture := all.find? fun a => a.key = key

/-- The method with a key. -/
def Method.ofKey? (key : String) : Option Method := all.find? fun m => m.key = key

/-- Reads an operator. -/
def Operator.ofJson? (j : Json) : Option Operator := j.choice?.bind ofKey?

/-- Reads a role. -/
def Role.ofJson? (j : Json) : Option Role := j.choice?.bind ofKey?

/-- Reads an architecture. -/
def Architecture.ofJson? (j : Json) : Option Architecture := j.choice?.bind ofKey?

/-- Reads a method. -/
def Method.ofJson? (j : Json) : Option Method := j.choice?.bind ofKey?

/-- Reads a variable. -/
def Variable.ofJson? (j : Json) : Option (Variable Float) :=
  match j.fields? ["min", "max", "value"] with
  | some [lower, upper, value] => do
      return ⟨← lower.float?, ← upper.float?, ← value.float?⟩
  | _ => none

namespace Config

/-- The names of the fields of a configuration, in the order in which they are written. -/
def fieldNames : List String :=
  ["and_operator", "or_operator", "implication", "aggregation", "defuzz_method", "eval_points"]

/-- The values of the fields, as they are written. -/
def fieldTexts (c : Config) : List String :=
  let quoted (key : String) := "\"" ++ key ++ "\""
  [quoted c.andOperator.key, quoted c.orOperator.key, quoted c.implication.key,
    quoted c.aggregation.key, quoted c.method.key, toString c.evalPoints]

/-- Writes a configuration, without blanks. -/
def json (c : Config) : String :=
  let field (name value : String) := "\"" ++ name ++ "\":" ++ value
  "\x7b" ++ ",".intercalate (List.zipWith field fieldNames c.fieldTexts) ++ "\x7d"

/-- Reads a configuration. -/
def ofJson? (j : Json) : Option Config :=
  match j.fields? fieldNames with
  | some [andOperator, orOperator, implication, aggregation, method, evalPoints] => do
      return {
        andOperator := ← Operator.ofJson? andOperator
        orOperator := ← Operator.ofJson? orOperator
        implication := ← Operator.ofJson? implication
        aggregation := ← Operator.ofJson? aggregation
        method := ← Method.ofJson? method
        evalPoints := ← evalPoints.count? }
  | _ => none

end Config

end FuzzyInference
