import FuzzyInference.Engine.Defuzzify
import FuzzyInference.Engine.Inference
import FuzzyInference.Engine.Settings

/-!
# Commands

Every operation that can change an engine, as data. `Engine.perform` carries one out, and
`Engine.run` a list of them, so a history of an engine is a list of commands.

A refused setting leaves the engine as it was. The stages of a cycle (`fuzzify`, `inference`,
`defuzzify`) leave what they did before they failed.
-/

set_option autoImplicit false

namespace FuzzyInference

/-- An operation on an engine. -/
inductive Command (α : Type) where
  | setupInput (tag : Int) (lower upper : α)
  | setupOutput (tag : Int) (lower upper : α)
  | setInputMembership (input tag : Int) (shape : Shape α) (coefficients : List α) (height : α)
  | setOutputMembership (output tag : Int) (shape : Shape α) (coefficients : List α) (height : α)
  | setOperator (role : Role) (operator : Operator)
  | setMethod (method : Method)
  | setEvalPoints (points : Nat)
  | setWeights (weights : List α)
  | storeRegion (output : Int) (region : Region α)
  | setInput (tag : Int) (value : α)
  | fuzzify
  | inference
  | defuzzify

namespace Engine

variable {α : Type} [Scalar α]

/-- The outcome of a setting: a refused one leaves the engine as it was. -/
def settled (e : Engine α) : Except (EngineError α) (Engine α) → Outcome α
  | .ok changed => (changed, .ok ())
  | .error err => (e, .error err)

/-- Carries out a command. -/
def perform (e : Engine α) : Command α → Outcome α
  | .setupInput tag lower upper => e.settled (e.setupInput tag lower upper)
  | .setupOutput tag lower upper => e.settled (e.setupOutput tag lower upper)
  | .setInputMembership input tag shape coefficients height =>
      e.settled (e.setInputMembership input tag shape coefficients height)
  | .setOutputMembership output tag shape coefficients height =>
      e.settled (e.setOutputMembership output tag shape coefficients height)
  | .setOperator role op => e.settled (e.setOperator role op)
  | .setMethod m => e.settled (e.setMethod m)
  | .setEvalPoints points => e.settled (e.setEvalPoints points)
  | .setWeights weights => e.settled (e.setWeights weights)
  | .storeRegion output region => e.settled (e.storeRegion output region)
  | .setInput tag value => e.settled (e.setInput tag value)
  | .fuzzify => (e.fuzzify, .ok ())
  | .inference => e.inference
  | .defuzzify => e.defuzzify

/-- Carries out commands one after the other, whether they fail or not. -/
def run (e : Engine α) : List (Command α) → Engine α
  | [] => e
  | c :: cs => run (e.perform c).1 cs

/-- Carries out commands up to the first that fails. -/
def runUntilError (e : Engine α) : List (Command α) → Outcome α
  | [] => (e, .ok ())
  | c :: cs =>
      match e.perform c with
      | (e, .ok ()) => runUntilError e cs
      | (e, .error err) => (e, .error err)

/-- The commands of a whole cycle: set the inputs in order, fuzzify, infer, defuzzify. -/
def cycle (values : List α) : List (Command α) :=
  (values.zipIdx.map fun v => .setInput v.2 v.1) ++ [.fuzzify, .inference, .defuzzify]

end Engine

end FuzzyInference
