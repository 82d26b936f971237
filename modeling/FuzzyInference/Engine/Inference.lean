import FuzzyInference.Engine.Basic

/-!
# Fuzzification and inference

Fuzzification confines every input to its range and keeps the degree of every input membership
function. Inference walks the premises and composes the kept degrees into one strength per rule.

The walk itself depends only on the stream and the lengths of the tables. The strengths are
folded over its steps (`Engine.compose`), so the slots of rules that were not completed keep
what they hold.
-/

set_option autoImplicit false

namespace FuzzyInference.Engine

variable {α : Type} [Scalar α]

/-- Confines the inputs, keeps the degrees, and forgets the last inference. -/
def fuzzify (e : Engine α) : Engine α :=
  let inputs := e.inputs.map Variable.confined
  { e with
    inputs
    inputMemberships := e.inputMemberships.map (Membership.fuzzify inputs)
    status := .notRun }

/-- The walk over the premises of the engine's rules. -/
def premises (e : Engine α) : Walk PremiseStep :=
  premiseWalk e.width e.sizes e.ruleCount e.rules

/-- The operator that composes a clause: that of the connective in front of it, and the bounded
sum, which leaves a degree as it is, for the first clause of a rule. -/
def joining (e : Engine α) : Option Connective → Operator
  | some .and => e.config.andOperator
  | some .or => e.config.orOperator
  | none => .sum

/-- The degree of an antecedent: the kept degree of the function that it names, confined to the
unit interval and then taken as it is or negated. -/
def antecedentDegree (e : Engine α) (r : Reference) : α :=
  r.polarize (Scalar.unit ((e.inputMemberships[r.index]?.map fun m => m.degree).getD 0))

/-- The weight of a rule, 1 where none is set. -/
def weight (e : Engine α) (rule : Nat) : α :=
  ((e.weights.bind fun ws => ws[rule]?).map Scalar.unit).getD 1

/-- The strengths while a walk is being evaluated: the strength of the rule that is being read,
and the slots. -/
structure Composition (α : Type) where
  strength : α
  strengths : List α

/-- Evaluates one step of the premise walk. -/
def compose (e : Engine α) (c : Composition α) (s : PremiseStep) : Composition α :=
  match s.effect with
  | .compose joined =>
      { c with
        strength := (e.joining joined).apply c.strength (e.antecedentDegree s.clause.reference) }
  | .proceed => c
  | .closeRule => ⟨0, c.strengths.set s.rule (c.strength * e.weight s.rule)⟩

/-- Computes the strength of every rule. When the walk fails, the rules completed before keep
their new strengths. -/
def inference (e : Engine α) : Outcome α :=
  let walk := e.premises
  let composed := walk.steps.foldl e.compose ⟨0, e.strengths⟩
  let e := { e with strengths := composed.strengths, completed := walk.completed }
  match walk.outcome with
  | .ok () => ({ e with status := .succeeded }, .ok ())
  | .error fault => ({ e with status := .failed }, .error (.walk fault))

end FuzzyInference.Engine
