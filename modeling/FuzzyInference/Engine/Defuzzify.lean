import FuzzyInference.Engine.Basic

/-!
# Aggregation and defuzzification

`Engine.aggregate` walks the consequents and folds them into the outputs. For Sugeno and
Tsukamoto systems one pass fills the accumulators. For Mamdani systems the outputs are sampled
together: each sample positions every output, aggregates, and feeds the accumulators. The
bisector then sweeps each output once more, alone, until half of its area is covered.

Every operation gives the engine that it leaves behind together with its outcome.
-/

set_option autoImplicit false

namespace FuzzyInference.Engine

variable {α : Type} [Scalar α]

/-- The walk over the consequents of the engine's rules. -/
def consequences (e : Engine α) : Walk ConsequentStep :=
  consequentWalk e.width e.sizes e.ruleCount e.rules

/-- What a consequent of a rule of the given strength adds to an output: a Mamdani consequent its
implied degree at the current sample, the others their crisp value with the strength as weight. -/
def contribute (e : Engine α) (m : Membership α) (r : Reference) (strength : α) (o : Output α) :
    Output α :=
  match e.architecture with
  | .mamdani =>
      let implied := e.config.implication.apply strength (r.polarize (m.scaled o.toVariable))
      { o with y := e.config.aggregation.apply o.y implied }
  | .sugeno => { o with accumulator := o.accumulator.addWeighted strength (m.evaluate e.inputs) }
  | .tsukamoto =>
      let z := m.evaluate [{ o.toVariable with value := strength }]
      { o with accumulator := o.accumulator.addWeighted strength (Scalar.clamp o.lower o.upper z) }

/-- Applies a consequent, unless its rule has no strength or `only` names another output. -/
def applyConsequent (only : Option Nat) (e : Engine α) (c : Consequent) : Engine α :=
  let strength := e.strengths[c.rule]?.getD 0
  if 0 < strength ∧ only.all (fun o => o = c.assertion.tag) then
    match e.outputMemberships[c.assertion.reference.index]? with
    | some m =>
        { e with
          outputs := e.outputs.modify c.assertion.tag
            (e.contribute m c.assertion.reference strength) }
    | none => e
  else e

/-- Folds the consequents of all rules into the outputs, or into one output only. -/
def aggregate (only : Option Nat) (e : Engine α) : Outcome α :=
  let walk := e.consequences
  (walk.consequents.foldl (applyConsequent only) e, walk.outcome.mapError .walk)

/-- Changes every output. -/
def mapOutputs (f : Output α → Output α) (e : Engine α) : Engine α :=
  { e with outputs := e.outputs.map f }

/-- Takes `left` samples of all outputs together, the first of them with number `k`. -/
def sample (points : Nat) : (left k : Nat) → Engine α → Outcome α
  | 0, _, e => (e, .ok ())
  | left + 1, k, e =>
      match aggregate none (e.mapOutputs (Output.beginSample k points)) with
      | (e, .error err) => (e, .error err)
      | (e, .ok ()) => sample points left (k + 1) (e.mapOutputs (Output.takeSample e.config.method k))

/-- Changes one output. -/
def modifyOutput (o : Nat) (f : Output α → Output α) (e : Engine α) : Engine α :=
  { e with outputs := e.outputs.modify o f }

/-- Advances the second sweep of the bisector by the current sample of an output, and says
whether half of the area is reached. -/
def scan (o : Nat) (e : Engine α) : Engine α × Bool :=
  match e.outputs[o]? with
  | some out =>
      let (acc, reached) := out.accumulator.scanArea out.x out.y
      (e.modifyOutput o fun out => { out with accumulator := acc }, reached)
  | none => (e, true)

/-- Samples one output again until half of its area is reached or no sample is left. -/
def halve (o points : Nat) : (left k : Nat) → Engine α → Outcome α
  | 0, _, e => (e, .ok ())
  | left + 1, k, e =>
      match aggregate (some o) (e.modifyOutput o (Output.beginSample k points)) with
      | (e, .error err) => (e, .error err)
      | (e, .ok ()) =>
          match e.scan o with
          | (e, true) => (e, .ok ())
          | (e, false) => halve o points left (k + 1) e

/-- The second sweep of the bisector over the given outputs, one after the other. -/
def bisect (points : Nat) : List Nat → Engine α → Outcome α
  | [], e => (e, .ok ())
  | o :: os, e =>
      let started := e.modifyOutput o fun out =>
        { out with accumulator := out.accumulator.beginBisection }
      match halve o points points 0 started with
      | (e, .error err) => (e, .error err)
      | (e, .ok ()) => bisect points os e

/-- Fills the accumulators of all outputs. -/
def accumulate (e : Engine α) : Outcome α :=
  match e.architecture with
  | .sugeno | .tsukamoto => aggregate none e
  | .mamdani =>
      let points := e.config.evalPoints
      match sample points points 0 e with
      | (e, .error err) => (e, .error err)
      | (e, .ok ()) =>
          if e.config.method = .bisector then bisect points (List.range e.outputs.length) e
          else (e, .ok ())

/-- Turns the strengths of the rules into a crisp value per output. It is refused unless the last
inference succeeded and no fuzzification came after it. -/
def defuzzify (e : Engine α) : Outcome α :=
  if e.status = .succeeded then
    match accumulate (e.mapOutputs (Output.reset e.config.method)) with
    | (e, .error err) => (e, .error err)
    | (e, .ok ()) => (e.mapOutputs (Output.settle e.config.method), .ok ())
  else (e, .error .inferenceNotValid)

end FuzzyInference.Engine
