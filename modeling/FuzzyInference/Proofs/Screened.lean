import FuzzyInference.Proofs.Frame

/-!
# Defuzzification with another test

Aggregation passes over the rules without strength. Whether a consequent takes effect is one test on
the strength of its rule, and everything that defuzzification does with consequents goes through
this test. Here the test is a parameter: `Engine.aggregateIf` applies the consequents whose strength
passes it, and the loops of defuzzification are the same loops over it. With the test that the
strength is above 0 they are those of the engine (`defuzzifyIf_pos`), and with the test that every
strength passes no rule is skipped.

What is proved of aggregation and of its loops for any test serves both.
-/

set_option autoImplicit false

namespace FuzzyInference.Engine

variable {α : Type} [Scalar α] (test : α → Prop) [DecidablePred test]

/-- Applies a consequent, unless the strength of its rule fails the test or `only` names another
output. -/
def applyConsequentIf (only : Option Nat) (e : Engine α) (c : Consequent) : Engine α :=
  let strength := e.strengths[c.rule]?.getD 0
  if test strength ∧ only.all (fun o => o = c.assertion.tag) then
    match e.outputMemberships[c.assertion.reference.index]? with
    | some m =>
        { e with
          outputs := e.outputs.modify c.assertion.tag
            (e.contribute m c.assertion.reference strength) }
    | none => e
  else e

/-- Folds the consequents that pass the test into the outputs, or into one output only. -/
def aggregateIf (only : Option Nat) (e : Engine α) : Outcome α :=
  let walk := e.consequences
  (walk.consequents.foldl (applyConsequentIf test only) e, walk.outcome.mapError .walk)

/-- Takes `left` samples of all outputs together, the first of them with number `k`. -/
def sampleIf (points : Nat) : (left k : Nat) → Engine α → Outcome α
  | 0, _, e => (e, .ok ())
  | left + 1, k, e =>
      Outcome.andThen (aggregateIf test none (e.mapOutputs (Output.beginSample k points))) fun e =>
        sampleIf points left (k + 1) (e.mapOutputs (Output.takeSample e.config.method k))

/-- Samples one output again until half of its area is reached or no sample is left. -/
def halveIf (o points : Nat) : (left k : Nat) → Engine α → Outcome α
  | 0, _, e => (e, .ok ())
  | left + 1, k, e =>
      Outcome.andThen (aggregateIf test (some o) (e.modifyOutput o (Output.beginSample k points)))
        fun e =>
          if (e.scan o).2 then ((e.scan o).1, .ok ())
          else halveIf o points left (k + 1) (e.scan o).1

/-- The second sweep of the bisector over the given outputs, one after the other. -/
def bisectIf (points : Nat) : List Nat → Engine α → Outcome α
  | [], e => (e, .ok ())
  | o :: os, e =>
      Outcome.andThen (halveIf test o points points 0 (e.modifyOutput o fun out =>
        { out with accumulator := out.accumulator.beginBisection })) (bisectIf points os)

/-- Fills the accumulators of all outputs. -/
def accumulateIf (e : Engine α) : Outcome α :=
  match e.architecture with
  | .sugeno | .tsukamoto => aggregateIf test none e
  | .mamdani =>
      Outcome.andThen (sampleIf test e.config.evalPoints e.config.evalPoints 0 e) fun e' =>
        if e'.config.method = .bisector then
          bisectIf test e.config.evalPoints (List.range e'.outputs.length) e'
        else (e', .ok ())

theorem accumulateIf_mamdani {e : Engine α} (h : e.architecture = .mamdani) :
    accumulateIf test e =
      Outcome.andThen (sampleIf test e.config.evalPoints e.config.evalPoints 0 e) fun e' =>
        if e'.config.method = .bisector then
          bisectIf test e.config.evalPoints (List.range e'.outputs.length) e'
        else (e', .ok ()) := by
  rw [accumulateIf, h]

theorem accumulateIf_weighted {e : Engine α} (h : e.architecture ≠ .mamdani) :
    accumulateIf test e = aggregateIf test none e := by
  cases ha : e.architecture with
  | mamdani => exact absurd ha h
  | sugeno => rw [accumulateIf, ha]
  | tsukamoto => rw [accumulateIf, ha]

/-- Turns the strengths of the rules into a crisp value per output. -/
def defuzzifyIf (e : Engine α) : Outcome α :=
  if e.status = .succeeded then
    Outcome.andThen (accumulateIf test (e.mapOutputs (Output.reset e.config.method))) fun e' =>
      (e'.mapOutputs (Output.settle e'.config.method), .ok ())
  else (e, .error .inferenceNotValid)

/-! ## The test of the engine -/

section Positive

/-- The engine's own aggregation asks for a strength above 0. -/
theorem aggregateIf_pos : aggregateIf (α := α) (fun s => 0 < s) = aggregate := rfl

theorem sampleIf_pos (points left k : Nat) (e : Engine α) :
    sampleIf (fun s => 0 < s) points left k e = sample points left k e := by
  induction left generalizing k e with
  | zero => rfl
  | succ left ih =>
      rw [sampleIf, sample_succ, aggregateIf_pos]
      simp only [ih]

theorem halveIf_pos (o points left k : Nat) (e : Engine α) :
    halveIf (fun s => 0 < s) o points left k e = halve o points left k e := by
  induction left generalizing k e with
  | zero => rfl
  | succ left ih =>
      rw [halveIf, halve_succ, aggregateIf_pos]
      simp only [ih]

theorem bisectIf_pos (points : Nat) (os : List Nat) (e : Engine α) :
    bisectIf (fun s => 0 < s) points os e = bisect points os e := by
  induction os generalizing e with
  | nil => rfl
  | cons o os ih =>
      rw [bisectIf, bisect_cons, halveIf_pos]
      simp only [Outcome.andThen, ih]

theorem accumulateIf_pos (e : Engine α) : accumulateIf (fun s => 0 < s) e = e.accumulate := by
  by_cases harch : e.architecture = .mamdani
  · rw [accumulate_mamdani harch, accumulateIf_mamdani _ harch]
    simp only [sampleIf_pos, bisectIf_pos]
  · rw [accumulate_weighted harch, accumulateIf_weighted _ harch, aggregateIf_pos]

theorem defuzzifyIf_pos (e : Engine α) : defuzzifyIf (fun s => 0 < s) e = e.defuzzify := by
  by_cases hstatus : e.status = .succeeded
  · rw [defuzzify_succeeded hstatus, defuzzifyIf, if_pos hstatus]
    simp only [accumulateIf_pos]
  · rw [defuzzify_refused hstatus, defuzzifyIf, if_neg hstatus]

end Positive

end FuzzyInference.Engine
