import FuzzyInference.Rule.Clause

/-!
# Walks over a rule stream

Two machines read the same stream: one composes the premises into strengths, one visits the
consequents. Each is a pure transition function that looks at no number but the items. A
`Walk` is the record of a whole run: the steps in order, the number of rules completed, and
how the run ended.

Because the record holds the position, the rule number and the clause of every step, all that
a run reads is visible in it; degrees and strengths are folded over the steps afterwards.
-/

set_option autoImplicit false

namespace FuzzyInference

/-- One transition of a machine with states `σ` and effects `ε`. -/
structure Transition (σ ε : Type) where
  next : σ
  effect : ε
  /-- The number of items taken from the stream. -/
  advance : Nat
  deriving DecidableEq

/-- Why a walk fails. -/
inductive WalkFault where
  | malformed (fault : StreamFault)
  /-- The stream holds another number of rules than the system is configured for. -/
  | ruleCount (expected parsed : Nat)
  deriving DecidableEq

/-- The record of a run over the stream. -/
structure Walk (step : Type) where
  steps : List step
  /-- The number of rules completed. -/
  completed : Nat
  outcome : Except WalkFault Unit

namespace Walk

variable {step : Type}

/-- The run that ends without a step. -/
def stop (completed : Nat) (outcome : Except WalkFault Unit) : Walk step :=
  ⟨[], completed, outcome⟩

/-- The run that makes a step first. -/
def after (s : step) (rest : Walk step) : Walk step :=
  { rest with steps := s :: rest.steps }

end Walk

/-- The numbers of table entries that a stream can name. -/
structure Sizes where
  inputs : Nat
  inputMemberships : Nat
  outputs : Nat
  outputMemberships : Nat
  deriving DecidableEq

namespace Sizes

/-- The limits of a premise. -/
def input (s : Sizes) : Limits := ⟨.input, s.inputs, s.inputMemberships⟩

/-- The limits of a consequent. -/
def output (s : Sizes) : Limits := ⟨.output, s.outputs, s.outputMemberships⟩

end Sizes

end FuzzyInference
