import FuzzyInference.Engine.Command

/-!
# Controllers

A controller owns its tables, its configuration and its rule weights, and lends the tables to an
engine for the time of one call. What such an engine does to the tables persists. Its
configuration persists only through `Controller.configure`, and only if the whole configuration
succeeds; weights set through an engine end with it.
-/

set_option autoImplicit false

namespace FuzzyInference

/-- A fuzzy system that owns its tables. The number of its rules is the number of its strength
slots. -/
structure Controller (α : Type) where
  width : Width
  architecture : Architecture
  config : Config
  tables : Tables α
  rules : List Int
  weights : Option (List α)

namespace Controller

variable {α : Type}

/-- A call on a controller: the controller that it leaves behind, and the result or the error. -/
abbrev Call (α β : Type) : Type := Controller α × Except (EngineError α) β

/-- An engine on the controller's tables. -/
def engine (s : Controller α) : Except (EngineError α) (Engine α) := do
  let e ← Engine.setup s.width s.architecture s.tables s.rules s.tables.strengths.length s.config
  match s.weights with
  | some weights => e.setWeights weights
  | none => return e

variable [Scalar α]

/-- A controller with tables of the given lengths and `ruleCount` rules. -/
def build (w : Width) (architecture : Architecture) (sizes : Sizes) (ruleCount : Nat)
    (rules : List Int) (config : Config) : Except (EngineError α) (Controller α) := do
  let s : Controller α := ⟨w, architecture, config, .blank sizes ruleCount, rules, none⟩
  let _ ← s.engine
  return s

/-- Works with an engine and keeps what it does to the tables. -/
def session {β : Type} (s : Controller α) (work : Engine α → Engine α × β) : Call α β :=
  match s.engine with
  | .error err => (s, .error err)
  | .ok e =>
      let (e, result) := work e
      ({ s with tables := e.toTables }, .ok result)

/-- Works with an engine and keeps its configuration too, if the work succeeds. -/
def configure (s : Controller α) (work : Engine α → Engine.Outcome α) : Call α Unit :=
  match s.session fun e => let (e, result) := work e; (e, e.config, result) with
  | (s, .error err) => (s, .error err)
  | (s, .ok (config, .ok ())) => ({ s with config }, .ok ())
  | (s, .ok (_, .error err)) => (s, .error err)

/-- Replaces the configuration, if it fits the architecture. -/
def setConfig (s : Controller α) (config : Config) : Call α Unit :=
  match config.check s.architecture with
  | .ok () => ({ s with config }, .ok ())
  | .error err => (s, .error err)

/-- Sets the rule weights that every engine of the controller is given. -/
def setWeights (s : Controller α) (weights : List α) : Controller α :=
  { s with weights := some weights }

/-- One whole cycle on the given input values. The values are in the tables even if it fails. -/
def evaluate (s : Controller α) (values : List α) : Call α (List α) :=
  let s := { s with tables := { s.tables with inputs := Variable.assign s.tables.inputs values } }
  match s.session fun e => e.runUntilError [.fuzzify, .inference, .defuzzify] with
  | (s, .ok (.ok ())) => (s, .ok (s.tables.outputs.map fun o => o.value))
  | (s, .ok (.error err)) | (s, .error err) => (s, .error err)

/-- The crisp value of an output. -/
def output (s : Controller α) (tag : Int) : Option α :=
  if 0 ≤ tag then s.tables.outputs[tag.toNat]?.map fun o => o.value else none

/-- The strength of a rule at the last inference. -/
def ruleStrength (s : Controller α) (rule : Nat) : Option α := s.tables.strengths[rule]?

end Controller

end FuzzyInference
