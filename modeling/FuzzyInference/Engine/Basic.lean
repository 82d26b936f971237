import FuzzyInference.Config.Basic
import FuzzyInference.Membership
import FuzzyInference.Output
import FuzzyInference.Walk.Consequent
import FuzzyInference.Walk.Premise

/-!
# Engines

An engine binds tables, a rule stream and a configuration. `Engine.setup` checks that the tables
are neither empty nor larger than the stream can name, that there is a slot for the strength of
every rule, and that the configuration fits the architecture.

The tables outlive an engine. `Tables.lend` gives an engine the first entries of each table, and
`Tables.restore` takes them back.
-/

set_option autoImplicit false

namespace FuzzyInference

/-- The tables that an engine works on. -/
structure Tables (α : Type) where
  inputs : List (Variable α)
  outputs : List (Output α)
  inputMemberships : List (Membership α)
  outputMemberships : List (Membership α)
  /-- A slot for the strength of each rule. -/
  strengths : List α

namespace Tables

variable {α : Type}

/-- Tables of the given lengths in which nothing has been set up. -/
def blank [Scalar α] (sizes : Sizes) (strengths : Nat) : Tables α where
  inputs := List.replicate sizes.inputs .blank
  outputs := List.replicate sizes.outputs .blank
  inputMemberships := List.replicate sizes.inputMemberships .blank
  outputMemberships := List.replicate sizes.outputMemberships .blank
  strengths := List.replicate strengths 0

/-- The numbers of entries that a stream can name. -/
def sizes (t : Tables α) : Sizes where
  inputs := t.inputs.length
  inputMemberships := t.inputMemberships.length
  outputs := t.outputs.length
  outputMemberships := t.outputMemberships.length

/-- The first entries of each table. All strengths are lent. -/
def lend (t : Tables α) (sizes : Sizes) : Tables α where
  inputs := t.inputs.take sizes.inputs
  outputs := t.outputs.take sizes.outputs
  inputMemberships := t.inputMemberships.take sizes.inputMemberships
  outputMemberships := t.outputMemberships.take sizes.outputMemberships
  strengths := t.strengths

/-- The whole tables after `lent`, the first entries of each, come back. -/
def restore (t lent : Tables α) : Tables α where
  inputs := lent.inputs ++ t.inputs.drop lent.inputs.length
  outputs := lent.outputs ++ t.outputs.drop lent.outputs.length
  inputMemberships := lent.inputMemberships ++ t.inputMemberships.drop lent.inputMemberships.length
  outputMemberships :=
    lent.outputMemberships ++ t.outputMemberships.drop lent.outputMemberships.length
  strengths := lent.strengths

end Tables

/-- What is known of the last inference. -/
inductive Status where
  /-- None since the engine was set up or since the last fuzzification. -/
  | notRun
  | succeeded
  | failed
  deriving DecidableEq

/-- A fuzzy inference engine. -/
structure Engine (α : Type) extends Tables α where
  width : Width
  architecture : Architecture
  config : Config
  rules : List Int
  /-- External weights of the rules, 1 where none are set. -/
  weights : Option (List α)
  /-- The number of rules that the stream is configured to hold. -/
  ruleCount : Nat
  /-- The number of rules that the last inference completed. -/
  completed : Nat
  status : Status

namespace Engine

variable {α : Type}

/-- An engine after an operation, and how the operation ended. -/
abbrev Outcome (α : Type) : Type := Engine α × Except (EngineError α) Unit

/-- Checks the length of a table. -/
def checkTable (table : Table) (actual limit : Nat) : Except (EngineError α) Unit :=
  if actual = 0 then .error (.emptyTable table)
  else if limit < actual then .error (.tooManyEntries table actual limit)
  else .ok ()

/-- Binds an engine. -/
def setup (w : Width) (architecture : Architecture) (tables : Tables α) (rules : List Int)
    (ruleCount : Nat) (config : Config) : Except (EngineError α) (Engine α) := do
  checkTable .inputs tables.inputs.length w.maxTags
  checkTable .outputs tables.outputs.length w.maxTags
  checkTable .inputMemberships tables.inputMemberships.length w.maxReference
  checkTable .outputMemberships tables.outputMemberships.length w.maxReference
  if rules = [] ∨ ruleCount = 0 then throw (.emptyTable .rules)
  if tables.strengths.length < ruleCount then
    throw (.strengthsTooShort ruleCount tables.strengths.length)
  config.check architecture
  return { tables with
    width := w, architecture, config, rules, weights := none, ruleCount, completed := 0,
    status := .notRun }

/-- The position that a tag names. -/
def slot (side : Side) (tag : Int) (count : Nat) : Except (EngineError α) Nat :=
  if 0 ≤ tag ∧ tag < count then .ok tag.toNat else .error (.tagOutOfRange side tag count)

/-- The position that a membership tag names. -/
def membershipSlot (tag : Int) (count : Nat) : Except (EngineError α) Nat :=
  if 0 ≤ tag ∧ tag < count then .ok tag.toNat else .error (.membershipOutOfRange tag count)

/-- The entry that a tag names. -/
def entry {β : Type} (side : Side) (tag : Int) (table : List β) : Except (EngineError α) β :=
  match if 0 ≤ tag then table[tag.toNat]? else none with
  | some x => .ok x
  | none => .error (.tagOutOfRange side tag table.length)

variable (e : Engine α)

/-- The current value of an input. -/
def input (tag : Int) : Except (EngineError α) α :=
  (entry .input tag e.inputs).map fun v => v.value

/-- An output with all that belongs to it. -/
def outputState (tag : Int) : Except (EngineError α) (Output α) := entry .output tag e.outputs

/-- The crisp value of an output. -/
def output (tag : Int) : Except (EngineError α) α := (e.outputState tag).map fun o => o.value

/-- The strength of a rule at the last inference. -/
def ruleStrength (rule : Nat) : Option α :=
  if rule < e.ruleCount then e.strengths[rule]? else none

/-- The strengths of all rules. -/
def ruleStrengths : List α := e.strengths.take e.ruleCount

/-- The degree of an input membership function at the last fuzzification. -/
def membershipDegree (tag : Int) : Option α :=
  if 0 ≤ tag then e.inputMemberships[tag.toNat]?.map fun m => m.degree else none

end Engine

end FuzzyInference
