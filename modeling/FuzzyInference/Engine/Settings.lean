import FuzzyInference.Engine.Basic

/-!
# Settings of an engine

Each setting checks its arguments first and gives either the changed engine or the reason why it
is refused, so a refused setting changes nothing.
-/

set_option autoImplicit false

namespace FuzzyInference.Engine

variable {α : Type} [Scalar α]

/-- Checks a range. Its ends must be defined and in order. -/
def checkRange (lower upper : α) : Except (EngineError α) Unit :=
  if Scalar.IsNaN lower ∨ Scalar.IsNaN upper ∨ upper ≤ lower then
    .error (.invalidRange lower upper)
  else .ok ()

/-- Checks that a shape fits a side of the system and has its coefficients. -/
def checkShape (e : Engine α) (side : Side) (shape : Shape α) (coefficients : List α) :
    Except (EngineError α) Unit :=
  if shape.allowed side e.architecture then
    if coefficients.length < shape.arity e.inputs.length then
      .error (.missingCoefficients shape.name (shape.arity e.inputs.length) coefficients.length)
    else .ok ()
  else .error (.shapeNotAllowed shape.name side e.architecture)

/-- Sets the range of an input. -/
def setupInput (e : Engine α) (tag : Int) (lower upper : α) :
    Except (EngineError α) (Engine α) := do
  let i ← slot .input tag e.inputs.length
  checkRange lower upper
  return { e with inputs := e.inputs.modify i fun v => { v with lower, upper } }

/-- Sets the range of an output. -/
def setupOutput (e : Engine α) (tag : Int) (lower upper : α) :
    Except (EngineError α) (Engine α) := do
  let o ← slot .output tag e.outputs.length
  checkRange lower upper
  return { e with outputs := e.outputs.modify o fun out => { out with lower, upper } }

/-- Attaches an input membership function to an input. -/
def setInputMembership (e : Engine α) (input tag : Int) (shape : Shape α)
    (coefficients : List α) (height : α) : Except (EngineError α) (Engine α) := do
  let i ← slot .input input e.inputs.length
  let m ← membershipSlot tag e.inputMemberships.length
  e.checkShape .input shape coefficients
  return { e with
    inputMemberships := e.inputMemberships.set m (.attached i shape coefficients height) }

/-- Attaches an output membership function to an output. Only Mamdani consequents are scaled by
the height. -/
def setOutputMembership (e : Engine α) (output tag : Int) (shape : Shape α)
    (coefficients : List α) (height : α) : Except (EngineError α) (Engine α) := do
  let o ← slot .output output e.outputs.length
  let m ← membershipSlot tag e.outputMemberships.length
  e.checkShape .output shape coefficients
  return { e with
    outputMemberships := e.outputMemberships.set m (.attached o shape coefficients height) }

/-- Binds an operator to a role. -/
def setOperator (e : Engine α) (role : Role) (op : Operator) :
    Except (EngineError α) (Engine α) := do
  return { e with config := ← e.config.withOperator role op }

/-- Selects the defuzzification method. -/
def setMethod (e : Engine α) (m : Method) : Except (EngineError α) (Engine α) :=
  if m.supports e.architecture then .ok { e with config := { e.config with method := m } }
  else .error (.methodNotSupported m e.architecture)

/-- Checks that a region can hold a number of samples. -/
def checkRegion (points : Nat) (r : Region α) : Except (EngineError α) Unit :=
  if r.capacity < points then .error (.regionTooShort points r.capacity) else .ok ()

/-- Sets the number of samples per output. Every attached region must be able to hold them. -/
def setEvalPoints (e : Engine α) (points : Nat) : Except (EngineError α) (Engine α) := do
  if points = 0 then throw .noEvalPoints
  (e.outputs.filterMap Output.region).forM (checkRegion points)
  return { e with config := { e.config with evalPoints := points } }

/-- Sets external weights of the rules. -/
def setWeights (e : Engine α) (weights : List α) : Except (EngineError α) (Engine α) :=
  if weights.length < e.ruleCount then .error (.weightsTooShort e.ruleCount weights.length)
  else .ok { e with weights := some weights }

/-- Attaches a region that records the sampled curve of an output. -/
def storeRegion (e : Engine α) (tag : Int) (region : Region α) :
    Except (EngineError α) (Engine α) := do
  let o ← slot .output tag e.outputs.length
  checkRegion e.config.evalPoints region
  return { e with outputs := e.outputs.modify o fun out => { out with region := some region } }

/-- Sets the value of an input. It is confined to the range by the next fuzzification. -/
def setInput (e : Engine α) (tag : Int) (value : α) : Except (EngineError α) (Engine α) := do
  let i ← slot .input tag e.inputs.length
  return { e with inputs := e.inputs.modify i fun v => { v with value } }

end FuzzyInference.Engine
