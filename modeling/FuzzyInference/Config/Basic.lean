import FuzzyInference.Error

/-!
# Configurations

A configuration binds an operator to each role, selects the defuzzification method and sets the
number of points at which an output is sampled. It says nothing about rules or membership
functions.

A `Draft` leaves settings open; building it fills them from a preset. Neither a draft nor a
configuration is checked when it is made: `Config.check` does that against an architecture.
-/

set_option autoImplicit false

namespace FuzzyInference

/-- The parameters of an engine. -/
structure Config where
  andOperator : Operator
  orOperator : Operator
  implication : Operator
  aggregation : Operator
  method : Method
  /-- The number of samples per output of a Mamdani system. -/
  evalPoints : Nat
  deriving DecidableEq

namespace Config

/-- The number of samples for which none was chosen. -/
def defaultEvalPoints : Nat := 100

/-- Minimum and maximum, with the centroid. -/
def mamdaniClassic : Config where
  andOperator := .min
  orOperator := .max
  implication := .min
  aggregation := .max
  method := .centroid
  evalPoints := defaultEvalPoints

/-- Product and probabilistic sum, with the centroid. -/
def mamdaniProduct : Config where
  andOperator := .product
  orOperator := .probabilisticOr
  implication := .product
  aggregation := .probabilisticOr
  method := .centroid
  evalPoints := defaultEvalPoints

/-- Minimum and maximum, with the weighted average. -/
def sugenoWeightedAverage : Config := { mamdaniClassic with method := .weightedAverage }

/-- Minimum and maximum, with the method that an architecture takes by default. -/
def forArchitecture (architecture : Architecture) : Config :=
  { mamdaniClassic with method := .default architecture }

/-- The operator bound to a role. -/
def operator (c : Config) : Role → Operator
  | .and => c.andOperator
  | .or => c.orOperator
  | .implication => c.implication
  | .aggregation => c.aggregation

/-- Binds an operator to a role, whether the role admits it or not. -/
def bind (c : Config) (op : Operator) : Role → Config
  | .and => { c with andOperator := op }
  | .or => { c with orOperator := op }
  | .implication => { c with implication := op }
  | .aggregation => { c with aggregation := op }

section Checks

variable {α : Type}

/-- Binds an operator to a role that admits it. -/
def withOperator (c : Config) (role : Role) (op : Operator) : Except (EngineError α) Config :=
  if role.accepts op then .ok (c.bind op role) else .error (.operatorNotAllowed role op)

/-- Checks the binding of one role. -/
def checkRole (c : Config) (role : Role) : Except (EngineError α) Unit :=
  if role.accepts (c.operator role) then .ok ()
  else .error (.operatorNotAllowed role (c.operator role))

/-- Checks every setting against an architecture, and reports the first that does not fit: the
roles in order, then the method, then the number of samples. -/
def check (c : Config) (architecture : Architecture) : Except (EngineError α) Unit := do
  Role.all.forM c.checkRole
  if c.method.supports architecture then
    if c.evalPoints = 0 then .error .noEvalPoints else .ok ()
  else .error (.methodNotSupported c.method architecture)

end Checks

/-- A configuration with open settings. -/
structure Draft where
  andOperator : Option Operator
  orOperator : Option Operator
  implication : Option Operator
  aggregation : Option Operator
  method : Option Method
  evalPoints : Option Nat

namespace Draft

/-- The draft in which everything is open. -/
def blank : Draft := ⟨none, none, none, none, none, none⟩

/-- Fills the open settings from a configuration. -/
def buildOn (d : Draft) (base : Config) : Config where
  andOperator := d.andOperator.getD base.andOperator
  orOperator := d.orOperator.getD base.orOperator
  implication := d.implication.getD base.implication
  aggregation := d.aggregation.getD base.aggregation
  method := d.method.getD base.method
  evalPoints := d.evalPoints.getD base.evalPoints

/-- Fills the open settings from the classic preset. -/
def build (d : Draft) : Config := d.buildOn mamdaniClassic

/-- Fills the open settings from the defaults of an architecture. -/
def buildFor (d : Draft) (architecture : Architecture) : Config :=
  d.buildOn (forArchitecture architecture)

end Draft

end Config

end FuzzyInference
