import FuzzyInference.Rule.Clause

/-!
# Rules

A rule has a premise, one or more assertions about inputs joined by AND and OR, and one or more
consequents, assertions about outputs. `Rule.encode` writes a rule as stream items, and
`Rule.stream` writes a rule base as a whole stream.
-/

set_option autoImplicit false

namespace FuzzyInference

/-- The two ways to join antecedents. They are applied from left to right, without precedence. -/
inductive Connective where
  | and
  | or
  deriving DecidableEq

/-- The sentinel that writes a connective. -/
def Connective.sentinel : Connective → Sentinel
  | .and => .and
  | .or => .or

/-- A fuzzy rule. -/
structure Rule where
  /-- The first antecedent. -/
  antecedent : Assertion
  /-- The further antecedents, each with the connective in front of it. -/
  joined : List (Connective × Assertion)
  /-- The first consequent. -/
  consequent : Assertion
  /-- The further consequents. -/
  further : List Assertion
  deriving DecidableEq

/-- The two items of an assertion. -/
def Assertion.encode (a : Assertion) : List Int := [(a.tag : Int), a.reference.code]

/-- Whether an assertion names entries of the tables. -/
def Assertion.Within (limits : Limits) (a : Assertion) : Prop :=
  a.tag < limits.tags ∧ a.reference.index < limits.memberships

namespace Rule

/-- The antecedents in order. -/
def antecedents (r : Rule) : List Assertion := r.antecedent :: r.joined.map Prod.snd

/-- The consequents in order. -/
def consequents (r : Rule) : List Assertion := r.consequent :: r.further

/-- The items of a premise. -/
def encodePremise (w : Width) (r : Rule) : List Int :=
  r.antecedent.encode ++ r.joined.flatMap fun j => j.1.sentinel.code w :: j.2.encode

/-- The items of the consequents. -/
def encodeConsequents (w : Width) (r : Rule) : List Int :=
  r.consequent.encode ++ r.further.flatMap fun a => Sentinel.and.code w :: a.encode

/-- The items of a rule. -/
def encode (w : Width) (r : Rule) : List Int :=
  r.encodePremise w ++ Sentinel.implies.code w :: r.encodeConsequents w

/-- The stream of a rule base. -/
def stream (w : Width) (rules : List Rule) : List Int :=
  Sentinel.opening.code w :: rules.flatMap (encode w) ++ [Sentinel.closing.code w]

end Rule

end FuzzyInference
