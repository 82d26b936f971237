import FuzzyInference.Rule.Basic
import FuzzyInference.Walk.Basic

/-!
# The premise walk

The first machine reads whole rules. In `premise` it reads antecedents and remembers the
connective in front of the next one; in `consequents` it reads the consequents and closes the
rule at the last of them. The end of a consequent list is recognised by its follower: any token
but AND closes the rule, and is then the first token of the next rule or the end.

`premiseWalk` recurses on the stream item by item; a clause of two or three items is taken by
skipping the items after its first one.
-/

set_option autoImplicit false

namespace FuzzyInference

/-- The states of the premise machine. -/
inductive PremiseState where
  /-- Reading antecedents; `joined` is the connective in front of the current one, and none at
  the first. -/
  | premise (joined : Option Connective)
  | consequents
  deriving DecidableEq

/-- What a step of the premise machine asks for. -/
inductive PremiseEffect where
  /-- Compose the degree of the clause into the strength of the rule. -/
  | compose (joined : Option Connective)
  /-- A consequent with another one behind it. -/
  | proceed
  /-- The last consequent: the rule is complete. -/
  | closeRule
  deriving DecidableEq

/-- Reading starts at the first antecedent of a rule. -/
def PremiseState.start : PremiseState := .premise none

/-- One transition of the premise machine on the clause at `index`. An antecedent must be
followed by AND, OR or THEN; a consequent may be followed by anything. -/
def PremiseState.step (w : Width) (clause : Clause) (index : Nat) :
    PremiseState → Except StreamFault (Transition PremiseState PremiseEffect)
  | .premise joined =>
      match clause.follow with
      | .sentinel .and => .ok ⟨.premise (some .and), .compose joined, 3⟩
      | .sentinel .or => .ok ⟨.premise (some .or), .compose joined, 3⟩
      | .sentinel .implies => .ok ⟨.consequents, .compose joined, 3⟩
      | other => .error (.unexpectedItem (index + 2) (other.code w))
  | .consequents =>
      if clause.follow = .sentinel .and then .ok ⟨.consequents, .proceed, 3⟩
      else .ok ⟨.start, .closeRule, 2⟩

/-- The tables that the clause of a state names. -/
def PremiseState.limits (sizes : Sizes) : PremiseState → Limits
  | .premise _ => sizes.input
  | .consequents => sizes.output

/-- A step of the premise walk. -/
structure PremiseStep where
  /-- The position of the clause. -/
  index : Nat
  /-- The number of the rule it belongs to. -/
  rule : Nat
  state : PremiseState
  clause : Clause
  effect : PremiseEffect
  deriving DecidableEq

/-- The number of completed rules after an effect. -/
def PremiseEffect.count (completed : Nat) : PremiseEffect → Nat
  | .closeRule => completed + 1
  | _ => completed

/-- The walk over the items from `index` on, of which the first `skip` are already taken. It
goes on until `rules` rules are complete or the closing sentinel is met, and succeeds if both
happen together. -/
def premiseWalkFrom (w : Width) (sizes : Sizes) (rules : Nat) :
    List Int → (skip index completed : Nat) → PremiseState → Walk PremiseStep
  | [], skip, index, completed, _ =>
      .stop completed (.error (.malformed (.truncated (index + skip))))
  | _ :: items, skip + 1, index, completed, state =>
      premiseWalkFrom w sizes rules items skip (index + 1) completed state
  | item :: items, 0, index, completed, state =>
      if completed < rules then
        if Token.ofItem w item = .sentinel .closing then
          .stop completed (.error (.ruleCount rules completed))
        else
          match Clause.first w (state.limits sizes) index (item :: items) with
          | .error fault => .stop completed (.error (.malformed fault))
          | .ok clause =>
              match state.step w clause index with
              | .error fault => .stop completed (.error (.malformed fault))
              | .ok t =>
                  (premiseWalkFrom w sizes rules items (t.advance - 1) (index + 1)
                    (t.effect.count completed) t.next).after
                    ⟨index, completed, state, clause, t.effect⟩
      else if Token.ofItem w item = .sentinel .closing then .stop completed (.ok ())
      else .stop completed (.error (.ruleCount rules completed))

/-- The premise walk over a whole stream. -/
def premiseWalk (w : Width) (sizes : Sizes) (rules : Nat) (stream : List Int) :
    Walk PremiseStep :=
  match checkOpening w stream with
  | .error fault => .stop 0 (.error (.malformed fault))
  | .ok () => premiseWalkFrom w sizes rules (stream.drop 1) 0 1 0 .start

end FuzzyInference
