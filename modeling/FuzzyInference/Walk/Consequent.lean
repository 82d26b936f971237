import FuzzyInference.Walk.Basic

/-!
# The consequent walk

The second machine skips a premise item by item until THEN, and then reads consequents up to
the one that is not followed by AND. It validates nothing in a premise.

`Walk.consequents` lists the consequents that a walk visits, each with its position and the
number of its rule.
-/

set_option autoImplicit false

namespace FuzzyInference

/-- The states of the consequent machine. -/
inductive ConsequentState where
  /-- Skipping a premise. -/
  | seeking
  /-- Reading consequents. -/
  | applying
  deriving DecidableEq

/-- What a step of the consequent machine asks for. -/
inductive ConsequentEffect where
  | skip
  /-- Apply the clause; `closesRule` says that it is the last one of its rule. -/
  | apply (closesRule : Bool)
  deriving DecidableEq

/-- The transition on a token of a premise. -/
def ConsequentState.seek (token : Token) : Transition ConsequentState ConsequentEffect :=
  if token = .sentinel .implies then ⟨.applying, .skip, 1⟩ else ⟨.seeking, .skip, 1⟩

/-- The transition on a consequent. -/
def ConsequentState.apply (clause : Clause) : Transition ConsequentState ConsequentEffect :=
  if clause.follow = .sentinel .and then ⟨.applying, .apply false, 3⟩
  else ⟨.seeking, .apply true, 2⟩

/-- A step of the consequent walk. A step that skips an item has no clause. -/
structure ConsequentStep where
  index : Nat
  rule : Nat
  clause? : Option Clause
  effect : ConsequentEffect
  deriving DecidableEq

/-- The rule number after an effect. -/
def ConsequentEffect.count (rule : Nat) : ConsequentEffect → Nat
  | .apply true => rule + 1
  | _ => rule

/-- The walk over the items from `index` on, of which the first `skip` are already taken, up to
the closing sentinel or the end of the last of `rules` rules. -/
def consequentWalkFrom (w : Width) (sizes : Sizes) (rules : Nat) :
    List Int → (skip index rule : Nat) → ConsequentState → Walk ConsequentStep
  | [], skip, index, rule, _ =>
      if rule < rules then .stop rule (.error (.malformed (.truncated (index + skip))))
      else .stop rule (.ok ())
  | _ :: items, skip + 1, index, rule, state =>
      consequentWalkFrom w sizes rules items skip (index + 1) rule state
  | item :: items, 0, index, rule, state =>
      if rule < rules then
        if Token.ofItem w item = .sentinel .closing then .stop rule (.ok ())
        else
          match state with
          | .seeking =>
              let t := ConsequentState.seek (Token.ofItem w item)
              (consequentWalkFrom w sizes rules items (t.advance - 1) (index + 1)
                (t.effect.count rule) t.next).after ⟨index, rule, none, t.effect⟩
          | .applying =>
              match Clause.first w sizes.output index (item :: items) with
              | .error fault => .stop rule (.error (.malformed fault))
              | .ok clause =>
                  let t := ConsequentState.apply clause
                  (consequentWalkFrom w sizes rules items (t.advance - 1) (index + 1)
                    (t.effect.count rule) t.next).after ⟨index, rule, some clause, t.effect⟩
      else .stop rule (.ok ())

/-- The consequent walk over a whole stream. -/
def consequentWalk (w : Width) (sizes : Sizes) (rules : Nat) (stream : List Int) :
    Walk ConsequentStep :=
  consequentWalkFrom w sizes rules (stream.drop 1) 0 1 0 .seeking

/-- A consequent with its place in the stream. -/
structure Consequent where
  index : Nat
  rule : Nat
  assertion : Assertion
  deriving DecidableEq

/-- The consequent that a step applies. -/
def ConsequentStep.consequent? (s : ConsequentStep) : Option Consequent :=
  s.clause?.map fun c => ⟨s.index, s.rule, c.toAssertion⟩

/-- The consequents that a walk visits, in order. -/
def Walk.consequents (walk : Walk ConsequentStep) : List Consequent :=
  walk.steps.filterMap ConsequentStep.consequent?

end FuzzyInference
