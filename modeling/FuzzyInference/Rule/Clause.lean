import FuzzyInference.Architecture
import FuzzyInference.Rule.Reference

/-!
# Reading clauses

A clause is a tag and a reference, `tag IS [NOT] membership`, read together with the token that
follows it. Reading checks every item before it is used: a tag and a reference must lie inside
the tables they name (`Limits`), and every failure is a `StreamFault` that says where the stream
went wrong.

The functions on a suffix of the stream (`Token.first`, `Clause.first`) take the position of
its first item; `Token.read` and `Clause.read` read at a position of the whole stream.
-/

set_option autoImplicit false

namespace FuzzyInference

/-- What a clause says: a variable is, or is not, a fuzzy set. -/
structure Assertion where
  tag : Nat
  reference : Reference
  deriving DecidableEq

/-- A clause as it stands in a stream. -/
structure Clause extends Assertion where
  /-- The token after the clause. -/
  follow : Token
  deriving DecidableEq

/-- A defect of a rule stream. -/
inductive StreamFault where
  | missingOpening
  /-- The stream stops at `index`, where an item is needed. -/
  | truncated (index : Nat)
  /-- The item at `index` cannot stand there. -/
  | unexpectedItem (index : Nat) (found : Int)
  | tagOutOfRange (index : Nat) (side : Side) (tag : Int) (count : Nat)
  | referenceOutOfRange (index : Nat) (reference : Int) (count : Nat)
  deriving DecidableEq

/-- The tables that a clause is checked against. -/
structure Limits where
  side : Side
  tags : Nat
  memberships : Nat
  deriving DecidableEq

/-- The first token of a suffix that starts at `index`. -/
def Token.first (w : Width) (index : Nat) : List Int → Except StreamFault Token
  | [] => .error (.truncated index)
  | value :: _ => .ok (Token.ofItem w value)

/-- The token at a position of the stream. -/
def Token.read (w : Width) (stream : List Int) (index : Nat) : Except StreamFault Token :=
  Token.first w index (stream.drop index)

/-- Checks the tag at `index`. -/
def Limits.tag (limits : Limits) (w : Width) (index : Nat) : Token → Except StreamFault Nat
  | .item value =>
      if 0 ≤ value ∧ value < limits.tags then .ok value.toNat
      else .error (.tagOutOfRange index limits.side value limits.tags)
  | .sentinel s => .error (.unexpectedItem index (s.code w))

/-- Checks the reference at `index`. -/
def Limits.reference (limits : Limits) (w : Width) (index : Nat) :
    Token → Except StreamFault Reference
  | .item value =>
      match Reference.ofItem? w value with
      | some r =>
          if r.index < limits.memberships then .ok r
          else .error (.referenceOutOfRange index value limits.memberships)
      | none => .error (.referenceOutOfRange index value limits.memberships)
  | .sentinel s => .error (.unexpectedItem index (s.code w))

/-- Reads the clause at the head of a suffix that starts at `index`. -/
def Clause.first (w : Width) (limits : Limits) (index : Nat) (items : List Int) :
    Except StreamFault Clause := do
  let tag ← limits.tag w index (← Token.first w index items)
  let reference ← limits.reference w (index + 1) (← Token.first w (index + 1) (items.drop 1))
  let follow ← Token.first w (index + 2) (items.drop 2)
  return { tag, reference, follow }

/-- Reads the clause at a position of the stream. -/
def Clause.read (w : Width) (limits : Limits) (stream : List Int) (index : Nat) :
    Except StreamFault Clause :=
  Clause.first w limits index (stream.drop index)

/-- Checks that a stream starts with the opening sentinel. -/
def checkOpening (w : Width) (stream : List Int) : Except StreamFault Unit :=
  if Token.read w stream 0 matches .ok (.sentinel .opening) then .ok ()
  else .error .missingOpening

end FuzzyInference
