import FuzzyInference.Rule.Item
import FuzzyInference.Scalar

/-!
# References to membership functions

A reference names a membership function by its position in a table and says whether it is
negated, as in IS NOT. In a stream it is the position plus one, with a minus sign when it is
negated, so that zero is no reference.
-/

set_option autoImplicit false

namespace FuzzyInference

/-- A membership function of one side, taken as it is or negated. -/
structure Reference where
  index : Nat
  negated : Bool
  deriving DecidableEq

namespace Reference

/-- The item that stands for a reference. -/
def code (r : Reference) : Int :=
  if r.negated then -(r.index + 1 : Int) else r.index + 1

/-- Encodes a membership tag. A tag outside the range that the width can name has no code: it
would collide with a sentinel or leave the width. -/
def encode? (w : Width) (tag : Int) (negated : Bool) : Option Int :=
  if 0 ≤ tag ∧ tag < w.maxReference then some (code ⟨tag.toNat, negated⟩) else none

/-- What is reported of a membership tag that has no code. -/
def unencodable : String := "membership tag out of encodable range"

/-- Reads a reference. Zero and the sentinels are none. -/
def ofItem? (w : Width) (item : Int) : Option Reference :=
  if item = 0 ∨ (Token.ofItem w item).isSentinel = true then none
  else some ⟨item.natAbs - 1, decide (item < 0)⟩

/-- The degree of what the reference names, given the degree of the function itself: a negated
reference has the complement. -/
def polarize {α : Type} [Scalar α] (r : Reference) (degree : α) : α :=
  if r.negated then 1 - degree else degree

end Reference

end FuzzyInference
