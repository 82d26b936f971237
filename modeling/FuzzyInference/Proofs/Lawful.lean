import FuzzyInference.Operator

/-!
# Laws of a scalar arithmetic

`Scalar.Lawful` collects the laws that keep degrees and crisp values in their ranges: comparisons
with an undefined number fail, two defined numbers compare, and a product of degrees is a degree.
No field law is among them, since none holds of rounded arithmetic.

A clamp then does what it is for (`within_clamp`), whatever number it is given, and every operator
on degrees gives a degree (`Operator.within_apply`).
-/

set_option autoImplicit false

namespace FuzzyInference

namespace Scalar

variable {α : Type} [Scalar α]

/-- `y` is defined and lies in the range from `lo` to `hi`. -/
structure Within (lo hi y : α) : Prop where
  defined : ¬ IsNaN y
  lower : lo ≤ y
  upper : y ≤ hi

/-- The laws of comparison, and of the degrees between 0 and 1. -/
class Lawful (α : Type) [Scalar α] : Prop where
  /-- A comparison with an undefined number fails. -/
  defined_of_le {a b : α} : a ≤ b → ¬ IsNaN a ∧ ¬ IsNaN b
  lt_iff {a b : α} : a < b ↔ a ≤ b ∧ ¬ b ≤ a
  le_or_le {a b : α} : ¬ IsNaN a → ¬ IsNaN b → a ≤ b ∨ b ≤ a
  zero_lt_one : (0 : α) < 1
  neg_one_lt_one : (-1 : α) < 1
  /-- The product of two degrees is a degree. -/
  within_mul {a b : α} : Within 0 1 a → Within 0 1 b → Within 0 1 (a * b)

theorem not_isNaN_iff {y : α} : ¬ IsNaN y ↔ y ≤ y := Decidable.not_not

section Lawful

variable [Lawful α] {a b lo hi y : α}

theorem le_of_lt (h : a < b) : a ≤ b := (Lawful.lt_iff.1 h).1

theorem not_le_of_lt (h : a < b) : ¬ b ≤ a := (Lawful.lt_iff.1 h).2

theorem defined_of_lt (h : a < b) : ¬ IsNaN a ∧ ¬ IsNaN b := Lawful.defined_of_le (le_of_lt h)

theorem le_of_not_lt (ha : ¬ IsNaN a) (hb : ¬ IsNaN b) (h : ¬ a < b) : b ≤ a := by
  rcases Lawful.le_or_le ha hb with hab | hba
  · by_cases hba : b ≤ a
    · exact hba
    · exact absurd (Lawful.lt_iff.2 ⟨hab, hba⟩) h
  · exact hba

theorem lt_of_not_le (ha : ¬ IsNaN a) (hb : ¬ IsNaN b) (h : ¬ b ≤ a) : a < b := by
  rcases Lawful.le_or_le ha hb with hab | hba
  · exact Lawful.lt_iff.2 ⟨hab, h⟩
  · exact absurd hba h

/-- A clamped number is defined and lies in the range, whatever it was. -/
theorem within_clamp (h : lo < hi) (y : α) : Within lo hi (clamp lo hi y) := by
  obtain ⟨hlo, hhi⟩ := defined_of_lt h
  unfold clamp
  split
  · exact ⟨hlo, not_isNaN_iff.1 hlo, le_of_lt h⟩
  · rename_i hnot
    obtain ⟨hy, hlower⟩ := not_or.1 hnot
    split
    · exact ⟨hhi, le_of_lt h, not_isNaN_iff.1 hhi⟩
    · rename_i hupper
      exact ⟨hy, le_of_not_lt hy hlo hlower, le_of_not_lt hhi hy hupper⟩

/-- A number that is in the range is not changed by the clamp. -/
theorem clamp_of_within (h : Within lo hi y) : clamp lo hi y = y := by
  have hlower : ¬ y < lo := fun hlt => not_le_of_lt hlt h.lower
  have hupper : ¬ hi < y := fun hlt => not_le_of_lt hlt h.upper
  rw [clamp, if_neg (not_or.2 ⟨h.defined, hlower⟩), if_neg hupper]

theorem clamp_clamp (h : lo < hi) (y : α) : clamp lo hi (clamp lo hi y) = clamp lo hi y :=
  clamp_of_within (within_clamp h y)

theorem within_unit (y : α) : Within 0 1 (unit y) := within_clamp Lawful.zero_lt_one y

theorem within_zero : Within (0 : α) 1 0 := by
  have hdefined := (defined_of_lt (Lawful.zero_lt_one (α := α))).1
  exact ⟨hdefined, not_isNaN_iff.1 hdefined, le_of_lt Lawful.zero_lt_one⟩

theorem within_one : Within (0 : α) 1 1 := by
  have hdefined := (defined_of_lt (Lawful.zero_lt_one (α := α))).2
  exact ⟨hdefined, le_of_lt Lawful.zero_lt_one, not_isNaN_iff.1 hdefined⟩

end Lawful

end Scalar

/-- Every operator gives a degree, whatever its operands are. -/
theorem Operator.within_apply {α : Type} [Scalar α] [Scalar.Lawful α] (op : Operator) (a b : α) :
    Scalar.Within 0 1 (op.apply a b) :=
  Scalar.within_unit _

end FuzzyInference
