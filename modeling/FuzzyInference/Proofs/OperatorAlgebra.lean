import FuzzyInference.Proofs.Double
import FuzzyInference.Proofs.Exact

/-!
# The algebra of operators

Order independence, duality and range safety of whole rule bases rest on laws of single operators.
They hold of exact degrees: every operator makes the degrees an ordered commutative monoid
(`Operator.Monoidal`), with 1 as the neutral degree of the two conjunctions and 0 as that of the
three disjunctions. The five operators form a chain from product to bounded sum, and a complement
turns a conjunction into a disjunction (`Operator.dual?`), the bounded sum apart.

The laws are proved of `Operator.onDegrees`, in the field, where the clamp of an operator is left
out or is part of the formula. Only the last law is about what is no degree: whatever an operator is
given, infinite and undefined numbers included, it returns a degree.
-/

set_option autoImplicit false

namespace FuzzyInference

open Extended

namespace Operator

/-- The degree that an operator leaves others unchanged with. -/
def neutral {α : Type} [Zero α] [One α] : Operator → α
  | min | product => 1
  | max | probabilisticOr | sum => 0

/-- The operator that a complement of both degrees and of the result gives, if it is one of the
five. -/
def dual? : Operator → Option Operator
  | min => some max
  | product => some probabilisticOr
  | max => some min
  | probabilisticOr => some product
  | sum => none

/-! ## In the field -/

section Field

variable {K : Type} [Field K] [LinearOrder K]

/-- De Morgan's laws. -/
theorem onDegrees_dual? [IsStrictOrderedRing K] {op op' : Operator} (h : op.dual? = some op')
    (x y : K) : op'.onDegrees (1 - x) (1 - y) = 1 - op.onDegrees x y := by
  cases op with
  | min =>
      obtain rfl := Option.some.inj h
      exact max_sub_sub_left 1 x y
  | max =>
      obtain rfl := Option.some.inj h
      exact min_sub_sub_left 1 x y
  | product =>
      obtain rfl := Option.some.inj h
      simp only [onDegrees]
      ring
  | probabilisticOr =>
      obtain rfl := Option.some.inj h
      simp only [onDegrees]
      ring
  | sum => cases h

theorem onDegrees_neutral (op : Operator) {x : K} (hx : x ∈ Set.Icc 0 1) :
    op.onDegrees x op.neutral = x := by
  obtain ⟨hpos, hle⟩ := hx
  cases op with
  | min => exact min_eq_left hle
  | product => exact mul_one x
  | max => exact max_eq_left hpos
  | probabilisticOr =>
      simp only [onDegrees, neutral]
      ring
  | sum =>
      simp only [onDegrees, neutral, add_zero]
      exact min_eq_right hle

variable [IsStrictOrderedRing K] {x x' y y' : K}

theorem neutral_mem (op : Operator) : (op.neutral : K) ∈ Set.Icc 0 1 := by
  cases op with
  | min | product => exact ⟨zero_le_one, le_refl 1⟩
  | max | probabilisticOr | sum => exact ⟨le_refl 0, zero_le_one⟩

theorem onDegrees_mono (op : Operator) (hx : 0 ≤ x) (hy : y ∈ Set.Icc 0 1) (hx' : x' ≤ 1)
    (hxx' : x ≤ x') (hyy' : y ≤ y') : op.onDegrees x y ≤ op.onDegrees x' y' := by
  cases op with
  | min => exact min_le_min hxx' hyy'
  | product => exact mul_le_mul hxx' hyy' hy.1 (hx.trans hxx')
  | max => exact max_le_max hxx' hyy'
  | probabilisticOr =>
      -- what is missing to 1 is a product, which falls
      have hrest : (1 - x') * (1 - y') ≤ (1 - x) * (1 - y) := by
        have hleft : 1 - x' ≤ 1 - x := sub_le_sub_left hxx' 1
        have hright : 1 - y' ≤ 1 - y := sub_le_sub_left hyy' 1
        calc (1 - x') * (1 - y')
            ≤ (1 - x') * (1 - y) := mul_le_mul_of_nonneg_left hright (sub_nonneg.2 hx')
          _ ≤ (1 - x) * (1 - y) := mul_le_mul_of_nonneg_right hleft (sub_nonneg.2 hy.2)
      simp only [onDegrees]
      linarith
  | sum => exact min_le_min le_rfl (add_le_add hxx' hyy')

theorem product_le_min (hx : x ∈ Set.Icc 0 1) (hy : y ∈ Set.Icc 0 1) :
    product.onDegrees x y ≤ min.onDegrees x y :=
  le_min (mul_le_of_le_one_right hx.1 hy.2) (mul_le_of_le_one_left hy.1 hx.2)

theorem max_le_probabilisticOr (hx : x ∈ Set.Icc 0 1) (hy : y ∈ Set.Icc 0 1) :
    max.onDegrees x y ≤ probabilisticOr.onDegrees x y := by
  -- what the sum has more than `x`, and more than `y`
  have hleft : 0 ≤ y * (1 - x) := mul_nonneg hy.1 (sub_nonneg.2 hx.2)
  have hright : 0 ≤ x * (1 - y) := mul_nonneg hx.1 (sub_nonneg.2 hy.2)
  simp only [onDegrees]
  apply max_le
  · linarith
  · linarith

theorem probabilisticOr_le_sum (hx : x ∈ Set.Icc 0 1) (hy : y ∈ Set.Icc 0 1) :
    probabilisticOr.onDegrees x y ≤ sum.onDegrees x y := by
  apply le_min
  · exact (onDegrees_mem probabilisticOr hx hy).2
  · exact sub_le_self _ (mul_nonneg hx.1 hy.1)

end Field

/-! ## On degrees -/

variable {K : Type} [Field K] [LinearOrder K] [IsStrictOrderedRing K] [Elementary K]

/-- An operator makes the degrees an ordered commutative monoid. -/
structure Monoidal (K : Type) [Field K] [LinearOrder K] [Elementary K] (op : Operator) : Prop where
  within {a b : Extended K} : Scalar.Within 0 1 a → Scalar.Within 0 1 b →
    Scalar.Within 0 1 (op.apply a b)
  comm {a b : Extended K} : Scalar.Within 0 1 a → Scalar.Within 0 1 b →
    op.apply a b = op.apply b a
  assoc {a b c : Extended K} : Scalar.Within 0 1 a → Scalar.Within 0 1 b → Scalar.Within 0 1 c →
    op.apply (op.apply a b) c = op.apply a (op.apply b c)
  neutral {a : Extended K} : Scalar.Within 0 1 a → op.apply a op.neutral = a
  mono {a a' b b' : Extended K} : Scalar.Within 0 1 a → Scalar.Within 0 1 a' →
    Scalar.Within 0 1 b → Scalar.Within 0 1 b' → a ≤ a' → b ≤ b' → op.apply a b ≤ op.apply a' b'

omit [IsStrictOrderedRing K] in
theorem neutral_finite (op : Operator) : (op.neutral : Extended K) = finite op.neutral := by
  cases op <;> rfl

theorem monoidal (op : Operator) : op.Monoidal K := by
  constructor
  · intro a b _ _
    exact op.within_apply a b
  · intro a b ha hb
    exact op.apply_comm ha hb
  · intro a b c ha hb hc
    exact op.apply_assoc ha hb hc
  · intro a ha
    obtain ⟨x, hx, rfl⟩ := within_unit_iff.1 ha
    rw [neutral_finite, op.apply_finite hx op.neutral_mem, op.onDegrees_neutral hx]
  · intro a a' b b' ha ha' hb hb' haa' hbb'
    obtain ⟨x, hx, rfl⟩ := within_unit_iff.1 ha
    obtain ⟨x', hx', rfl⟩ := within_unit_iff.1 ha'
    obtain ⟨y, hy, rfl⟩ := within_unit_iff.1 hb
    obtain ⟨y', hy', rfl⟩ := within_unit_iff.1 hb'
    rw [op.apply_finite hx hy, op.apply_finite hx' hy', finite_le]
    exact op.onDegrees_mono hx.1 hy hx'.2 haa' hbb'

/-- A relation between two operators on the degrees of the field is one on degrees. -/
theorem apply_le_apply {op op' : Operator} {a b : Extended K}
    (h : ∀ x ∈ Set.Icc (0 : K) 1, ∀ y ∈ Set.Icc (0 : K) 1, op.onDegrees x y ≤ op'.onDegrees x y)
    (ha : Scalar.Within 0 1 a) (hb : Scalar.Within 0 1 b) : op.apply a b ≤ op'.apply a b := by
  obtain ⟨x, hx, rfl⟩ := within_unit_iff.1 ha
  obtain ⟨y, hy, rfl⟩ := within_unit_iff.1 hb
  rw [op.apply_finite hx hy, op'.apply_finite hx hy, finite_le]
  exact h x hx y hy

theorem apply_dual? {op op' : Operator} (h : op.dual? = some op') {a b : Extended K}
    (ha : Scalar.Within 0 1 a) (hb : Scalar.Within 0 1 b) :
    op'.apply (1 - a) (1 - b) = 1 - op.apply a b := by
  obtain ⟨x, hx, rfl⟩ := within_unit_iff.1 ha
  obtain ⟨y, hy, rfl⟩ := within_unit_iff.1 hb
  rw [one_eq, finite_sub, finite_sub, op'.apply_finite (one_sub_mem hx) (one_sub_mem hy),
    onDegrees_dual? h, op.apply_finite hx hy, finite_sub]

/-- On exact degrees every operator is a commutative, associative and nondecreasing operation with
its neutral degree, the five are ordered from product to bounded sum, and minimum with maximum and
product with probabilistic sum satisfy De Morgan's laws. In every lawful arithmetic an operator
gives a degree, whatever it is given. -/
theorem operator_algebra :
    (∀ op : Operator, op.Monoidal K) ∧
      (∀ a b : Extended K, Scalar.Within 0 1 a → Scalar.Within 0 1 b →
        product.apply a b ≤ min.apply a b ∧ min.apply a b ≤ max.apply a b ∧
          max.apply a b ≤ probabilisticOr.apply a b ∧
          probabilisticOr.apply a b ≤ sum.apply a b) ∧
      (∀ (op op' : Operator) (a b : Extended K), op.dual? = some op' → Scalar.Within 0 1 a →
        Scalar.Within 0 1 b → op'.apply (1 - a) (1 - b) = 1 - op.apply a b) ∧
      ∀ (α : Type) [Scalar α] [Scalar.Lawful α] (op : Operator) (a b : α),
        Scalar.Within 0 1 (op.apply a b) := by
  refine ⟨monoidal, ?_, ?_, ?_⟩
  · intro a b ha hb
    refine ⟨apply_le_apply ?_ ha hb, apply_le_apply ?_ ha hb, apply_le_apply ?_ ha hb,
      apply_le_apply ?_ ha hb⟩
    · intro x hx y hy
      exact product_le_min hx hy
    · intro x _ y _
      exact min_le_max
    · intro x hx y hy
      exact max_le_probabilisticOr hx hy
    · intro x hx y hy
      exact probabilisticOr_le_sum hx hy
  · intro op op' a b h ha hb
    exact apply_dual? h ha hb
  · intro α _ _ op a b
    exact op.within_apply a b

/-- Three degrees that a bounded sum saturates with, and two doubles that are no degrees. -/
theorem operator_algebra_saturated :
    sum.apply (sum.apply (finite (1 / 2 : ℚ)) (finite (2 / 3))) (finite (1 / 4)) =
        sum.apply (finite (1 / 2)) (sum.apply (finite (2 / 3)) (finite (1 / 4))) ∧
      Scalar.Within 0 1 (max.apply (1 / 0 : Float) Scalar.nan) := by
  obtain ⟨hmonoidal, -, -, hwithin⟩ := operator_algebra (K := ℚ)
  have hhalf : Scalar.Within 0 1 (finite (1 / 2 : ℚ)) :=
    within_unit_iff.2 ⟨_, by norm_num, rfl⟩
  have hthirds : Scalar.Within 0 1 (finite (2 / 3 : ℚ)) :=
    within_unit_iff.2 ⟨_, by norm_num, rfl⟩
  have hquarter : Scalar.Within 0 1 (finite (1 / 4 : ℚ)) :=
    within_unit_iff.2 ⟨_, by norm_num, rfl⟩
  exact ⟨(hmonoidal .sum).assoc hhalf hthirds hquarter, hwithin Float .max _ _⟩

end Operator

end FuzzyInference
