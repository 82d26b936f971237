import FuzzyInference.Proofs.Lawful
import Mathlib.Algebra.Order.Field.Basic
import Mathlib.Data.Rat.Cast.OfScientific
import Mathlib.Data.Sign.Basic
import Mathlib.Tactic.Linarith
import Mathlib.Tactic.NormNum
import Mathlib.Tactic.Ring

/-!
# Exact numbers

Laws such as associativity hold of exact arithmetic and fail of rounded arithmetic. The numbers of
an ordered field, the rational or the real numbers for instance, become scalars when they are
extended by two infinities and an undefined number (`Extended`). The operations go on where the
field stops, as those of floating-point numbers do: a positive number divided by 0 is infinite, 0
divided by 0 is undefined, and what is computed from an undefined number is undefined. There is one
zero, and it counts as positive when it divides.

The elementary functions are a parameter (`Elementary`). A statement that needs to know something
about them says so.

On finite numbers the operations are those of the field (`finite_add` and the lemmas after it), and
on degrees the operators have a form without clamps (`Operator.apply_finite`), which gives their
algebra: they are commutative and associative on degrees.
-/

set_option autoImplicit false

namespace FuzzyInference

/-- A number of `K`, an infinity, or an undefined number. -/
inductive Extended (K : Type) where
  | nan
  | negInf
  | posInf
  | finite (x : K)
  deriving DecidableEq

/-- The elementary functions on the numbers of `K`, continued to the extended numbers. -/
class Elementary (K : Type) where
  sqrt : Extended K → Extended K
  exp : Extended K → Extended K
  log : Extended K → Extended K
  cos : Extended K → Extended K
  pow : Extended K → Extended K → Extended K

namespace Extended

/-! ## Arithmetic -/

section Order

variable {K : Type} [LE K]

/-- The order: an undefined number compares with none. -/
def le : Extended K → Extended K → Prop
  | nan, _ | _, nan => False
  | negInf, _ | _, posInf => True
  | posInf, _ | _, negInf => False
  | finite x, finite y => x ≤ y

instance decidableLe [DecidableLE K] : (a b : Extended K) → Decidable (a.le b)
  | nan, _ => isFalse id
  | negInf, nan | posInf, nan | finite _, nan => isFalse id
  | negInf, negInf | negInf, posInf | negInf, finite _ => isTrue trivial
  | posInf, posInf | finite _, posInf => isTrue trivial
  | posInf, negInf | posInf, finite _ | finite _, negInf => isFalse id
  | finite x, finite y => inferInstanceAs (Decidable (x ≤ y))

end Order

/-- The infinity of a sign. Without a sign it is undefined. -/
def infinite {K : Type} : SignType → Extended K
  | .neg => negInf
  | .zero => nan
  | .pos => posInf

variable {K : Type} [Field K] [LinearOrder K]

/-- The sign of a number, 0 for the undefined one. -/
def sign : Extended K → SignType
  | nan => 0
  | negInf => -1
  | posInf => 1
  | finite x => SignType.sign x

def neg : Extended K → Extended K
  | nan => nan
  | negInf => posInf
  | posInf => negInf
  | finite x => finite (-x)

def abs : Extended K → Extended K
  | nan => nan
  | negInf | posInf => posInf
  | finite x => finite |x|

/-- The sum; opposite infinities have none. -/
def add : Extended K → Extended K → Extended K
  | nan, _ | _, nan => nan
  | finite x, finite y => finite (x + y)
  | finite _, b => b
  | a, finite _ => a
  | posInf, posInf => posInf
  | negInf, negInf => negInf
  | posInf, negInf | negInf, posInf => nan

/-- The product; 0 and an infinity have none. -/
def mul : Extended K → Extended K → Extended K
  | nan, _ | _, nan => nan
  | finite x, finite y => finite (x * y)
  | a, b => infinite (a.sign * b.sign)

/-- The quotient; 0 by 0 and an infinity by an infinity have none. -/
def div : Extended K → Extended K → Extended K
  | nan, _ | _, nan => nan
  | finite x, finite y => if y = 0 then infinite (SignType.sign x) else finite (x / y)
  | finite _, _ => finite 0
  | a, finite y => infinite (if y < 0 then -a.sign else a.sign)
  | _, _ => nan

variable [Elementary K]

instance : Scalar (Extended K) where
  zero := finite 0
  one := finite 1
  add := add
  sub a b := a.add b.neg
  mul := mul
  div := div
  neg := neg
  ofScientific m s e := finite (OfScientific.ofScientific m s e)
  ofNat n := finite n
  nan := nan
  abs := abs
  sqrt := Elementary.sqrt
  exp := Elementary.exp
  log := Elementary.log
  cos := Elementary.cos
  pow := Elementary.pow
  le := le
  lt a b := a.le b ∧ ¬ b.le a
  decidableLE a b := decidableLe a b
  decidableLT a b := inferInstanceAs (Decidable (a.le b ∧ ¬ b.le a))

/-! ## Sums -/

protected theorem add_comm (a b : Extended K) : a + b = b + a := by
  cases a <;> cases b <;> first | rfl | exact congrArg finite (add_comm _ _)

/-- With an undefined number or with both infinities a sum is undefined, wherever they stand. -/
protected theorem add_assoc (a b c : Extended K) : a + b + c = a + (b + c) := by
  cases a <;> cases b <;> cases c <;> first | rfl | exact congrArg finite (add_assoc _ _ _)

theorem add_right_comm (a b c : Extended K) : a + b + c = a + c + b := by
  rw [Extended.add_assoc, Extended.add_comm b, ← Extended.add_assoc]

protected theorem mul_comm (a b : Extended K) : a * b = b * a := by
  cases a <;> cases b <;>
    first | rfl | exact congrArg finite (mul_comm _ _) | exact congrArg infinite (mul_comm _ _)

/-! ## Finite numbers -/

section Finite

variable (x y : K)

theorem zero_eq : (0 : Extended K) = finite 0 := rfl

theorem one_eq : (1 : Extended K) = finite 1 := rfl

@[simp]
theorem finite_add : finite x + finite y = finite (x + y) := rfl

@[simp]
theorem finite_mul : finite x * finite y = finite (x * y) := rfl

@[simp]
theorem finite_sub : finite x - finite y = finite (x - y) :=
  congrArg finite (sub_eq_add_neg x y).symm

theorem finite_div (h : y ≠ 0) : finite x / finite y = finite (x / y) := if_neg h

theorem zero_div_zero : (finite 0 / finite 0 : Extended K) = nan := by
  have hzero : (finite 0 / finite 0 : Extended K) = infinite (SignType.sign (0 : K)) := if_pos rfl
  rw [hzero, sign_zero]
  rfl

/-- Finite summands are added up in the field. -/
theorem foldl_add_finite {β : Type} {g : β → Extended K} {g' : β → K} {l : List β}
    (h : ∀ b ∈ l, g b = finite (g' b)) (s : K) :
    l.foldl (fun sum b => sum + g b) (finite s) = finite (s + (l.map g').sum) := by
  induction l generalizing s with
  | nil => rw [List.foldl_nil, List.map_nil, List.sum_nil, add_zero]
  | cons b l ih =>
      rw [List.foldl_cons, h b List.mem_cons_self, finite_add,
        ih (fun b' hb' => h b' (List.mem_cons_of_mem b hb')), List.map_cons, List.sum_cons, add_assoc]

@[simp]
theorem finite_le : finite x ≤ finite y ↔ x ≤ y := Iff.rfl

end Finite

/-! ## The order -/

theorem isNaN_iff {a : Extended K} : Scalar.IsNaN a ↔ a = nan := by
  cases a with
  | nan => exact ⟨fun _ => rfl, fun _ h => h⟩
  | negInf | posInf => exact ⟨fun h => absurd trivial h, nofun⟩
  | finite x => exact ⟨fun h => absurd (le_refl x) h, nofun⟩

@[simp]
theorem finite_lt (x y : K) : finite x < finite y ↔ x < y := lt_iff_le_not_ge.symm

theorem finite_defined (x : K) : ¬ Scalar.IsNaN (finite x) := not_not.2 (le_refl x)

/-- What lies between finite numbers is finite. -/
theorem within_finite_iff {lo hi : K} {a : Extended K} :
    Scalar.Within (finite lo) (finite hi) a ↔ ∃ x ∈ Set.Icc lo hi, a = finite x := by
  constructor
  · rintro ⟨-, hlower, hupper⟩
    cases a with
    | nan | negInf => exact hlower.elim
    | posInf => exact hupper.elim
    | finite x => exact ⟨x, ⟨hlower, hupper⟩, rfl⟩
  · rintro ⟨x, ⟨hlower, hupper⟩, rfl⟩
    exact ⟨finite_defined x, hlower, hupper⟩

/-- The degrees are the numbers of the field between 0 and 1. -/
theorem within_unit_iff {a : Extended K} :
    Scalar.Within 0 1 a ↔ ∃ x ∈ Set.Icc (0 : K) 1, a = finite x := within_finite_iff

theorem defined_of_le {a b : Extended K} (h : a ≤ b) : ¬ Scalar.IsNaN a ∧ ¬ Scalar.IsNaN b := by
  simp only [isNaN_iff]
  refine ⟨?_, ?_⟩
  · rintro rfl
    exact h.elim
  · rintro rfl
    cases a <;> exact h.elim

theorem negInf_le {a : Extended K} (h : ¬ Scalar.IsNaN a) : negInf ≤ a := by
  cases a with
  | nan => exact absurd rfl (isNaN_iff.not.1 h)
  | negInf | posInf | finite x => trivial

theorem le_posInf {a : Extended K} (h : ¬ Scalar.IsNaN a) : a ≤ posInf := by
  cases a with
  | nan => exact absurd rfl (isNaN_iff.not.1 h)
  | negInf | posInf | finite x => trivial

theorem le_or_le {a b : Extended K} (ha : ¬ Scalar.IsNaN a) (hb : ¬ Scalar.IsNaN b) :
    a ≤ b ∨ b ≤ a := by
  cases a with
  | nan => exact absurd rfl (isNaN_iff.not.1 ha)
  | negInf => exact .inl (negInf_le hb)
  | posInf => exact .inr (le_posInf hb)
  | finite x =>
      cases b with
      | nan => exact absurd rfl (isNaN_iff.not.1 hb)
      | negInf => exact .inr (negInf_le ha)
      | posInf => exact .inl (le_posInf ha)
      | finite y => exact le_total x y

protected theorem le_trans {a b c : Extended K} (hab : a ≤ b) (hbc : b ≤ c) : a ≤ c := by
  have ha := (defined_of_le hab).1
  have hc := (defined_of_le hbc).2
  cases a with
  | nan => exact absurd (isNaN_iff.2 rfl) ha
  | negInf => exact negInf_le hc
  | posInf =>
      cases b with
      | posInf => exact hbc
      | nan | negInf | finite y => exact hab.elim
  | finite x =>
      cases b with
      | nan | negInf => exact hab.elim
      | posInf =>
          cases c with
          | posInf => exact le_posInf ha
          | nan | negInf | finite z => exact hbc.elim
      | finite y =>
          cases c with
          | nan | negInf => exact hbc.elim
          | posInf => exact le_posInf ha
          | finite z => exact (finite_le x z).2 (((finite_le x y).1 hab).trans ((finite_le y z).1 hbc))

protected theorem le_antisymm {a b : Extended K} (hab : a ≤ b) (hba : b ≤ a) : a = b := by
  cases a with
  | nan => exact absurd (isNaN_iff.2 rfl) (defined_of_le hab).1
  | negInf =>
      cases b with
      | negInf => rfl
      | nan | posInf | finite y => exact hba.elim
  | posInf =>
      cases b with
      | posInf => rfl
      | nan | negInf | finite y => exact hab.elim
  | finite x =>
      cases b with
      | nan | negInf => exact hab.elim
      | posInf => exact hba.elim
      | finite y => rw [((finite_le x y).1 hab).antisymm ((finite_le y x).1 hba)]

/-- A clamp to finite ends is a clamp of the field. -/
theorem clamp_finite {lo hi : K} (h : lo ≤ hi) (y : K) :
    Scalar.clamp (finite lo) (finite hi) (finite y) = finite (max lo (min hi y)) := by
  simp only [Scalar.clamp, finite_defined, false_or, finite_lt]
  split
  case isTrue hlower => rw [min_eq_right (hlower.le.trans h), max_eq_left hlower.le]
  case isFalse hlower =>
    split
    case isTrue hupper => rw [min_eq_left hupper.le, max_eq_right h]
    case isFalse hupper => rw [min_eq_right (not_lt.1 hupper), max_eq_right (not_lt.1 hlower)]

variable [IsStrictOrderedRing K]

instance : Scalar.Lawful (Extended K) where
  defined_of_le := defined_of_le
  lt_iff := Iff.rfl
  le_or_le := le_or_le
  zero_lt_one := (finite_lt 0 1).2 zero_lt_one
  neg_one_lt_one := (finite_lt (-1) 1).2 (neg_one_lt_zero.trans zero_lt_one)
  within_mul {a b} ha hb := by
    obtain ⟨x, hx, rfl⟩ := within_unit_iff.1 ha
    obtain ⟨y, hy, rfl⟩ := within_unit_iff.1 hb
    exact within_unit_iff.2 ⟨x * y, ⟨mul_nonneg hx.1 hy.1, mul_le_one₀ hx.2 hy.1 hy.2⟩, rfl⟩

theorem half_mul (x : K) : (0.5 : Extended K) * finite x = finite (x / 2) := by
  have hhalf : (0.5 : Extended K) = finite (0.5 : K) := rfl
  rw [hhalf, finite_mul]
  congr 1
  norm_num
  ring

end Extended

/-- Rational arithmetic. The elementary functions have irrational values at all but a few numbers;
here they are undefined. -/
instance : Elementary ℚ where
  sqrt _ := .nan
  exp _ := .nan
  log _ := .nan
  cos _ := .nan
  pow _ _ := .nan

/-! ## Operators on degrees -/

/-- The complement of a degree of the field. -/
theorem one_sub_mem {K : Type} [Field K] [LinearOrder K] [IsStrictOrderedRing K] {x : K}
    (hx : x ∈ Set.Icc 0 1) : 1 - x ∈ Set.Icc 0 1 :=
  ⟨sub_nonneg.2 hx.2, sub_le_self 1 hx.1⟩

namespace Operator

open Extended

variable {K : Type} [Field K] [LinearOrder K]

/-- The operator on degrees of the field. Only a sum of degrees can leave the range. -/
def onDegrees : Operator → K → K → K
  | .min, x, y => Min.min x y
  | .product, x, y => x * y
  | .max, x, y => Max.max x y
  | .probabilisticOr, x, y => x + y - x * y
  | .sum, x, y => Min.min 1 (x + y)

theorem onDegrees_comm (op : Operator) (x y : K) : op.onDegrees x y = op.onDegrees y x := by
  cases op with
  | min => exact min_comm x y
  | product => exact mul_comm x y
  | max => exact max_comm x y
  | probabilisticOr => simp only [onDegrees]; ring
  | sum => rw [onDegrees, onDegrees, add_comm]

variable [IsStrictOrderedRing K] {x y z : K}

theorem onDegrees_mem (op : Operator) (hx : x ∈ Set.Icc 0 1) (hy : y ∈ Set.Icc 0 1) :
    op.onDegrees x y ∈ Set.Icc 0 1 := by
  obtain ⟨hx₀, hx₁⟩ := hx
  obtain ⟨hy₀, hy₁⟩ := hy
  cases op with
  | min => exact ⟨le_min hx₀ hy₀, min_le_of_left_le hx₁⟩
  | product => exact ⟨mul_nonneg hx₀ hy₀, mul_le_one₀ hx₁ hy₀ hy₁⟩
  | max => exact ⟨le_max_of_le_left hx₀, max_le hx₁ hy₁⟩
  | probabilisticOr =>
      have hrest : 0 ≤ (1 - x) * (1 - y) := mul_nonneg (sub_nonneg.2 hx₁) (sub_nonneg.2 hy₁)
      have hpart : 0 ≤ y * (1 - x) := mul_nonneg hy₀ (sub_nonneg.2 hx₁)
      constructor
      · simp only [onDegrees]
        linarith
      · simp only [onDegrees]
        linarith
  | sum => exact ⟨le_min zero_le_one (add_nonneg hx₀ hy₀), min_le_left 1 _⟩

/-- A sum that is cut off at 1 can be cut off before something is added. -/
theorem min_one_add (hz : 0 ≤ z) (s : K) : Min.min 1 (Min.min 1 s + z) = Min.min 1 (s + z) := by
  rcases le_total 1 s with hs | hs
  · rw [min_eq_left hs, min_eq_left (by linarith), min_eq_left (by linarith)]
  · rw [min_eq_right hs]

theorem onDegrees_assoc (op : Operator) (hx : x ∈ Set.Icc 0 1) (y : K) (hz : z ∈ Set.Icc 0 1) :
    op.onDegrees (op.onDegrees x y) z = op.onDegrees x (op.onDegrees y z) := by
  cases op with
  | min => exact min_assoc x y z
  | product => exact mul_assoc x y z
  | max => exact max_assoc x y z
  | probabilisticOr => simp only [onDegrees]; ring
  | sum =>
      calc Min.min 1 (Min.min 1 (x + y) + z)
          = Min.min 1 (x + y + z) := min_one_add hz.1 _
        _ = Min.min 1 (y + z + x) := by rw [add_assoc, add_comm]
        _ = Min.min 1 (Min.min 1 (y + z) + x) := (min_one_add hx.1 _).symm
        _ = Min.min 1 (x + Min.min 1 (y + z)) := by rw [add_comm x]

variable [Elementary K]

/-- On degrees the clamp of an operator does nothing, except for sums. -/
theorem apply_finite (op : Operator) (hx : x ∈ Set.Icc 0 1) (hy : y ∈ Set.Icc 0 1) :
    op.apply (finite x) (finite y) = finite (op.onDegrees x y) := by
  have hmem := op.onDegrees_mem hx hy
  have hcombine : ∃ s, op.combine (finite x) (finite y) = finite s ∧
      Min.min 1 s = op.onDegrees x y := by
    cases op with
    | sum => exact ⟨x + y, rfl, rfl⟩
    | min =>
        refine ⟨_, ?_, min_eq_right hmem.2⟩
        simp only [combine, onDegrees, finite_lt]
        split
        case isTrue h => rw [min_eq_left h.le]
        case isFalse h => rw [min_eq_right (not_lt.1 h)]
    | max =>
        refine ⟨_, ?_, min_eq_right hmem.2⟩
        simp only [combine, onDegrees, finite_lt]
        split
        case isTrue h => rw [max_eq_left h.le]
        case isFalse h => rw [max_eq_right (not_lt.1 h)]
    | product => exact ⟨x * y, rfl, min_eq_right hmem.2⟩
    | probabilisticOr =>
        refine ⟨x + y - x * y, ?_, min_eq_right hmem.2⟩
        simp only [combine, finite_mul, finite_add, finite_sub]
  obtain ⟨s, hs, hcut⟩ := hcombine
  rw [apply, hs, Scalar.unit, zero_eq, one_eq, clamp_finite zero_le_one, hcut, max_eq_right hmem.1]

section Within

variable {a b c : Extended K}

theorem apply_comm (op : Operator) (ha : Scalar.Within 0 1 a) (hb : Scalar.Within 0 1 b) :
    op.apply a b = op.apply b a := by
  obtain ⟨x, hx, rfl⟩ := within_unit_iff.1 ha
  obtain ⟨y, hy, rfl⟩ := within_unit_iff.1 hb
  rw [op.apply_finite hx hy, op.apply_finite hy hx, onDegrees_comm]

theorem apply_assoc (op : Operator) (ha : Scalar.Within 0 1 a) (hb : Scalar.Within 0 1 b)
    (hc : Scalar.Within 0 1 c) : op.apply (op.apply a b) c = op.apply a (op.apply b c) := by
  obtain ⟨x, hx, rfl⟩ := within_unit_iff.1 ha
  obtain ⟨y, hy, rfl⟩ := within_unit_iff.1 hb
  obtain ⟨z, hz, rfl⟩ := within_unit_iff.1 hc
  rw [op.apply_finite hx hy, op.apply_finite hy hz, op.apply_finite (op.onDegrees_mem hx hy) hz,
    op.apply_finite hx (op.onDegrees_mem hy hz), op.onDegrees_assoc hx y hz]

/-- Two degrees can be folded into a third in either order. -/
theorem apply_right_comm (op : Operator) (ha : Scalar.Within 0 1 a) (hb : Scalar.Within 0 1 b)
    (hc : Scalar.Within 0 1 c) : op.apply (op.apply a b) c = op.apply (op.apply a c) b := by
  rw [op.apply_assoc ha hb hc, op.apply_comm hb hc, op.apply_assoc ha hc hb]

end Within

end Operator

end FuzzyInference
