import FuzzyInference.Proofs.Exact
import FuzzyInference.Shape.Formula
import Mathlib.Tactic.Positivity

/-!
# Formulas on finite numbers

The formulas of shapes that need no elementary function have a form in the field (`Exact`): on
finite numbers they compute what it computes, and no quotient of them divides by zero. A formula is
taken to its form once, here; what is proved about the form, such as that it is a degree, is
arithmetic of the field.
-/

set_option autoImplicit false

namespace FuzzyInference

open Extended

namespace Extended

variable {K : Type} [Field K] [LinearOrder K] [Elementary K] (x : K)

@[simp]
theorem finite_neg : -finite x = finite (-x) := rfl

@[simp]
theorem abs_finite : Scalar.abs (finite x) = finite |x| := rfl

variable [IsStrictOrderedRing K]

theorem half_eq : (0.5 : Extended K) = finite (1 / 2) := by
  show finite (0.5 : K) = finite (1 / 2)
  norm_num

theorem two_eq : (2.0 : Extended K) = finite 2 := by
  show finite (2.0 : K) = finite 2
  norm_num

theorem ten_eq : (10.0 : Extended K) = finite 10 := by
  show finite (10.0 : K) = finite 10
  norm_num

theorem unit_finite : Scalar.unit (finite x) = finite (max 0 (min 1 x)) :=
  clamp_finite zero_le_one x

end Extended

/-! ## Forms in the field -/

namespace Exact

variable {K : Type} [Field K] [LinearOrder K]

/-- Twice the square of `t`, one half of the smooth step. -/
def bow (t : K) : K := t * t + t * t

/-- The smooth step from 0 at `a` to 1 at `b`. The second half is the first one turned about the
middle. -/
def smoothStep (a b x : K) : K :=
  if x ≤ a then 0
  else if b ≤ x then 1
  else if x - a ≤ b - x then bow ((x - a) / (b - a))
  else 1 - bow ((b - x) / (b - a))

/-- The hyperbolic branch through `i` that reaches 1 at `e`. -/
def concave (i e x : K) : K :=
  if i ≤ e ∧ x < e then (e - i) / (e - i + (e - x))
  else if e < i ∧ e < x then (i - e) / (i - e + (x - e))
  else 1

/-- The ramp from 0 at `a` to 1 at `b`. -/
def rampUp (a b x : K) : K :=
  if a < b then max 0 (min 1 ((x - a) / (b - a)))
  else if a = b then if x < a then 0 else 1
  else 0

/-- The ramp from 1 at `a` to 0 at `b`. -/
def rampDown (a b x : K) : K :=
  if a < b then max 0 (min 1 ((b - x) / (b - a)))
  else if a = b then if x < a then 1 else 0
  else 0

variable [IsStrictOrderedRing K] (a b i e x : K)

theorem bow_mem {t : K} (hpos : 0 ≤ t) (hle : t + t ≤ 1) : bow t + bow t ∈ Set.Icc 0 1 := by
  have hsquare : bow t + bow t = (t + t) * (t + t) := by
    unfold bow
    ring
  have hdouble : 0 ≤ t + t := add_nonneg hpos hpos
  rw [hsquare]
  exact ⟨mul_nonneg hdouble hdouble, mul_le_one₀ hle hdouble hle⟩

/-- The share that a point in one half of a range has of it. -/
theorem half_share {width t : K} (hpos : 0 < width) (ht : 0 ≤ t) (hhalf : t + t ≤ width) :
    0 ≤ t / width ∧ t / width + t / width ≤ 1 := by
  refine ⟨div_nonneg ht hpos.le, ?_⟩
  rw [← add_div]
  exact (div_le_one hpos).2 hhalf

theorem smoothStep_mem : smoothStep a b x ∈ Set.Icc 0 1 := by
  unfold smoothStep
  split
  case isTrue => exact ⟨le_rfl, zero_le_one⟩
  case isFalse hax =>
    split
    case isTrue => exact ⟨zero_le_one, le_rfl⟩
    case isFalse hxb =>
      have hlower : a < x := not_le.1 hax
      have hupper : x < b := not_le.1 hxb
      have hwidth : 0 < b - a := sub_pos.2 (hlower.trans hupper)
      -- in each half the share that is squared is at most one half
      split
      case isTrue hhalf =>
        obtain ⟨hpos, hle⟩ := half_share hwidth (sub_nonneg.2 hlower.le) (by linarith)
        obtain ⟨hbow, hbow_le⟩ := bow_mem hpos hle
        constructor <;> linarith
      case isFalse hhalf =>
        obtain ⟨hpos, hle⟩ := half_share hwidth (sub_nonneg.2 hupper.le) (by linarith)
        obtain ⟨hbow, hbow_le⟩ := bow_mem hpos hle
        constructor <;> linarith

/-- A share of a positive whole. -/
theorem div_add_mem {p q : K} (hp : 0 ≤ p) (hq : 0 < q) : p / (p + q) ∈ Set.Icc 0 1 := by
  have hsum : 0 < p + q := add_pos_of_nonneg_of_pos hp hq
  exact ⟨div_nonneg hp hsum.le, (div_le_one hsum).2 (le_add_of_nonneg_right hq.le)⟩

theorem concave_mem : concave i e x ∈ Set.Icc 0 1 := by
  unfold concave
  split
  case isTrue h => exact div_add_mem (sub_nonneg.2 h.1) (sub_pos.2 h.2)
  case isFalse =>
    split
    case isTrue h => exact div_add_mem (sub_nonneg.2 h.1.le) (sub_pos.2 h.2)
    case isFalse => exact ⟨zero_le_one, le_rfl⟩

end Exact

/-! ## The formulas -/

namespace Formula

variable {K : Type} [Field K] [LinearOrder K] [IsStrictOrderedRing K] [Elementary K]
  (a b i e x : K)

theorem smoothStep_finite :
    smoothStep (finite a) (finite b) (finite x) = finite (Exact.smoothStep a b x) := by
  have hmiddle : (0.5 : Extended K) * (finite a + finite b) = finite ((a + b) / 2) := half_mul _
  have hhalf : x ≤ (a + b) / 2 ↔ x - a ≤ b - x := by
    constructor
    · intro h
      linarith
    · intro h
      linarith
  simp only [smoothStep, Exact.smoothStep, hmiddle, finite_le, hhalf, finite_sub, two_eq]
  split
  case isTrue => rfl
  case isFalse hax =>
    split
    case isTrue => rfl
    case isFalse hxb =>
      have hwidth : b - a ≠ 0 := (sub_pos.2 ((not_le.1 hax).trans (not_le.1 hxb))).ne'
      simp only [finite_div _ _ hwidth, finite_mul, one_eq, finite_sub, Exact.bow]
      split
      case isTrue =>
        congr 1
        ring
      case isFalse =>
        congr 1
        ring

theorem smoothFall_finite :
    smoothFall (finite a) (finite b) (finite x) = finite (1 - Exact.smoothStep a b x) := by
  rw [smoothFall, smoothStep_finite, one_eq, finite_sub]

theorem concave_finite :
    concave (finite i) (finite e) (finite x) = finite (Exact.concave i e x) := by
  have hrise : 2 * e - i - x = e - i + (e - x) := by ring
  have hfall : -2 * e + i + x = i - e + (x - e) := by ring
  simp only [concave, Exact.concave, finite_le, finite_lt, two_eq, finite_neg, finite_mul,
    finite_sub, finite_add, hrise, hfall]
  split
  case isTrue h =>
    exact finite_div _ _ (add_pos_of_nonneg_of_pos (sub_nonneg.2 h.1) (sub_pos.2 h.2)).ne'
  case isFalse =>
    split
    case isTrue h =>
      exact finite_div _ _ (add_pos (sub_pos.2 h.1) (sub_pos.2 h.2)).ne'
    case isFalse => rfl

theorem rampUp_finite :
    rampUp (finite a) (finite b) (finite x) = finite (Exact.rampUp a b x) := by
  simp only [rampUp, Exact.rampUp, finite_lt, finite_le, finite_sub, ← le_antisymm_iff]
  split
  case isTrue hab => rw [finite_div _ _ (sub_pos.2 hab).ne', unit_finite]
  case isFalse => split_ifs <;> rfl

theorem rampDown_finite :
    rampDown (finite a) (finite b) (finite x) = finite (Exact.rampDown a b x) := by
  simp only [rampDown, Exact.rampDown, finite_lt, finite_le, finite_sub, ← le_antisymm_iff]
  split
  case isTrue hab => rw [finite_div _ _ (sub_pos.2 hab).ne', unit_finite]
  case isFalse => split_ifs <;> rfl

end Formula

end FuzzyInference
