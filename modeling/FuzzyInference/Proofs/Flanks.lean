import FuzzyInference.Proofs.Exact
import FuzzyInference.Shape.Basic

/-!
# Flanks

A triangle and a trapezoid are bounded by two quotients, one for each flank, and a flank of no width
divides by zero. Nothing guards these quotients: `Scalar.minimum` drops an undefined one, the clamp
cuts off an infinite one, and what is left is the piecewise definition (`Piecewise`), with vertical
flanks as closed steps.

Where a point stands against a flank decides what the quotient is. Outside the foot it is negative
(`quotient_neg`), on the slope it is the number that the field gives (`quotient_slope`), and from
the shoulder on it does not lower a degree (`Slack`): it is at least 1, or 0 by 0.

The trapezoid bounds its first quotient by 1 before it takes the second minimum, the triangle does
not. That bound only matters where both quotients are undefined (`unit_minimum_one`), so a triangle
whose feet differ is the trapezoid with its two shoulders in one point.
-/

set_option autoImplicit false

namespace FuzzyInference

open Extended

/-- The degrees `y` of a trapezoid at a point `x`, piece by piece. At a flank of no width the pieces
meet in a step that is closed at the shoulder. -/
structure Piecewise {K : Type} [Field K] [LinearOrder K] [Elementary K] (a b c d x : K)
    (y : Extended K) : Prop where
  before : x < a → y = 0
  rise : a ≤ x → x < b → y = finite ((x - a) / (b - a))
  top : b ≤ x → x ≤ c → y = 1
  fall : c < x → x ≤ d → y = finite ((d - x) / (d - c))
  behind : d < x → y = 0
  stepUp : a = b → x = a → y = 1
  stepDown : c = d → x = d → y = 1

variable {K : Type} [Field K] [LinearOrder K] [Elementary K]

/-- A quotient that does not lower a degree. -/
def Slack (q : Extended K) : Prop := Scalar.IsNaN q ∨ 1 ≤ q

namespace Extended

/-! ## One flank -/

/-- What is undefined has no sign. -/
theorem eq_of_neg {p : Extended K} (hp : p < 0) : p = negInf ∨ ∃ x < 0, p = finite x := by
  cases p with
  | nan => exact absurd (isNaN_iff.2 rfl) (defined_of_le hp.1).1
  | negInf => exact .inl rfl
  | posInf => exact absurd trivial hp.2
  | finite x => exact .inr ⟨x, (finite_lt x 0).1 hp, rfl⟩

theorem negInf_lt_zero : (negInf : Extended K) < 0 := ⟨trivial, id⟩

theorem infinite_div {width : K} (hwidth : 0 ≤ width) (s : SignType) :
    (infinite s / finite width : Extended K) = infinite s := by
  have hpos : ¬ width < 0 := not_lt.2 hwidth
  cases s with
  | zero => rfl
  | neg =>
      show infinite (if width < 0 then -SignType.neg else SignType.neg) = infinite .neg
      rw [if_neg hpos]
  | pos =>
      show infinite (if width < 0 then -SignType.pos else SignType.pos) = infinite .pos
      rw [if_neg hpos]

theorem finite_div_zero (x : K) :
    (finite x / finite 0 : Extended K) = infinite (SignType.sign x) := if_pos rfl

/-- By a positive width every defined number has a quotient. -/
theorem quotient_defined {p : Extended K} {width : K} (hp : ¬ Scalar.IsNaN p) (hwidth : 0 < width) :
    ¬ Scalar.IsNaN (p / finite width) := by
  rw [isNaN_iff] at hp ⊢
  cases p with
  | nan => exact absurd rfl hp
  | negInf =>
      rw [show (negInf / finite width : Extended K) = negInf from infinite_div hwidth.le .neg]
      exact nofun
  | posInf =>
      rw [show (posInf / finite width : Extended K) = posInf from infinite_div hwidth.le .pos]
      exact nofun
  | finite x =>
      rw [finite_div _ _ hwidth.ne']
      exact nofun

theorem sub_finite_defined {p : Extended K} (hp : ¬ Scalar.IsNaN p) (x : K) :
    ¬ Scalar.IsNaN (p - finite x) := by
  rw [isNaN_iff] at hp ⊢
  cases p with
  | nan => exact absurd rfl hp
  | negInf | posInf | finite y => exact nofun

theorem finite_sub_defined {p : Extended K} (hp : ¬ Scalar.IsNaN p) (x : K) :
    ¬ Scalar.IsNaN (finite x - p) := by
  rw [isNaN_iff] at hp ⊢
  cases p with
  | nan => exact absurd rfl hp
  | negInf | posInf | finite y => exact nofun

variable [IsStrictOrderedRing K]

/-- Outside the foot of a flank, whatever its width is. -/
theorem quotient_neg {p : Extended K} {width : K} (hp : p < 0) (hwidth : 0 ≤ width) :
    p / finite width < 0 := by
  rcases eq_of_neg hp with rfl | ⟨x, hx, rfl⟩
  · rw [show (negInf / finite width : Extended K) = negInf from infinite_div hwidth .neg]
    exact negInf_lt_zero
  · rcases hwidth.eq_or_lt with rfl | hpos
    · rw [finite_div_zero, sign_neg hx]
      exact negInf_lt_zero
    · rw [finite_div _ _ hpos.ne']
      exact (finite_lt _ 0).2 (div_neg_of_neg_of_pos hx hpos)

/-- From the shoulder on. Without width the quotient is infinite, or undefined at the shoulder
itself. -/
theorem quotient_slack {x width : K} (hwidth : 0 ≤ width) (hx : width ≤ x) :
    Slack (finite x / finite width) := by
  rcases hwidth.eq_or_lt with rfl | hpos
  · rw [finite_div_zero]
    rcases hx.eq_or_lt with rfl | hpos
    · left
      rw [sign_zero, isNaN_iff]
      rfl
    · right
      rw [sign_pos hpos]
      trivial
  · right
    rw [finite_div _ _ hpos.ne']
    exact (finite_le 1 _).2 ((one_le_div hpos).2 hx)

/-- On the slope the quotient is a degree below 1. -/
theorem quotient_slope {x width : K} (hx : 0 ≤ x) (hlt : x < width) :
    finite x / finite width = finite (x / width) ∧ x / width ∈ Set.Ico 0 1 := by
  have hpos : 0 < width := hx.trans_lt hlt
  exact ⟨finite_div _ _ hpos.ne', div_nonneg hx hpos.le, (div_lt_one hpos).2 hlt⟩

/-! ## Two flanks -/

variable {q r : Extended K} {t : K}

theorem not_lt_of_slack (hq : Slack q) (ht : t ≤ 1) : ¬ q < finite t := by
  intro hlt
  rcases hq with hnan | hle
  · exact (Scalar.defined_of_lt hlt).1 hnan
  · exact Scalar.not_le_of_lt hlt (Extended.le_trans ((finite_le t 1).2 ht) hle)

/-- A degree is not lowered by a quotient with slack. -/
theorem minimum_slack (ht : t ≤ 1) (hr : Slack r) : Scalar.minimum (finite t) r = finite t := by
  rw [Scalar.minimum, if_neg (finite_defined t), if_neg (not_lt_of_slack hr ht)]

/-- Bounded by 1, a quotient with slack is 1. -/
theorem minimum_slack_one (hq : Slack q) : Scalar.minimum q 1 = 1 := by
  rcases hq with hnan | hle
  · exact if_pos hnan
  · rw [Scalar.minimum, if_neg (defined_of_le hle).2]
    split
    case isTrue => rfl
    case isFalse hnot =>
      have hupper := Scalar.le_of_not_lt (finite_defined 1) (defined_of_le hle).2 hnot
      exact Extended.le_antisymm hupper hle

theorem minimum_one_finite (ht : t < 1) : Scalar.minimum 1 (finite t) = finite t := by
  have hone : ¬ Scalar.IsNaN (1 : Extended K) := Scalar.within_one.defined
  have hlt : finite t < (1 : Extended K) := (finite_lt t 1).2 ht
  rw [Scalar.minimum, if_neg hone, if_pos hlt]

omit [IsStrictOrderedRing K] in
theorem lt_of_lt_of_neg (hrq : r < q) (hq : q < 0) : r < 0 :=
  ⟨Extended.le_trans hrq.1 hq.1, fun h => hq.2 (Extended.le_trans h hrq.1)⟩

/-- One negative operand makes a minimum negative, even if the other is undefined. -/
theorem minimum_neg (h : q < 0 ∨ r < 0) : Scalar.minimum q r < 0 := by
  unfold Scalar.minimum
  split
  case isTrue hnan => exact h.resolve_left fun hq => (Scalar.defined_of_lt hq).1 hnan
  case isFalse hq =>
    split
    case isTrue hrq => exact h.elim (lt_of_lt_of_neg hrq) id
    case isFalse hnot =>
      refine h.elim id fun hr => ?_
      have hqr := Scalar.le_of_not_lt (Scalar.defined_of_lt hr).1 hq hnot
      exact ⟨Extended.le_trans hqr hr.1, fun hle => hr.2 (Extended.le_trans hle hqr)⟩

omit [IsStrictOrderedRing K] in
theorem unit_of_neg (hq : q < 0) : Scalar.unit q = 0 := if_pos (.inr hq)

theorem unit_of_mem (ht : t ∈ Set.Icc 0 1) : Scalar.unit (finite t) = finite t :=
  Scalar.clamp_of_within (within_unit_iff.2 ⟨t, ht, rfl⟩)

theorem unit_one : Scalar.unit (1 : Extended K) = 1 := Scalar.clamp_of_within Scalar.within_one

/-- A number from 1 on confined to the degrees. -/
theorem unit_of_one_le (hq : 1 ≤ q) : Scalar.unit q = 1 := by
  have hzero : (0 : Extended K) < 1 := Scalar.Lawful.zero_lt_one
  have hlower : ¬ q < 0 := fun hlt => hzero.2 (Extended.le_trans hq hlt.1)
  rw [Scalar.unit, Scalar.clamp, if_neg (not_or.2 ⟨(defined_of_le hq).2, hlower⟩)]
  split
  case isTrue => rfl
  case isFalse hnot =>
    have hone : ¬ Scalar.IsNaN (1 : Extended K) := Scalar.within_one.defined
    exact Extended.le_antisymm (Scalar.le_of_not_lt hone (defined_of_le hq).2 hnot) hq

/-- Under a clamp it does not matter by how much the first quotient exceeds 1. -/
theorem unit_minimum_of_one_le (hq : 1 ≤ q) :
    Scalar.unit (Scalar.minimum q r) = Scalar.unit (Scalar.minimum 1 r) := by
  have hone : ¬ Scalar.IsNaN (1 : Extended K) := Scalar.within_one.defined
  rw [Scalar.minimum, if_neg (defined_of_le hq).2, Scalar.minimum, if_neg hone]
  by_cases hr : r < 1
  · have hrq : r < q :=
      ⟨Extended.le_trans hr.1 hq, fun hle => hr.2 (Extended.le_trans hq hle)⟩
    rw [if_pos hr, if_pos hrq]
  · rw [if_neg hr, unit_one]
    split
    case isTrue hrq =>
      apply unit_of_one_le
      exact Scalar.le_of_not_lt (defined_of_le hrq.1).1 hone hr
    case isFalse => exact unit_of_one_le hq

/-- Under a clamp the first of two quotients can be bounded by 1 beforehand, unless both of them are
undefined: the bound would then stand in for them. -/
theorem unit_minimum_one (h : ¬ (Scalar.IsNaN q ∧ Scalar.IsNaN r)) :
    Scalar.unit (Scalar.minimum (Scalar.minimum q 1) r) = Scalar.unit (Scalar.minimum q r) := by
  have hone : ¬ Scalar.IsNaN (1 : Extended K) := Scalar.within_one.defined
  by_cases hq : Scalar.IsNaN q
  · have hr : ¬ Scalar.IsNaN r := fun hr => h ⟨hq, hr⟩
    rw [show Scalar.minimum q 1 = 1 from if_pos hq, show Scalar.minimum q r = r from if_pos hq,
      Scalar.minimum, if_neg hone]
    split
    case isTrue => rfl
    case isFalse hnot => rw [unit_one, unit_of_one_le (Scalar.le_of_not_lt hr hone hnot)]
  · by_cases hlt : 1 < q
    · rw [minimum_slack_one (.inr hlt.1), unit_minimum_of_one_le hlt.1]
    · have hsame : Scalar.minimum q 1 = q := by rw [Scalar.minimum, if_neg hq, if_neg hlt]
      rw [hsame]

end Extended

/-! ## The two shapes -/

namespace Formula

variable [IsStrictOrderedRing K] {a b c d x : K}

/-- What is left of the trapezoid's formula, by the position of the point against each flank. -/
theorem piecewise_trapezoid (hab : a ≤ b) (hbc : b ≤ c) (hcd : c ≤ d) :
    Piecewise a b c d x
      (trapezoid (finite a) (finite b) (finite c) (finite d) (finite x)) := by
  simp only [trapezoid, finite_sub]
  -- A point below the foot or above it settles its flank, whatever the other one is.
  have hbefore (hx : x < a) : finite (x - a) / finite (b - a) < 0 :=
    quotient_neg ((finite_lt _ 0).2 (sub_neg.2 hx)) (sub_nonneg.2 hab)
  have hbehind (hx : d < x) : finite (d - x) / finite (d - c) < 0 :=
    quotient_neg ((finite_lt _ 0).2 (sub_neg.2 hx)) (sub_nonneg.2 hcd)
  have hleft (hx : b ≤ x) : Slack (finite (x - a) / finite (b - a)) :=
    quotient_slack (sub_nonneg.2 hab) (sub_le_sub_right hx a)
  have hright (hx : x ≤ c) : Slack (finite (d - x) / finite (d - c)) :=
    quotient_slack (sub_nonneg.2 hcd) (sub_le_sub_left hx d)
  have htop (hbx : b ≤ x) (hxc : x ≤ c) :
      Scalar.unit (Scalar.minimum (Scalar.minimum (finite (x - a) / finite (b - a)) 1)
        (finite (d - x) / finite (d - c))) = 1 := by
    rw [minimum_slack_one (hleft hbx), one_eq, minimum_slack le_rfl (hright hxc), ← one_eq, unit_one]
  refine ⟨?_, ?_, htop, ?_, ?_, ?_, ?_⟩
  · intro hx
    exact unit_of_neg (minimum_neg (.inl (minimum_neg (.inl (hbefore hx)))))
  · intro hax hxb
    obtain ⟨hslope, hmem⟩ := quotient_slope (sub_nonneg.2 hax) (sub_lt_sub_right hxb a)
    rw [hslope, one_eq, minimum_slack hmem.2.le (.inr ((finite_le 1 1).2 le_rfl)),
      minimum_slack hmem.2.le (hright (hxb.le.trans hbc)), unit_of_mem ⟨hmem.1, hmem.2.le⟩]
  · intro hcx hxd
    obtain ⟨hslope, hmem⟩ := quotient_slope (sub_nonneg.2 hxd) (sub_lt_sub_left hcx d)
    rw [minimum_slack_one (hleft (hbc.trans hcx.le)), hslope, minimum_one_finite hmem.2,
      unit_of_mem ⟨hmem.1, hmem.2.le⟩]
  · intro hx
    exact unit_of_neg (minimum_neg (.inr (hbehind hx)))
  · rintro rfl rfl
    exact htop le_rfl hbc
  · rintro rfl rfl
    exact htop hbc le_rfl

/-- A triangle whose feet differ is a trapezoid with one shoulder. The point may be infinite. -/
theorem triangle_eq_trapezoid {p : Extended K} (hab : a ≤ b) (hbc : b ≤ c) (hac : a < c)
    (hp : ¬ Scalar.IsNaN p) :
    triangle (finite a) (finite b) (finite c) p =
      trapezoid (finite a) (finite b) (finite b) (finite c) p := by
  simp only [triangle, trapezoid, finite_sub]
  -- One of the flanks has a width, so it cannot be the quotient of 0 by 0.
  refine (unit_minimum_one ?_).symm
  rintro ⟨hrise, hfall⟩
  rcases hab.eq_or_lt with rfl | hwidth
  · exact quotient_defined (finite_sub_defined hp c) (sub_pos.2 hac) hfall
  · exact quotient_defined (sub_finite_defined hp a) (sub_pos.2 hwidth) hrise

end Formula

/-- With its feet in one point a triangle vanishes, and the trapezoid does not. -/
example : Formula.triangle (finite 0 : Extended ℚ) (finite 0) (finite 0) (finite 0) = 0 ∧
    Formula.trapezoid (finite 0 : Extended ℚ) (finite 0) (finite 0) (finite 0) (finite 0) = 1 := by
  decide +kernel

/-- A trapezoid with ordered points has its piecewise degrees, and a triangle whose feet differ is
the trapezoid with both shoulders at its peak. Neither reads a further variable or coefficient. -/
theorem Curve.flanks_piecewise [IsStrictOrderedRing K] (v : Variable (Extended K))
    (vs : List (Variable (Extended K))) (rest : List (Extended K)) :
    (∀ a b c d x : K, a ≤ b → b ≤ c → c ≤ d → v.value = finite x →
      Piecewise a b c d x ((Shape.curve .trapezoidal).evaluate (v :: vs)
        (finite a :: finite b :: finite c :: finite d :: rest))) ∧
    (∀ a b c : K, a ≤ b → b ≤ c → a < c → ¬ Scalar.IsNaN v.value →
      (Shape.curve .triangular).evaluate (v :: vs) (finite a :: finite b :: finite c :: rest) =
        (Shape.curve .trapezoidal).evaluate (v :: vs)
          (finite a :: finite b :: finite b :: finite c :: rest)) := by
  constructor
  · intro a b c d x hab hbc hcd hv
    have htrapezoid : (Shape.curve .trapezoidal).evaluate (v :: vs)
        (finite a :: finite b :: finite c :: finite d :: rest) =
        Formula.trapezoid (finite a) (finite b) (finite c) (finite d) v.value := rfl
    rw [htrapezoid, hv]
    exact Formula.piecewise_trapezoid hab hbc hcd
  · intro a b c hab hbc hac hv
    exact Formula.triangle_eq_trapezoid hab hbc hac hv

/-- Both flanks vertical: a block from 0 to 1, at its left edge, and a triangle that falls at once
at its peak. -/
theorem Curve.flanks_piecewise_vertical :
    (Shape.curve .trapezoidal).evaluate [(⟨0, 1, finite 0⟩ : Variable (Extended ℚ))]
        [finite 0, finite 0, finite 1, finite 1] = 1 ∧
      (Shape.curve .triangular).evaluate [(⟨0, 1, finite 1⟩ : Variable (Extended ℚ))]
          [finite 0, finite 1, finite 1] =
        (Shape.curve .trapezoidal).evaluate [(⟨0, 1, finite 1⟩ : Variable (Extended ℚ))]
          [finite 0, finite 1, finite 1, finite 1] :=
  ⟨((flanks_piecewise ⟨0, 1, finite 0⟩ [] []).1 0 0 1 1 0 le_rfl zero_le_one le_rfl rfl).stepUp
      rfl rfl,
    (flanks_piecewise ⟨0, 1, finite 1⟩ [] []).2 0 1 1 zero_le_one le_rfl zero_lt_one
      (finite_defined 1)⟩

end FuzzyInference
