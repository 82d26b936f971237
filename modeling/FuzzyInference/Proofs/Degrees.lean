import FuzzyInference.Engine.Inference
import FuzzyInference.Proofs.Elementary
import FuzzyInference.Proofs.ExactFormulas

/-!
# Curves give degrees

Few formulas of curves are clamped. Those that are not stay between 0 and 1 for reasons of their
own: a smooth step and a concave branch because of where their pieces stop, a bell and a sigmoid
because they divide 1 by more than 1, the others because of the elementary function in them.

Clamped formulas, and those that choose between 0 and 1, give a degree over every lawful arithmetic
and from any numbers. The others do over exact arithmetic at finite numbers, with
`Elementary.Bounded` for the elementary functions, if the width that they divide by is not 0
(`Curve.Proper`). No order of the coefficients is assumed.

A kept degree is the product of such a degree and a height, so it is a degree, and inference uses it
as it is.
-/

set_option autoImplicit false

namespace FuzzyInference

open Extended

namespace Formula

/-! ## Clamped formulas and choices -/

section Lawful

variable {α : Type} [Scalar α] [Scalar.Lawful α] (a b c d x : α)

theorem within_triangle : Scalar.Within 0 1 (triangle a b c x) := Scalar.within_unit _

theorem within_trapezoid : Scalar.Within 0 1 (trapezoid a b c d x) := Scalar.within_unit _

omit [Scalar.Lawful α] in
theorem within_choice {p : Prop} [Decidable p] {y z : α} (hy : Scalar.Within 0 1 y)
    (hz : Scalar.Within 0 1 z) : Scalar.Within 0 1 (if p then y else z) := by
  split
  · exact hy
  · exact hz

theorem within_singleton : Scalar.Within 0 1 (singleton a x) :=
  within_choice Scalar.within_one Scalar.within_zero

theorem within_rectangle : Scalar.Within 0 1 (rectangle a b x) :=
  within_choice Scalar.within_one Scalar.within_zero

theorem within_rampUp : Scalar.Within 0 1 (rampUp a b x) := by
  apply within_choice (Scalar.within_unit _)
  exact within_choice (within_choice Scalar.within_zero Scalar.within_one) Scalar.within_zero

theorem within_rampDown : Scalar.Within 0 1 (rampDown a b x) := by
  apply within_choice (Scalar.within_unit _)
  exact within_choice (within_choice Scalar.within_one Scalar.within_zero) Scalar.within_zero

end Lawful

/-! ## Formulas of the field -/

section Exact

variable {K : Type} [Field K] [LinearOrder K] [IsStrictOrderedRing K] [Elementary K]
  (a b i e x : K)

theorem within_smoothStep :
    Scalar.Within 0 1 (smoothStep (finite a) (finite b) (finite x)) := by
  rw [smoothStep_finite]
  exact within_unit_iff.2 ⟨_, Exact.smoothStep_mem a b x, rfl⟩

theorem within_smoothFall :
    Scalar.Within 0 1 (smoothFall (finite a) (finite b) (finite x)) := by
  obtain ⟨hlower, hupper⟩ := Exact.smoothStep_mem a b x
  rw [smoothFall_finite]
  exact within_unit_iff.2 ⟨_, ⟨sub_nonneg.2 hupper, sub_le_self 1 hlower⟩, rfl⟩

theorem within_concave : Scalar.Within 0 1 (concave (finite i) (finite e) (finite x)) := by
  rw [concave_finite]
  exact within_unit_iff.2 ⟨_, Exact.concave_mem i e x, rfl⟩

/-! ## Combinations -/

variable {p q : Extended K}

theorem within_abs_sub (hp : Scalar.Within 0 1 p) (hq : Scalar.Within 0 1 q) :
    Scalar.Within 0 1 (Scalar.abs (p - q)) := by
  obtain ⟨s, hs, rfl⟩ := within_unit_iff.1 hp
  obtain ⟨t, ht, rfl⟩ := within_unit_iff.1 hq
  rw [finite_sub, abs_finite]
  refine within_unit_iff.2 ⟨_, ⟨abs_nonneg _, ?_⟩, rfl⟩
  rw [abs_le]
  constructor
  · linarith [hs.1, ht.2]
  · linarith [hs.2, ht.1]

theorem within_abs_mul (hp : Scalar.Within 0 1 p) (hq : Scalar.Within 0 1 q) :
    Scalar.Within 0 1 (Scalar.abs (p * q)) := by
  obtain ⟨t, ht, hproduct⟩ := within_unit_iff.1 (Scalar.Lawful.within_mul hp hq)
  rw [hproduct, abs_finite, abs_of_nonneg ht.1]
  exact within_unit_iff.2 ⟨t, ht, rfl⟩

/-- The reciprocal of 1 and something more, which may be infinite. -/
theorem within_reciprocal (hq : 0 ≤ q) : Scalar.Within 0 1 (1 / (1 + q)) := by
  cases q with
  | nan | negInf => exact hq.elim
  | posInf => exact Scalar.within_zero
  | finite t =>
      have ht : 0 ≤ t := (finite_le 0 t).1 hq
      have hpos : 0 < 1 + t := add_pos_of_pos_of_nonneg zero_lt_one ht
      rw [one_eq, finite_add, finite_div _ _ hpos.ne']
      refine within_unit_iff.2 ⟨_, ⟨by positivity, ?_⟩, rfl⟩
      exact (div_le_one hpos).2 (le_add_of_nonneg_right ht)

/-! ## Elementary functions -/

variable [Elementary.Bounded K] {width : K} (center slope : K)

theorem within_exp {t : K} (ht : t ≤ 0) : Scalar.Within 0 1 (Scalar.exp (finite t)) := by
  have hpos : (0 : Extended K) < Scalar.exp (finite t) := Elementary.Bounded.exp_pos t
  exact ⟨(Scalar.defined_of_lt hpos).2, hpos.1, Elementary.Bounded.exp_le_one ht⟩

theorem within_bell (hwidth : width ≠ 0) :
    Scalar.Within 0 1 (bell (finite width) (finite slope) (finite center) (finite x)) := by
  apply within_reciprocal
  rw [finite_sub, finite_div _ _ hwidth, abs_finite, two_eq, finite_mul]
  exact Elementary.Bounded.pow_nonneg (abs_nonneg _) _

theorem within_gaussian (hwidth : width ≠ 0) :
    Scalar.Within 0 1 (gaussian (finite width) (finite center) (finite x)) := by
  simp only [gaussian, finite_sub, finite_div _ _ hwidth, half_eq, finite_neg, finite_mul]
  apply within_exp
  nlinarith [mul_self_nonneg ((x - center) / width)]

theorem within_gaussianFlanks {width' : K} (hwidth : width ≠ 0) (hwidth' : width' ≠ 0)
    (center' : K) :
    Scalar.Within 0 1 (gaussianFlanks (finite width) (finite center) (finite width')
      (finite center') (finite x)) := by
  apply Scalar.Lawful.within_mul
  · exact within_choice (within_gaussian x center hwidth) Scalar.within_one
  · exact within_choice (within_gaussian x center' hwidth') Scalar.within_one

theorem within_sigmoid : Scalar.Within 0 1 (sigmoid (finite a) (finite center) (finite x)) := by
  apply within_reciprocal
  rw [finite_neg, finite_sub, finite_mul]
  exact (Elementary.Bounded.exp_pos _).1

theorem within_spike (hwidth : width ≠ 0) :
    Scalar.Within 0 1 (spike (finite width) (finite center) (finite x)) := by
  rw [spike, finite_sub, ten_eq, finite_mul, finite_div _ _ hwidth, abs_finite, finite_neg]
  apply within_exp
  exact neg_nonpos.2 (abs_nonneg _)

theorem within_raisedCosine (hwidth : width ≠ 0) :
    Scalar.Within 0 1 (raisedCosine (finite center) (finite width) (finite x)) := by
  apply within_choice Scalar.within_zero
  obtain ⟨t, ht⟩ : ∃ t : K,
      (2.0 : Extended K) / finite width * Scalar.pi * (finite x - finite center) = finite t := by
    rw [two_eq, finite_div _ _ hwidth, finite_sub]
    exact ⟨_, rfl⟩
  -- half of what lies between 0 and 2
  obtain ⟨s, hs, hcos⟩ := within_finite_iff.1 (Elementary.Bounded.cos_within t)
  have hvalue : Scalar.cos (finite t) = finite s := hcos
  rw [ht, hvalue, one_eq, finite_add, half_mul]
  refine within_unit_iff.2 ⟨_, ⟨?_, ?_⟩, rfl⟩
  · linarith [hs.1]
  · linarith [hs.2]

end Exact

end Formula

/-! ## Curves -/

variable {K : Type}

/-- No width that the formula divides by is 0. -/
def Curve.Proper [Zero K] : Curve → List K → Prop
  | generalizedBell, width :: _ | gaussian, width :: _ | spike, width :: _ => width ≠ 0
  | gaussian2, left :: _ :: right :: _ => left ≠ 0 ∧ right ≠ 0
  | cosine, _ :: width :: _ => width ≠ 0
  | _, _ => True

variable [Field K] [LinearOrder K] [IsStrictOrderedRing K] [Elementary K] [Elementary.Bounded K]

open Formula in
/-- Every curve gives a degree. Without one of its coefficients it gives 0. -/
theorem Curve.within_degree (curve : Curve) (ps : List K) (hproper : curve.Proper ps) (x : K) :
    Scalar.Within 0 1 ((curve.degree? (ps.map finite) (finite x)).getD 0) := by
  cases curve with
  | singleton =>
      rcases ps with _ | ⟨a, ps⟩
      exacts [Scalar.within_zero, within_singleton ..]
  | gaussian =>
      rcases ps with _ | ⟨width, _ | ⟨center, ps⟩⟩
      exacts [Scalar.within_zero, Scalar.within_zero, within_gaussian x center hproper]
  | sigmoid =>
      rcases ps with _ | ⟨a, _ | ⟨center, ps⟩⟩
      exacts [Scalar.within_zero, Scalar.within_zero, within_sigmoid ..]
  | s =>
      rcases ps with _ | ⟨a, _ | ⟨b, ps⟩⟩
      exacts [Scalar.within_zero, Scalar.within_zero, within_smoothStep ..]
  | z =>
      rcases ps with _ | ⟨a, _ | ⟨b, ps⟩⟩
      exacts [Scalar.within_zero, Scalar.within_zero, within_smoothFall ..]
  | concave =>
      rcases ps with _ | ⟨i, _ | ⟨e, ps⟩⟩
      exacts [Scalar.within_zero, Scalar.within_zero, within_concave ..]
  | spike =>
      rcases ps with _ | ⟨width, _ | ⟨center, ps⟩⟩
      exacts [Scalar.within_zero, Scalar.within_zero, within_spike x center hproper]
  | linearS =>
      rcases ps with _ | ⟨a, _ | ⟨b, ps⟩⟩
      exacts [Scalar.within_zero, Scalar.within_zero, within_rampUp ..]
  | linearZ =>
      rcases ps with _ | ⟨a, _ | ⟨b, ps⟩⟩
      exacts [Scalar.within_zero, Scalar.within_zero, within_rampDown ..]
  | rectangle =>
      rcases ps with _ | ⟨a, _ | ⟨b, ps⟩⟩
      exacts [Scalar.within_zero, Scalar.within_zero, within_rectangle ..]
  | cosine =>
      rcases ps with _ | ⟨center, _ | ⟨width, ps⟩⟩
      exacts [Scalar.within_zero, Scalar.within_zero, within_raisedCosine x center hproper]
  | triangular =>
      rcases ps with _ | ⟨a, _ | ⟨b, _ | ⟨c, ps⟩⟩⟩
      exacts [Scalar.within_zero, Scalar.within_zero, Scalar.within_zero, within_triangle ..]
  | generalizedBell =>
      rcases ps with _ | ⟨width, _ | ⟨slope, _ | ⟨center, ps⟩⟩⟩
      exacts [Scalar.within_zero, Scalar.within_zero, Scalar.within_zero,
        within_bell x center slope hproper]
  | trapezoidal =>
      rcases ps with _ | ⟨a, _ | ⟨b, _ | ⟨c, _ | ⟨d, ps⟩⟩⟩⟩
      exacts [Scalar.within_zero, Scalar.within_zero, Scalar.within_zero, Scalar.within_zero,
        within_trapezoid ..]
  | gaussian2 =>
      rcases ps with _ | ⟨width, _ | ⟨center, _ | ⟨width', _ | ⟨center', ps⟩⟩⟩⟩
      exacts [Scalar.within_zero, Scalar.within_zero, Scalar.within_zero, Scalar.within_zero,
        within_gaussianFlanks x center hproper.1 hproper.2 center']
  | differenceSigmoid =>
      rcases ps with _ | ⟨a, _ | ⟨b, _ | ⟨c, _ | ⟨d, ps⟩⟩⟩⟩
      exacts [Scalar.within_zero, Scalar.within_zero, Scalar.within_zero, Scalar.within_zero,
        within_abs_sub (within_sigmoid ..) (within_sigmoid ..)]
  | productSigmoid =>
      rcases ps with _ | ⟨a, _ | ⟨b, _ | ⟨c, _ | ⟨d, ps⟩⟩⟩⟩
      exacts [Scalar.within_zero, Scalar.within_zero, Scalar.within_zero, Scalar.within_zero,
        within_abs_mul (within_sigmoid ..) (within_sigmoid ..)]
  | pi =>
      rcases ps with _ | ⟨a, _ | ⟨b, _ | ⟨c, _ | ⟨d, ps⟩⟩⟩⟩
      exacts [Scalar.within_zero, Scalar.within_zero, Scalar.within_zero, Scalar.within_zero,
        within_abs_mul (within_smoothStep ..) (within_smoothFall ..)]

theorem Shape.within_evaluate (curve : Curve) (ps : List K) (hproper : curve.Proper ps) {x : K}
    {v : Variable (Extended K)} (hv : v.value = finite x) (vs : List (Variable (Extended K))) :
    Scalar.Within 0 1 ((Shape.curve curve).evaluate (v :: vs) (ps.map finite)) := by
  have hvalue : (Shape.curve curve).evaluate (v :: vs) (ps.map finite) =
      (curve.degree? (ps.map finite) v.value).getD 0 := rfl
  rw [hvalue, hv]
  exact curve.within_degree ps hproper x

/-! ## Kept degrees -/

/-- What a membership function keeps is a degree, if its shape is a curve, its height is one, and
the variable that it is attached to, if there is one, has a finite value. -/
theorem Membership.within_fuzzify {m : Membership (Extended K)} {curve : Curve} {ps : List K}
    (hshape : m.shape = some (.curve curve)) (hcoefficients : m.coefficients = ps.map finite)
    (hproper : curve.Proper ps) (hheight : Scalar.Within 0 1 m.height)
    {inputs : List (Variable (Extended K))}
    (hfinite : ∀ v, inputs[m.variableIndex]? = some v → ∃ x, v.value = finite x) :
    Scalar.Within 0 1 (m.fuzzify inputs).degree := by
  rw [fuzzify]
  cases hv : inputs[m.variableIndex]? with
  | none => exact Scalar.within_zero
  | some v =>
      obtain ⟨x, hx⟩ := hfinite v hv
      have hevaluate : m.evaluate [v] = (Shape.curve curve).evaluate [v] (ps.map finite) := by
        rw [evaluate, hshape, hcoefficients]
      show Scalar.Within 0 1 (m.height * m.evaluate [v])
      rw [hevaluate]
      exact Scalar.Lawful.within_mul hheight (Shape.within_evaluate curve ps hproper hx [])

omit [Elementary.Bounded K] in
/-- In a finite range a fuzzification reads a finite value, whatever was set. -/
theorem Variable.confined_finite {v : Variable (Extended K)} {lo hi : K} (hlower : v.lower = finite lo)
    (hupper : v.upper = finite hi) (hlt : lo < hi) : ∃ x, v.confined.value = finite x := by
  have hwithin := Scalar.within_clamp ((finite_lt lo hi).2 hlt) v.value
  obtain ⟨x, -, hx⟩ := within_finite_iff.1 hwithin
  refine ⟨x, ?_⟩
  rw [confined, hlower, hupper, hx]

/-- In exact arithmetic every curve gives a degree, at every point and with any coefficients that it
does not divide by, in any order. After a fuzzification the kept degree of a curve with a degree for
its height is then a degree, and an inference reads it as it is. -/
theorem Engine.curves_give_degrees :
    (∀ (curve : Curve) (ps : List K) (x : K) (v : Variable (Extended K))
        (vs : List (Variable (Extended K))), curve.Proper ps → v.value = finite x →
      Scalar.Within 0 1 ((Shape.curve curve).evaluate (v :: vs) (ps.map finite))) ∧
    ∀ (e : Engine (Extended K)) (index : ℕ) (m : Membership (Extended K)) (curve : Curve)
        (ps : List K), e.inputMemberships[index]? = some m → m.shape = some (.curve curve) →
      m.coefficients = ps.map finite → curve.Proper ps → Scalar.Within 0 1 m.height →
      (∀ v, e.inputs[m.variableIndex]? = some v → ∃ x, v.confined.value = finite x) →
      ∃ degree, e.fuzzify.inputMemberships[index]? = some { m with degree } ∧
        Scalar.Within 0 1 degree ∧ Scalar.unit degree = degree ∧
        ∀ negated, e.fuzzify.antecedentDegree ⟨index, negated⟩ =
          Reference.polarize ⟨index, negated⟩ degree := by
  refine ⟨fun curve ps x v vs hproper hv => Shape.within_evaluate curve ps hproper hv vs, ?_⟩
  intro e index m curve ps hm hshape hcoefficients hproper hheight hfinite
  have hkept : e.fuzzify.inputMemberships[index]? =
      some (m.fuzzify (e.inputs.map Variable.confined)) := by
    rw [fuzzify, List.getElem?_map, hm]
    rfl
  have hdegree : Scalar.Within 0 1 (m.fuzzify (e.inputs.map Variable.confined)).degree := by
    apply Membership.within_fuzzify hshape hcoefficients hproper hheight
    intro v hv
    rw [List.getElem?_map, Option.map_eq_some_iff] at hv
    obtain ⟨v, hv, rfl⟩ := hv
    exact hfinite v hv
  have hunit := Scalar.clamp_of_within hdegree
  refine ⟨_, hkept, hdegree, hunit, fun negated => ?_⟩
  rw [antecedentDegree, hkept]
  exact congrArg (Reference.polarize ⟨index, negated⟩) hunit

/-- An input over a finite range that was set to an infinity, with a Gaussian of negative width. -/
noncomputable def Engine.overdriven : Engine (Extended ℝ) where
  inputs := [⟨finite 0, finite 10, posInf⟩]
  outputs := [.blank]
  inputMemberships := [⟨some (.curve .gaussian), [finite (-3), finite 5], 1, 0, 0⟩]
  outputMemberships := [.blank]
  strengths := [0]
  width := .byte
  architecture := .mamdani
  config := .mamdaniClassic
  rules := []
  weights := none
  ruleCount := 1
  completed := 0
  status := .notRun

theorem Engine.curves_give_degrees_overdriven :
    Scalar.Within 0 1 ((Shape.curve .s).evaluate
        [(⟨finite 0, finite 1, finite 3⟩ : Variable (Extended ℝ))] [finite 8, finite 2]) ∧
      ∃ degree, (overdriven.fuzzify.inputMemberships.map Membership.degree)[0]? = some degree ∧
        Scalar.Within 0 1 degree ∧
        overdriven.fuzzify.antecedentDegree ⟨0, true⟩ = 1 - degree := by
  have hbelow : (0 : ℝ) < 10 := by norm_num
  have hwidth : (-3 : ℝ) ≠ 0 := by norm_num
  refine ⟨(curves_give_degrees (K := ℝ)).1 .s [8, 2] 3 _ [] trivial rfl, ?_⟩
  obtain ⟨degree, hkept, hwithin, -, hread⟩ := (curves_give_degrees (K := ℝ)).2 overdriven 0 _
    .gaussian [-3, 5] rfl rfl rfl hwidth Scalar.within_one (by
      rintro v ⟨⟩
      exact Variable.confined_finite rfl rfl hbelow)
  refine ⟨degree, ?_, hwithin, hread true⟩
  rw [List.getElem?_map, hkept]
  rfl

end FuzzyInference
