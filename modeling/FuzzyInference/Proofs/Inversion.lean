import FuzzyInference.Engine.Defuzzify
import FuzzyInference.Proofs.Elementary
import FuzzyInference.Proofs.ExactFormulas

/-!
# Inverse shapes

An inverse shape gives the point at which its curve has the strength that it reads. Formula and
inverse are both piecewise, and their pieces are told apart by different tests: the inverse looks at
the strength, the curve at the point. In the field the tests agree, at the seams too
(`Exact.smoothStep_lower`, `Exact.smoothStep_upper`, `Exact.concave_inverse`,
`Exact.rampUp_inverse`, `Exact.rampDown_inverse`).

The strengths are those that the curve reaches (`Inverse.strengths`): a concave branch is never 0,
and a sigmoid is neither 0 nor 1. A Tsukamoto consequent confines the point to the range of its
output. Where it lies in the range, the consequent asserts it unchanged.
-/

set_option autoImplicit false

namespace FuzzyInference

open Extended

/-! ## Inverses in the field -/

namespace Exact

variable {K : Type} [Field K] [LinearOrder K] [IsStrictOrderedRing K] {a b i e y r : K}

theorem rampUp_inverse (hab : a < b) (hy : y ∈ Set.Icc 0 1) : rampUp a b (a + (b - a) * y) = y := by
  have hwidth : b - a ≠ 0 := (sub_pos.2 hab).ne'
  rw [rampUp, if_pos hab, add_sub_cancel_left, mul_div_cancel_left₀ y hwidth, min_eq_right hy.2,
    max_eq_right hy.1]

theorem rampDown_inverse (hba : b < a) (hy : y ∈ Set.Icc 0 1) :
    rampDown b a (a + (b - a) * y) = y := by
  have hwidth : a - b ≠ 0 := (sub_pos.2 hba).ne'
  have hshare : a - (a + (b - a) * y) = (a - b) * y := by ring
  rw [rampDown, if_pos hba, hshare, mul_div_cancel_left₀ y hwidth, min_eq_right hy.2,
    max_eq_right hy.1]

/-- The branch is inverted on either side of its end. At the end itself both give 1. -/
theorem concave_inverse (hie : i ≠ e) (hy : y ∈ Set.Ioc 0 1) :
    concave i e ((i - e) / y + (e + e) - i) = y := by
  obtain ⟨hpos, hle⟩ := hy
  have hne : i - e ≠ 0 := sub_ne_zero.2 hie
  have hpoint : (i - e) / y + (e + e) - i - e = (i - e) * (1 / y - 1) := by ring
  rcases hle.eq_or_lt with rfl | hlt
  · have hend : (i - e) / 1 + (e + e) - i = e := by
      rw [div_one]
      ring
    rw [hend, concave, if_neg (fun h => lt_irrefl e h.2), if_neg (fun h => lt_irrefl e h.2)]
  · have hrest : 0 < 1 / y - 1 := sub_pos.2 ((one_lt_div hpos).2 hlt)
    -- how far the point is from the end is what the denominator adds to the width
    rcases hie.lt_or_gt with hrise | hfall
    · have hbelow : (i - e) / y + (e + e) - i < e := by
        have hshift := mul_neg_of_neg_of_pos (sub_neg.2 hrise) hrest
        linarith
      have hden : e - i + (e - ((i - e) / y + (e + e) - i)) = (e - i) / y := by ring
      rw [concave, if_pos ⟨hrise.le, hbelow⟩, hden, div_div_cancel₀ (sub_pos.2 hrise).ne']
    · have habove : e < (i - e) / y + (e + e) - i := by
        have hshift := mul_pos (sub_pos.2 hfall) hrest
        linarith
      have hden : i - e + ((i - e) / y + (e + e) - i - e) = (i - e) / y := by ring
      rw [concave, if_neg (fun h => absurd h.1 (not_le.2 hfall)), if_pos ⟨hfall, habove⟩, hden,
        div_div_cancel₀ hne]

/-- A share of at most one half, counted from the lower end. -/
theorem smoothStep_lower (hab : a < b) (hr : 0 ≤ r) (hhalf : r + r ≤ 1) :
    smoothStep a b (a + (b - a) * r) = bow r := by
  have hwidth : 0 < b - a := sub_pos.2 hab
  rcases hr.eq_or_lt with rfl | hpos
  · have hend : a + (b - a) * 0 = a := by ring
    rw [hend, smoothStep, if_pos le_rfl, bow]
    ring
  · have hlower : a < a + (b - a) * r := lt_add_of_pos_right a (mul_pos hwidth hpos)
    have hupper : a + (b - a) * r < b := by nlinarith
    have hleft : a + (b - a) * r - a ≤ b - (a + (b - a) * r) := by nlinarith
    rw [smoothStep, if_neg (not_le.2 hlower), if_neg (not_le.2 hupper), if_pos hleft,
      add_sub_cancel_left, mul_div_cancel_left₀ r hwidth.ne']

/-- A share of less than one half, counted from the upper end. -/
theorem smoothStep_upper (hab : a < b) (hr : 0 ≤ r) (hhalf : r + r < 1) :
    smoothStep a b (b - (b - a) * r) = 1 - bow r := by
  have hwidth : 0 < b - a := sub_pos.2 hab
  have hlower : a < b - (b - a) * r := by nlinarith
  rcases hr.eq_or_lt with rfl | hpos
  · have hend : b - (b - a) * 0 = b := by ring
    rw [hend, smoothStep, if_neg (not_le.2 hab), if_pos le_rfl, bow]
    ring
  · have hupper : b - (b - a) * r < b := sub_lt_self b (mul_pos hwidth hpos)
    have hright : ¬ b - (b - a) * r - a ≤ b - (b - (b - a) * r) := by
      apply not_le.2
      nlinarith
    rw [smoothStep, if_neg (not_le.2 hlower), if_neg (not_le.2 hupper), if_neg hright,
      sub_sub_cancel, mul_div_cancel_left₀ r hwidth.ne']

end Exact

/-! ## Inverse formulas -/

namespace Formula

variable {K : Type} [Field K] [LinearOrder K] [IsStrictOrderedRing K] [Elementary K]
  {a b c i e y : K}

omit [IsStrictOrderedRing K] in
theorem rampInverse_finite :
    rampInverse (finite a) (finite b) (finite y) = finite (a + (b - a) * y) := by
  rw [rampInverse, finite_sub, finite_mul, finite_add]

theorem concaveInverse_finite (hy : y ≠ 0) :
    concaveInverse (finite i) (finite e) (finite y) = finite ((i - e) / y + (e + e) - i) := by
  rw [concaveInverse, finite_sub, finite_div _ _ hy, two_eq, finite_mul, finite_add, finite_sub,
    two_mul]

/-- The point of the smooth step at which it has a degree lies between its ends. -/
theorem exists_stepPoint (hroots : Elementary.SquareRoots K) (hab : a < b) (hy : y ∈ Set.Icc 0 1) :
    ∃ x ∈ Set.Icc a b, smoothStepInverse (finite a) (finite b) (finite y) = finite x ∧
      Exact.smoothStep a b x = y := by
  have hwidth : 0 < b - a := sub_pos.2 hab
  have hunit : Scalar.unit (finite y) = finite y :=
    Scalar.clamp_of_within (within_unit_iff.2 ⟨y, hy, rfl⟩)
  simp only [smoothStepInverse, hunit, half_eq, finite_le, one_eq, finite_sub, finite_mul]
  split
  case isTrue hhalf =>
    obtain ⟨r, hr, hsquare, hsqrt⟩ := hroots (1 / 2 * y) (by linarith [hy.1])
    have hsqrt : Scalar.sqrt (finite (1 / 2 * y)) = finite r := hsqrt
    have hshare : r + r ≤ 1 := by nlinarith
    refine ⟨a + (b - a) * r, ⟨?_, ?_⟩, ?_, ?_⟩
    · exact le_add_of_nonneg_right (mul_nonneg hwidth.le hr)
    · nlinarith
    · rw [hsqrt, finite_mul, finite_add]
    · rw [Exact.smoothStep_lower hab hr hshare, Exact.bow, hsquare]
      ring
  case isFalse hhalf =>
    obtain ⟨r, hr, hsquare, hsqrt⟩ := hroots (1 / 2 * (1 - y)) (by linarith [hy.2])
    have hsqrt : Scalar.sqrt (finite (1 / 2 * (1 - y))) = finite r := hsqrt
    have hshare : r + r < 1 := by nlinarith [not_le.1 hhalf]
    refine ⟨b - (b - a) * r, ⟨?_, ?_⟩, ?_, ?_⟩
    · nlinarith
    · exact sub_le_self b (mul_nonneg hwidth.le hr)
    · rw [hsqrt, finite_mul, finite_sub]
    · rw [Exact.smoothStep_upper hab hr hshare, Exact.bow, hsquare]
      ring

variable [Elementary.Invertible K]

/-- The point of the sigmoid, whichever way it runs. -/
theorem sigmoid_inverse (ha : a ≠ 0) (hy : y ∈ Set.Ioo 0 1) :
    ∃ x, (∀ lower upper, sigmoidInverse lower upper (finite a) (finite c) (finite y) = finite x) ∧
      sigmoid (finite a) (finite c) (finite x) = finite y := by
  obtain ⟨hpos, hlt⟩ := hy
  have hodds : 0 < 1 / y - 1 := sub_pos.2 ((one_lt_div hpos).2 hlt)
  obtain ⟨t, hlog, hexp⟩ := Elementary.Invertible.log_spec hodds
  have hlog : Scalar.log (finite (1 / y - 1)) = finite t := hlog
  have hexp : Scalar.exp (finite t) = finite (1 / y - 1) := hexp
  refine ⟨c - t / a, fun lower upper => ?_, ?_⟩
  · have hupper : ¬ (1 : Extended K) ≤ finite y := fun h => not_le.2 hlt ((finite_le 1 y).1 h)
    have hlower : ¬ finite y ≤ (0 : Extended K) := fun h => not_le.2 hpos ((finite_le y 0).1 h)
    rw [sigmoidInverse, if_neg hupper, if_neg hlower, one_eq, finite_div _ _ hpos.ne', finite_sub,
      hlog, finite_div _ _ ha, finite_sub]
  · have hexponent : -a * (c - t / a - c) = t := by
      field_simp
      ring
    have hsum : 1 + (1 / y - 1) = 1 / y := by ring
    rw [sigmoid, finite_neg, finite_sub, finite_mul, hexponent, hexp, one_eq, finite_add, hsum,
      finite_div _ _ (one_div_pos.2 hpos).ne', one_div_one_div]

/-- The point of the smooth step, in the half that the strength tells. -/
theorem smoothStep_inverse (hab : a < b) (hy : y ∈ Set.Icc 0 1) :
    ∃ x, smoothStepInverse (finite a) (finite b) (finite y) = finite x ∧
      smoothStep (finite a) (finite b) (finite x) = finite y := by
  obtain ⟨x, -, hpoint, hdegree⟩ := exists_stepPoint (Elementary.squareRoots K) hab hy
  exact ⟨x, hpoint, by rw [smoothStep_finite, hdegree]⟩

end Formula

/-! ## Shapes -/

namespace Inverse

/-- The curve that an inverse undoes. -/
def curve : Inverse → Curve
  | linearS => .linearS
  | linearZ => .linearZ
  | concave => .concave
  | sigmoid => .sigmoid
  | s => .s
  | z => .z

variable {K : Type}

/-- The coefficients of that curve, from those of the inverse. A falling ramp has its ends in
ascending order, the inverse in the order of the strengths. -/
def forward (i : Inverse) (a b : K) : List K :=
  match i with
  | linearZ => [b, a]
  | linearS | concave | sigmoid | s | z => [a, b]

/-- Whether the curve runs from one end to the other, so that it has an inverse. -/
def Admits [Zero K] [LT K] (i : Inverse) (a b : K) : Prop :=
  match i with
  | linearS | s | z => a < b
  | linearZ => b < a
  | concave => a ≠ b
  | sigmoid => a ≠ 0

/-- The degrees that the curve reaches. -/
def strengths [Zero K] [One K] [Preorder K] : Inverse → Set K
  | linearS | linearZ | s | z => Set.Icc 0 1
  | concave => Set.Ioc 0 1
  | sigmoid => Set.Ioo 0 1

variable [Field K] [LinearOrder K] [IsStrictOrderedRing K] [Elementary K] [Elementary.Invertible K]
  {a b y : K}

/-- The point at which an inverse is read does not depend on the range of the variable, and the
curve has the strength there. -/
theorem exists_point (i : Inverse) (hadmits : i.Admits a b) (hy : y ∈ i.strengths) :
    ∃ x,
      (∀ lower upper rest, i.point? (finite a :: finite b :: rest) ⟨lower, upper, finite y⟩ =
        some (finite x)) ∧
      ∀ rest, i.curve.degree? ((i.forward a b).map finite ++ rest) (finite x) =
        some (finite y) := by
  cases i with
  | linearS =>
      refine ⟨a + (b - a) * y, fun _ _ _ => congrArg some Formula.rampInverse_finite, ?_⟩
      intro rest
      have hdegree := Formula.rampUp_finite a b (a + (b - a) * y)
      rw [Exact.rampUp_inverse hadmits hy] at hdegree
      exact congrArg some hdegree
  | linearZ =>
      refine ⟨a + (b - a) * y, fun _ _ _ => congrArg some Formula.rampInverse_finite, ?_⟩
      intro rest
      have hdegree := Formula.rampDown_finite b a (a + (b - a) * y)
      rw [Exact.rampDown_inverse hadmits hy] at hdegree
      exact congrArg some hdegree
  | concave =>
      have hpoint := Formula.concaveInverse_finite (i := a) (e := b) hy.1.ne'
      refine ⟨(a - b) / y + (b + b) - a, fun _ _ _ => congrArg some hpoint, ?_⟩
      intro rest
      have hdegree := Formula.concave_finite a b ((a - b) / y + (b + b) - a)
      rw [Exact.concave_inverse hadmits hy] at hdegree
      exact congrArg some hdegree
  | sigmoid =>
      obtain ⟨x, hpoint, hdegree⟩ := Formula.sigmoid_inverse (c := b) hadmits hy
      exact ⟨x, fun lower upper _ => congrArg some (hpoint lower upper),
        fun _ => congrArg some hdegree⟩
  | s =>
      obtain ⟨x, hpoint, hdegree⟩ := Formula.smoothStep_inverse hadmits hy
      exact ⟨x, fun _ _ _ => congrArg some hpoint, fun _ => congrArg some hdegree⟩
  | z =>
      -- the fall is the complement of the step, and its inverse reads the complement
      obtain ⟨x, hpoint, hdegree⟩ := Formula.smoothStep_inverse hadmits (one_sub_mem hy)
      refine ⟨x, fun _ _ _ => congrArg some ?_, fun _ => congrArg some ?_⟩
      · show Formula.smoothStepInverse (finite a) (finite b) (1 - finite y) = finite x
        rw [one_eq, finite_sub, hpoint]
      · show Formula.smoothFall (finite a) (finite b) (finite x) = finite y
        rw [Formula.smoothFall, hdegree, one_eq, finite_sub, sub_sub_cancel]

/-- The point that an inverse gives has the strength that it was read at, and where it lies in the
range of an output, it is the value that a Tsukamoto consequent of this strength asserts. -/
theorem evaluate_inverts (i : Inverse) (hadmits : i.Admits a b) (hy : y ∈ i.strengths) :
    ∃ x : K,
      (∀ (v : Variable (Extended K)) (vs : List (Variable (Extended K)))
          (rest : List (Extended K)), v.value = finite y →
        (Shape.inverse i).evaluate (v :: vs) (finite a :: finite b :: rest) = finite x) ∧
      (∀ (v : Variable (Extended K)) (vs : List (Variable (Extended K)))
          (rest : List (Extended K)), v.value = finite x →
        (Shape.curve i.curve).evaluate (v :: vs) ((i.forward a b).map finite ++ rest) =
          finite y) ∧
      ∀ (e : Engine (Extended K)) (m : Membership (Extended K)) (r : Reference)
          (out : Output (Extended K)) (rest : List (Extended K)), e.architecture = .tsukamoto →
        m.shape = some (.inverse i) → m.coefficients = finite a :: finite b :: rest →
        Scalar.Within out.lower out.upper (finite x) →
        e.contribute m r (finite y) out =
          { out with accumulator := out.accumulator.addWeighted (finite y) (finite x) } := by
  obtain ⟨x, hpoint, hdegree⟩ := i.exists_point hadmits hy
  have hevaluate : ∀ (v : Variable (Extended K)) (vs : List (Variable (Extended K)))
      (rest : List (Extended K)), v.value = finite y →
      (Shape.inverse i).evaluate (v :: vs) (finite a :: finite b :: rest) = finite x := by
    rintro ⟨lower, upper, value⟩ vs rest rfl
    exact congrArg (Option.getD · 0) (hpoint lower upper rest)
  refine ⟨x, hevaluate, ?_, ?_⟩
  · intro v vs rest hv
    show (i.curve.degree? ((i.forward a b).map finite ++ rest) v.value).getD 0 = finite y
    rw [hv, hdegree]
    rfl
  · intro e m r out rest harch hshape hcoefficients hwithin
    have hvalue : m.evaluate [{ out.toVariable with value := finite y }] = finite x := by
      rw [Membership.evaluate, hshape, hcoefficients]
      exact hevaluate _ [] rest rfl
    simp only [Engine.contribute, harch, hvalue, Scalar.clamp_of_within hwithin]

/-- An output from 0 to 30. -/
noncomputable def wideOutput : Output (Extended ℝ) :=
  { Output.blank with lower := finite 0, upper := finite 30 }

/-- A ramp that falls from 20 to 0, read backwards. -/
noncomputable def fallingRamp : Membership (Extended ℝ) :=
  .attached 0 (.inverse .linearZ) [finite 20, finite 0] 1

/-- A Tsukamoto system with this output and this ramp. -/
noncomputable def fallingEngine : Engine (Extended ℝ) :=
  { Tables.blank ⟨1, 1, 1, 1⟩ 1 with
    outputs := [wideOutput], outputMemberships := [fallingRamp],
    width := .byte, architecture := .tsukamoto, config := .sugenoWeightedAverage, rules := [],
    weights := none, ruleCount := 1, completed := 0, status := .notRun }

theorem evaluate_inverts_falling :
    ∃ x : ℝ, x = 15 ∧
      (Shape.curve .linearZ).evaluate
        [(⟨finite 0, finite 30, finite x⟩ : Variable (Extended ℝ))] [finite 0, finite 20] =
          finite (1 / 4) ∧
      fallingEngine.contribute fallingRamp ⟨0, false⟩ (finite (1 / 4)) wideOutput =
        { wideOutput with
          accumulator := wideOutput.accumulator.addWeighted (finite (1 / 4)) (finite x) } := by
  have hadmits : (0 : ℝ) < 20 := by norm_num
  have hstrength : (1 / 4 : ℝ) ∈ Set.Icc 0 1 := by norm_num
  obtain ⟨x, hpoint, hdegree, hcontribute⟩ :=
    evaluate_inverts (K := ℝ) (a := 20) (b := 0) .linearZ hadmits hstrength
  have hvalue : finite x = finite (20 + (0 - 20) * (1 / 4) : ℝ) :=
    (hpoint ⟨finite 0, finite 30, finite (1 / 4)⟩ [] [] rfl).symm.trans Formula.rampInverse_finite
  have hx : x = 15 := by
    rw [finite.inj hvalue]
    norm_num
  have hwithin : Scalar.Within (finite 0) (finite 30) (finite x) :=
    within_finite_iff.2 ⟨x, by norm_num [hx], rfl⟩
  exact ⟨x, hx, hdegree _ [] [] rfl, hcontribute fallingEngine _ _ _ [] rfl rfl rfl hwithin⟩

end Inverse

end FuzzyInference
