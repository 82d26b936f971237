import FuzzyInference.Proofs.Inversion

/-!
# Monotone shapes

Smooth and linear steps and concave branches run in one direction, whatever their coefficients are.
Where the ends of a step coincide it jumps there, and so does a smooth step with its ends exchanged;
a linear one vanishes then. A branch rises up to its end point or falls from it on, as the order of
its coefficients tells.

The pieces of a formula are compared in the field: within a piece by the monotony of its term,
across pieces by a number in between, which at a seam is 0, one half or 1. What falls is the
complement or the mirror image of something that rises (`Exact.concave_neg`).

An inverse shape is monotone because its curve is: were its points in the wrong order, so would be
the degrees there, which are the strengths (`Formula.exists_stepPoint`). Of square roots only what
gives these points is assumed (`Elementary.SquareRoots`).
-/

set_option autoImplicit false

namespace FuzzyInference

open Extended

/-! ## Monotony in the field -/

namespace Exact

variable {K : Type} [Field K] [LinearOrder K] [IsStrictOrderedRing K] {a b i e x : K}

theorem bow_le_bow {s t : K} (hs : 0 ≤ s) (hst : s ≤ t) : bow s ≤ bow t := by
  have hsquare : s * s ≤ t * t := mul_self_le_mul_self hs hst
  exact add_le_add hsquare hsquare

omit [IsStrictOrderedRing K] in
theorem smoothStep_between (hax : a < x) (hxb : x < b) :
    smoothStep a b x =
      if x - a ≤ b - x then bow ((x - a) / (b - a)) else 1 - bow ((b - x) / (b - a)) := by
  rw [smoothStep, if_neg (not_le.2 hax), if_neg (not_le.2 hxb)]

theorem smoothStep_mono (a b : K) : Monotone (smoothStep a b) := by
  intro x y hxy
  rcases le_or_gt x a with hxa | hax
  · have hx : smoothStep a b x = 0 := if_pos hxa
    rw [hx]
    exact (smoothStep_mem a b y).1
  rcases le_or_gt b y with hby | hyb
  · have hy : smoothStep a b y = 1 := by
      rw [smoothStep, if_neg (not_le.2 (hax.trans_le hxy)), if_pos hby]
    rw [hy]
    exact (smoothStep_mem a b x).2
  -- both points lie strictly between the ends
  have hay : a < y := hax.trans_le hxy
  have hxb : x < b := hxy.trans_lt hyb
  have hwidth : 0 < b - a := sub_pos.2 (hax.trans hxb)
  rw [smoothStep_between hax hxb, smoothStep_between hay hyb]
  split
  case isTrue hleft =>
    obtain ⟨hx, hhalf⟩ := half_share hwidth (sub_nonneg.2 hax.le) (by linarith)
    split
    case isTrue =>
      exact bow_le_bow hx (div_le_div_of_nonneg_right (sub_le_sub_right hxy a) hwidth.le)
    case isFalse hright =>
      -- one half is between the two pieces
      obtain ⟨hy, hhalf'⟩ := half_share hwidth (sub_nonneg.2 hyb.le) (by linarith)
      have hlower := (bow_mem hx hhalf).2
      have hupper := (bow_mem hy hhalf').2
      linarith
  case isFalse hright =>
    have hright' : ¬ y - a ≤ b - y := by
      intro h
      exact hright (by linarith)
    rw [if_neg hright']
    have hy : 0 ≤ (b - y) / (b - a) := div_nonneg (sub_nonneg.2 hyb.le) hwidth.le
    apply sub_le_sub_left
    exact bow_le_bow hy (div_le_div_of_nonneg_right (sub_le_sub_left hxy b) hwidth.le)

theorem rampUp_mono (a b : K) : Monotone (rampUp a b) := by
  intro x y hxy
  unfold rampUp
  split
  case isTrue hab =>
    have hshare : (x - a) / (b - a) ≤ (y - a) / (b - a) :=
      div_le_div_of_nonneg_right (sub_le_sub_right hxy a) (sub_pos.2 hab).le
    exact max_le_max le_rfl (min_le_min le_rfl hshare)
  case isFalse =>
    split
    case isTrue =>
      -- a step that is closed at `a`
      by_cases hx : x < a
      · rw [if_pos hx]
        split
        · exact le_rfl
        · exact zero_le_one
      · have hy : ¬ y < a := fun h => hx (hxy.trans_lt h)
        rw [if_neg hx, if_neg hy]
    case isFalse => exact le_rfl

theorem rampUp_mem (a b x : K) : rampUp a b x ∈ Set.Icc 0 1 := by
  unfold rampUp
  split_ifs
  · exact ⟨le_max_left 0 _, max_le zero_le_one (min_le_left 1 _)⟩
  · exact ⟨le_rfl, zero_le_one⟩
  · exact ⟨zero_le_one, le_rfl⟩
  · exact ⟨le_rfl, zero_le_one⟩

theorem one_sub_max_min (t : K) : 1 - max 0 (min 1 t) = max 0 (min 1 (1 - t)) := by
  rcases le_total t 0 with hneg | hpos
  · rw [max_eq_left ((min_le_right 1 t).trans hneg), min_eq_left (by linarith),
      max_eq_right zero_le_one, sub_zero]
  · have hle : 1 - t ≤ 1 := sub_le_self 1 hpos
    rw [max_eq_right (le_min zero_le_one hpos), min_eq_right hle, ← max_sub_sub_left, sub_self]

/-- The two ramps are complements, unless their ends are exchanged. -/
theorem rampDown_eq (hab : a ≤ b) (x : K) : rampDown a b x = 1 - rampUp a b x := by
  rcases hab.lt_or_eq with hlt | rfl
  · have hshare : (b - x) / (b - a) = 1 - (x - a) / (b - a) := by
      rw [eq_sub_iff_add_eq, ← add_div, sub_add_sub_cancel, div_self (sub_pos.2 hlt).ne']
    rw [rampDown, rampUp, if_pos hlt, if_pos hlt, hshare, one_sub_max_min]
  · rw [rampDown, rampUp, if_neg (lt_irrefl a), if_neg (lt_irrefl a), if_pos rfl, if_pos rfl]
    split
    · exact (sub_zero 1).symm
    · exact (sub_self 1).symm

omit [IsStrictOrderedRing K] in
theorem rampDown_of_lt (hba : b < a) (x : K) : rampDown a b x = 0 := by
  rw [rampDown, if_neg hba.not_gt, if_neg hba.ne']

theorem rampDown_anti (a b : K) : Antitone (rampDown a b) := by
  intro x y hxy
  rcases le_or_gt a b with hab | hba
  · rw [rampDown_eq hab, rampDown_eq hab]
    exact sub_le_sub_left (rampUp_mono a b hxy) 1
  · rw [rampDown_of_lt hba, rampDown_of_lt hba]

theorem rampDown_mem (a b x : K) : rampDown a b x ∈ Set.Icc 0 1 := by
  rcases le_or_gt a b with hab | hba
  · rw [rampDown_eq hab]
    exact one_sub_mem (rampUp_mem a b x)
  · rw [rampDown_of_lt hba]
    exact ⟨le_rfl, zero_le_one⟩

theorem concave_mono (hie : i ≤ e) : Monotone (concave i e) := by
  intro x y hxy
  by_cases hy : y < e
  · have hx : x < e := hxy.trans_lt hy
    -- only the denominator depends on the point, and it falls
    have hden : 0 < e - i + (e - y) := add_pos_of_nonneg_of_pos (sub_nonneg.2 hie) (sub_pos.2 hy)
    have hden_le : e - i + (e - y) ≤ e - i + (e - x) :=
      add_le_add_right (sub_le_sub_left hxy e) (e - i)
    rw [concave, concave, if_pos ⟨hie, hx⟩, if_pos ⟨hie, hy⟩]
    exact div_le_div_of_nonneg_left (sub_nonneg.2 hie) hden hden_le
  · have hend : concave i e y = 1 := by
      rw [concave, if_neg (fun h => hy h.2), if_neg (fun h => not_le.2 h.1 hie)]
    rw [hend]
    exact (concave_mem i e x).2

/-- A branch that falls is the mirror image of one that rises. -/
theorem concave_neg (hei : e < i) (x : K) : concave (-i) (-e) (-x) = concave i e x := by
  have hwidth : -e - -i = i - e := by ring
  have hshift : -e - -x = x - e := by ring
  simp only [concave, neg_le_neg_iff, neg_lt_neg_iff, hwidth, hshift, hei.le, hei, not_le.2 hei,
    not_lt.2 hei.le, true_and, false_and, if_false]

theorem concave_anti (hei : e < i) : Antitone (concave i e) := by
  intro x y hxy
  rw [← concave_neg hei x, ← concave_neg hei y]
  exact concave_mono (neg_le_neg hei.le) (neg_le_neg hxy)

end Exact

/-! ## Monotone shapes -/

namespace Shape

variable {K : Type} [Field K] [LinearOrder K] [Elementary K]

/-- With the coefficients `a, b` and at the points of `s` a shape computes a function of the field.
Further variables and coefficients are not read. -/
def Computes (shape : Shape (Extended K)) (a b : K) (s : Set K) (f : K → K) : Prop :=
  ∀ (v : Variable (Extended K)) (vs : List (Variable (Extended K))) (rest : List (Extended K)),
    ∀ x ∈ s, v.value = finite x →
      shape.evaluate (v :: vs) (finite a :: finite b :: rest) = finite (f x)

/-- The shape does not fall between the points of `s`, and its values there lie in `range`. -/
def Rises (shape : Shape (Extended K)) (a b : K) (s range : Set K) : Prop :=
  ∃ f, shape.Computes a b s f ∧ MonotoneOn f s ∧ Set.MapsTo f s range

/-- The shape does not rise between the points of `s`, and its values there lie in `range`. -/
def Falls (shape : Shape (Extended K)) (a b : K) (s range : Set K) : Prop :=
  ∃ f, shape.Computes a b s f ∧ AntitoneOn f s ∧ Set.MapsTo f s range

variable {a b : K} {f : K → K}

theorem computes_curve {c : Curve}
    (h : ∀ (rest : List (Extended K)) (x : K),
      c.degree? (finite a :: finite b :: rest) (finite x) = some (finite (f x))) :
    (curve c).Computes a b Set.univ f := by
  rintro ⟨lower, upper, value⟩ vs rest x - rfl
  exact congrArg (Option.getD · 0) (h rest x)

theorem computes_inverse {i : Inverse} {s : Set K}
    (h : ∀ (lower upper : Extended K) (rest : List (Extended K)), ∀ y ∈ s,
      i.point? (finite a :: finite b :: rest) ⟨lower, upper, finite y⟩ = some (finite (f y))) :
    (inverse i).Computes a b s f := by
  rintro ⟨lower, upper, value⟩ vs rest y hy rfl
  exact congrArg (Option.getD · 0) (h lower upper rest y hy)

theorem rises_curve {c : Curve} (h : (curve c).Computes a b Set.univ f) (hmono : Monotone f)
    (hmem : ∀ x, f x ∈ Set.Icc 0 1) : (curve c).Rises a b Set.univ (Set.Icc 0 1) :=
  ⟨f, h, hmono.monotoneOn _, fun x _ => hmem x⟩

theorem falls_curve {c : Curve} (h : (curve c).Computes a b Set.univ f) (hanti : Antitone f)
    (hmem : ∀ x, f x ∈ Set.Icc 0 1) : (curve c).Falls a b Set.univ (Set.Icc 0 1) :=
  ⟨f, h, hanti.antitoneOn _, fun x _ => hmem x⟩

section Curves

variable [IsStrictOrderedRing K]

theorem computes_s (a b : K) : (curve .s).Computes a b Set.univ (Exact.smoothStep a b) :=
  computes_curve fun _ x => congrArg some (Formula.smoothStep_finite a b x)

theorem computes_z (a b : K) :
    (curve .z).Computes a b Set.univ fun x => 1 - Exact.smoothStep a b x :=
  computes_curve fun _ x => congrArg some (Formula.smoothFall_finite a b x)

theorem computes_linearS (a b : K) : (curve .linearS).Computes a b Set.univ (Exact.rampUp a b) :=
  computes_curve fun _ x => congrArg some (Formula.rampUp_finite a b x)

theorem computes_linearZ (a b : K) :
    (curve .linearZ).Computes a b Set.univ (Exact.rampDown a b) :=
  computes_curve fun _ x => congrArg some (Formula.rampDown_finite a b x)

theorem computes_concave (i e : K) : (curve .concave).Computes i e Set.univ (Exact.concave i e) :=
  computes_curve fun _ x => congrArg some (Formula.concave_finite i e x)

end Curves

section Inverses

variable [IsStrictOrderedRing K]

theorem rises_rampInverse (hab : a < b) :
    (inverse .linearS).Rises a b (Set.Icc 0 1) (Set.Icc a b) := by
  have hwidth : 0 < b - a := sub_pos.2 hab
  refine ⟨fun y => a + (b - a) * y, computes_inverse ?_, ?_, ?_⟩
  · intro lower upper rest y _
    exact congrArg some Formula.rampInverse_finite
  · intro y _ y' _ hyy'
    exact add_le_add_right (mul_le_mul_of_nonneg_left hyy' hwidth.le) a
  · intro y hy
    have hlower : 0 ≤ (b - a) * y := mul_nonneg hwidth.le hy.1
    have hupper : (b - a) * y ≤ b - a := mul_le_of_le_one_right hwidth.le hy.2
    constructor
    · linarith
    · linarith

/-- The points of the smooth step stand in the order of their degrees. -/
theorem exists_stepPoints (hroots : Elementary.SquareRoots K) (hab : a < b) :
    ∃ f : K → K, MonotoneOn f (Set.Icc 0 1) ∧ Set.MapsTo f (Set.Icc 0 1) (Set.Icc a b) ∧
      ∀ y ∈ Set.Icc (0 : K) 1,
        Formula.smoothStepInverse (finite a) (finite b) (finite y) = finite (f y) := by
  choose! f hrange hpoint hdegree using
    fun y (hy : y ∈ Set.Icc (0 : K) 1) => Formula.exists_stepPoint hroots hab hy
  refine ⟨f, ?_, fun y hy => hrange y hy, hpoint⟩
  intro y hy y' hy' hyy'
  rcases hyy'.eq_or_lt with rfl | hlt
  · exact le_rfl
  · -- points in the wrong order would have degrees in the wrong order
    by_contra hgt
    have hdegrees := Exact.smoothStep_mono a b (not_le.1 hgt).le
    rw [hdegree y hy, hdegree y' hy'] at hdegrees
    exact not_le.2 hlt hdegrees

theorem rises_stepInverse (hroots : Elementary.SquareRoots K) (hab : a < b) :
    (inverse .s).Rises a b (Set.Icc 0 1) (Set.Icc a b) := by
  obtain ⟨f, hmono, hrange, hpoint⟩ := exists_stepPoints hroots hab
  refine ⟨f, computes_inverse ?_, hmono, hrange⟩
  intro lower upper rest y hy
  exact congrArg some (hpoint y hy)

/-- The inverse of the fall reads the complement of a strength. -/
theorem falls_stepInverse (hroots : Elementary.SquareRoots K) (hab : a < b) :
    (inverse .z).Falls a b (Set.Icc 0 1) (Set.Icc a b) := by
  obtain ⟨f, hmono, hrange, hpoint⟩ := exists_stepPoints hroots hab
  refine ⟨fun y => f (1 - y), computes_inverse ?_, ?_, ?_⟩
  · intro lower upper rest y hy
    show some (Formula.smoothStepInverse (finite a) (finite b) (1 - finite y)) = _
    rw [one_eq, finite_sub, hpoint _ (one_sub_mem hy)]
  · intro y hy y' hy' hyy'
    exact hmono (one_sub_mem hy') (one_sub_mem hy) (sub_le_sub_left hyy' 1)
  · intro y hy
    exact hrange (one_sub_mem hy)

end Inverses

/-- In exact arithmetic smooth and linear steps rise, and their complements fall, for all
coefficients; a concave branch rises or falls as the order of its coefficients tells. The inverses
of steps with ends in order are monotone in the strength, with points between the ends; for the
smooth ones there have to be square roots. -/
theorem monotone_shapes [IsStrictOrderedRing K] :
    (∀ a b : K,
      (curve .s).Rises a b Set.univ (Set.Icc 0 1) ∧
        (curve .linearS).Rises a b Set.univ (Set.Icc 0 1) ∧
        (curve .z).Falls a b Set.univ (Set.Icc 0 1) ∧
        (curve .linearZ).Falls a b Set.univ (Set.Icc 0 1)) ∧
      (∀ i e : K,
        (i ≤ e → (curve .concave).Rises i e Set.univ (Set.Icc 0 1)) ∧
          (e < i → (curve .concave).Falls i e Set.univ (Set.Icc 0 1))) ∧
      ∀ a b : K, a < b →
        (inverse .linearS).Rises a b (Set.Icc 0 1) (Set.Icc a b) ∧
          (Elementary.SquareRoots K →
            (inverse .s).Rises a b (Set.Icc 0 1) (Set.Icc a b) ∧
              (inverse .z).Falls a b (Set.Icc 0 1) (Set.Icc a b)) := by
  refine ⟨?_, ?_, ?_⟩
  · intro a b
    refine ⟨?_, ?_, ?_, ?_⟩
    · exact rises_curve (computes_s a b) (Exact.smoothStep_mono a b) (Exact.smoothStep_mem a b)
    · exact rises_curve (computes_linearS a b) (Exact.rampUp_mono a b) (Exact.rampUp_mem a b)
    · apply falls_curve (computes_z a b)
      · intro x y hxy
        exact sub_le_sub_left (Exact.smoothStep_mono a b hxy) 1
      · intro x
        exact one_sub_mem (Exact.smoothStep_mem a b x)
    · exact falls_curve (computes_linearZ a b) (Exact.rampDown_anti a b) (Exact.rampDown_mem a b)
  · intro i e
    constructor
    · intro hie
      exact rises_curve (computes_concave i e) (Exact.concave_mono hie) (Exact.concave_mem i e)
    · intro hei
      exact falls_curve (computes_concave i e) (Exact.concave_anti hei) (Exact.concave_mem i e)
  · intro a b hab
    refine ⟨rises_rampInverse hab, fun hroots => ⟨?_, ?_⟩⟩
    · exact rises_stepInverse hroots hab
    · exact falls_stepInverse hroots hab

/-- A branch from 3 down to its end 1, and the inverse of the real smooth fall from 0 to 10. -/
theorem monotone_shapes_falling :
    (curve .concave).Falls (3 : ℝ) 1 Set.univ (Set.Icc 0 1) ∧
      (inverse .z).Falls (0 : ℝ) 10 (Set.Icc 0 1) (Set.Icc 0 10) := by
  have hends : (1 : ℝ) < 3 := by norm_num
  have hwidth : (0 : ℝ) < 10 := by norm_num
  obtain ⟨-, hconcave, hinverse⟩ := monotone_shapes (K := ℝ)
  exact ⟨(hconcave 3 1).2 hends, ((hinverse 0 10 hwidth).2 (Elementary.squareRoots ℝ)).2⟩

end Shape

end FuzzyInference
