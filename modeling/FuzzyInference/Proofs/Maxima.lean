import FuzzyInference.Proofs.Feeding
import Mathlib.Data.Set.Finite.Lemmas
import Mathlib.Order.Interval.Finset.Nat

/-!
# The maximum family

Three methods look for the greatest degree of a curve and report where it is: first, last, or in the
middle of its first plateau. They follow the samples with a running peak that is raised only by more
than the tolerance, so the peak need not be the greatest degree, and degrees that count as equal to
it need not count as equal to each other.

`Climb` records what happens to the peak from sample to sample: it rises, the curve stays level
with it, or the curve falls below it. The positions that it carries are characterised one by one
(`Climb.summit`, `Climb.last`, `Climb.stretch`), each by induction on the climb, and so are the
accumulators of the three methods (`Climb.fed_smallest`, `Climb.fed_largest`, `Climb.fed_mean`).
-/

set_option autoImplicit false

namespace FuzzyInference

open Extended

/-! ## Greatest indices -/

section Greatest

variable {P : ℕ → Prop} {n l : ℕ}

theorem isGreatest_of_last (h : P n) : IsGreatest {k | k < n + 1 ∧ P k} n :=
  ⟨⟨Nat.lt_succ_self n, h⟩, fun _ hk => Nat.le_of_lt_succ hk.1⟩

theorem isGreatest_of_not_last (hl : IsGreatest {k | k < n ∧ P k} l) (h : ¬ P n) :
    IsGreatest {k | k < n + 1 ∧ P k} l := by
  refine ⟨⟨Nat.lt_succ_of_lt hl.1.1, hl.1.2⟩, fun k hk => hl.2 ⟨?_, hk.2⟩⟩
  refine Nat.lt_of_le_of_ne (Nat.le_of_lt_succ hk.1) ?_
  rintro rfl
  exact h hk.2

end Greatest

variable {K : Type} [Field K] [LinearOrder K] [IsStrictOrderedRing K]

/-! ## Climbs -/

/-- The tolerance of plateaus as a number of the field. -/
def tolerance : K := 1e-10

theorem tolerance_pos : (0 : K) < tolerance := by
  unfold tolerance
  norm_num

theorem tolerance_lt_one : (tolerance : K) < 1 := by
  unfold tolerance
  norm_num

/-- A degree `b` is above a peak `a` by more than the tolerance, level with it, or below. -/
theorem rises_or_level_or_falls (a b : K) :
    a + tolerance < b ∨ |b - a| ≤ tolerance ∨ b + tolerance < a := by
  by_cases hrise : a + tolerance < b
  · exact .inl hrise
  · by_cases hfall : b + tolerance < a
    · exact .inr (.inr hfall)
    · exact .inr (.inl (abs_le.2 ⟨by linarith, by linarith⟩))

/-- From sample `m` to sample `k` the curve stays level with its degree at `m`. -/
def Unbroken (y : ℕ → K) (m k : ℕ) : Prop := m ≤ k ∧ ∀ i, m ≤ i → i ≤ k → |y i - y m| ≤ tolerance

/-- The first `n` samples of a curve have been followed. Sample `m` raised the peak last, sample `l`
was the last to raise it or to be level with it, and sample `r` ends the first plateau. -/
inductive Climb (y : ℕ → K) : (n m l r : ℕ) → Prop where
  | first : Climb y 1 0 0 0
  | rise {n m l r : ℕ} (before : Climb y n m l r) (higher : y m + tolerance < y n) :
      Climb y (n + 1) n n n
  | level {n m l r : ℕ} (before : Climb y n m l r) (near : |y n - y m| ≤ tolerance) :
      -- the plateau grows as long as no sample has ended it
      Climb y (n + 1) m n (if r + 1 = n then n else r)
  | fall {n m l r : ℕ} (before : Climb y n m l r) (lower : y n + tolerance < y m) :
      Climb y (n + 1) m l r

variable {x y : ℕ → K} {n m l r : ℕ}

theorem exists_climb (y : ℕ → K) (hn : 0 < n) : ∃ m l r, Climb y n m l r := by
  induction n, hn using Nat.le_induction with
  | base => exact ⟨0, 0, 0, .first⟩
  | succ n _ ih =>
      obtain ⟨m, l, r, h⟩ := ih
      rcases rises_or_level_or_falls (y m) (y n) with hrise | hlevel | hfall
      · exact ⟨_, _, _, h.rise hrise⟩
      · exact ⟨_, _, _, h.level hlevel⟩
      · exact ⟨_, _, _, h.fall hfall⟩

/-- The peak lies strictly above the samples in front of it, and no sample is above it by more than
the tolerance. -/
structure Summit (y : ℕ → K) (n m : ℕ) : Prop where
  within : m < n
  before : ∀ k < m, y k < y m
  all : ∀ k < n, y k ≤ y m + tolerance

namespace Climb

theorem summit (h : Climb y n m l r) : Summit y n m := by
  have htolerance := tolerance_pos (K := K)
  induction h with
  | first =>
      refine ⟨Nat.zero_lt_one, fun k hk => absurd hk (Nat.not_lt_zero k), fun k hk => ?_⟩
      obtain rfl := Nat.lt_one_iff.1 hk
      linarith
  | @rise n m l r before higher ih =>
      -- all samples so far are at most the tolerance above the old peak, so the new one passes them
      have hbelow : ∀ k < n, y k < y n := fun k hk => (ih.all k hk).trans_lt higher
      refine ⟨Nat.lt_succ_self n, hbelow, fun k hk => ?_⟩
      rcases Nat.lt_succ_iff_lt_or_eq.1 hk with hk | rfl
      · linarith [hbelow k hk]
      · linarith
  | @level n m l r before near ih =>
      refine ⟨Nat.lt_succ_of_lt ih.within, ih.before, fun k hk => ?_⟩
      rcases Nat.lt_succ_iff_lt_or_eq.1 hk with hk | rfl
      · exact ih.all k hk
      · linarith [(abs_le.1 near).2]
  | @fall n m l r before lower ih =>
      refine ⟨Nat.lt_succ_of_lt ih.within, ih.before, fun k hk => ?_⟩
      rcases Nat.lt_succ_iff_lt_or_eq.1 hk with hk | rfl
      · exact ih.all k hk
      · linarith

theorem last (h : Climb y n m l r) : IsGreatest {k | k < n ∧ y m - tolerance ≤ y k} l := by
  have htolerance := tolerance_pos (K := K)
  induction h with
  | first => exact isGreatest_of_last (by linarith)
  | rise before higher ih => exact isGreatest_of_last (by linarith)
  | level before near ih => exact isGreatest_of_last (by linarith [(abs_le.1 near).1])
  | fall before lower ih => exact isGreatest_of_not_last ih (by linarith)

end Climb

theorem Unbroken.refl (y : ℕ → K) (m : ℕ) : Unbroken y m m := by
  refine ⟨Nat.le_refl m, fun i hmi him => ?_⟩
  obtain rfl := Nat.le_antisymm hmi him
  rw [sub_self, abs_zero]
  exact tolerance_pos.le

omit [IsStrictOrderedRing K] in
theorem unbroken_succ_iff (hm : m ≤ r) :
    Unbroken y m (r + 1) ↔ Unbroken y m r ∧ |y (r + 1) - y m| ≤ tolerance := by
  constructor
  · rintro ⟨hmr, hall⟩
    exact ⟨⟨hm, fun i hmi hir => hall i hmi (Nat.le_succ_of_le hir)⟩,
      hall (r + 1) hmr (Nat.le_refl _)⟩
  · rintro ⟨hunbroken, hnear⟩
    refine ⟨Nat.le_succ_of_le hm, fun i hmi hir => ?_⟩
    rcases Nat.le_succ_iff.1 hir with hir | rfl
    · exact hunbroken.2 i hmi hir
    · exact hnear

namespace Climb

theorem stretch (h : Climb y n m l r) : IsGreatest {k | k < n ∧ Unbroken y m k} r := by
  induction h with
  | first => exact isGreatest_of_last (.refl y 0)
  | @rise n m l r before higher ih => exact isGreatest_of_last (.refl y n)
  | @level n m l r before near ih =>
      split
      case isTrue hend =>
        subst hend
        exact isGreatest_of_last ((unbroken_succ_iff ih.1.2.1).2 ⟨ih.1.2, near⟩)
      case isFalse hend =>
        -- a plateau that reached sample `n` would have reached the sample before it
        have hmn := before.summit.within
        refine isGreatest_of_not_last ih fun hunbroken => ?_
        obtain ⟨k, rfl⟩ := Nat.exists_eq_succ_of_ne_zero (Nat.ne_zero_of_lt hmn)
        have hk := ((unbroken_succ_iff (Nat.le_of_lt_succ hmn)).1 hunbroken).1
        have hkr : k ≤ r := ih.2 ⟨Nat.lt_succ_self k, hk⟩
        have hrk : r ≤ k := Nat.le_of_lt_succ ih.1.1
        exact hend (congrArg Nat.succ (Nat.le_antisymm hrk hkr))
  | @fall n m l r before lower ih =>
      -- no stretch of samples level with the peak contains sample `n`
      refine isGreatest_of_not_last ih fun hunbroken => ?_
      have hnear := hunbroken.2 n hunbroken.1 (Nat.le_refl n)
      linarith [(abs_le.1 hnear).1]

end Climb

/-! ## The accumulators along a climb -/

namespace Method

variable [Elementary K]

/-- The three methods that follow the peak of a curve. -/
def OfMaximum (method : Method) : Prop :=
  method = .smallestOfMaximum ∨ method = .meanOfMaximum ∨ method = .largestOfMaximum

omit [IsStrictOrderedRing K] in
theorem plateauTolerance_eq : (plateauTolerance : Extended K) = finite tolerance := rfl

section Steps

variable {p a b : K} {smallest largest : Extended K} {plateau : Bool}

omit [IsStrictOrderedRing K] in
theorem accumulate_rise (h : p + tolerance < b) :
    Method.smallestOfMaximum.accumulate (finite a) (finite b)
        (.maximum (finite p) smallest largest plateau) =
          .maximum (finite b) (finite a) largest plateau ∧
      Method.largestOfMaximum.accumulate (finite a) (finite b)
        (.maximum (finite p) smallest largest plateau) =
          .maximum (finite b) smallest (finite a) plateau ∧
      Method.meanOfMaximum.accumulate (finite a) (finite b)
        (.maximum (finite p) smallest largest plateau) =
          .maximum (finite b) (finite a) (finite a) true := by
  have hhigher : finite p + plateauTolerance < finite b := by
    rw [plateauTolerance_eq, finite_add, finite_lt]
    exact h
  simp only [accumulate, if_pos hhigher, and_self]

theorem accumulate_level (h : |b - p| ≤ tolerance) :
    Method.smallestOfMaximum.accumulate (finite a) (finite b)
        (.maximum (finite p) smallest largest plateau) =
          .maximum (finite p) smallest largest plateau ∧
      Method.largestOfMaximum.accumulate (finite a) (finite b)
        (.maximum (finite p) smallest largest plateau) =
          .maximum (finite p) smallest (finite a) plateau ∧
      Method.meanOfMaximum.accumulate (finite a) (finite b)
        (.maximum (finite p) smallest largest plateau) =
          .maximum (finite p) smallest (if plateau then finite a else largest) plateau := by
  have hnot : ¬ finite p + plateauTolerance < finite b := by
    rw [plateauTolerance_eq, finite_add, finite_lt]
    linarith [(abs_le.1 h).2]
  have hnear : Scalar.abs (finite b - finite p) ≤ plateauTolerance := by
    rw [finite_sub]
    exact h
  simp only [accumulate, if_neg hnot, if_pos hnear, and_self]

theorem accumulate_fall (h : b + tolerance < p) :
    Method.smallestOfMaximum.accumulate (finite a) (finite b)
        (.maximum (finite p) smallest largest plateau) =
          .maximum (finite p) smallest largest plateau ∧
      Method.largestOfMaximum.accumulate (finite a) (finite b)
        (.maximum (finite p) smallest largest plateau) =
          .maximum (finite p) smallest largest plateau ∧
      Method.meanOfMaximum.accumulate (finite a) (finite b)
        (.maximum (finite p) smallest largest plateau) =
          .maximum (finite p) smallest largest false := by
  have htolerance := tolerance_pos (K := K)
  have hnot : ¬ finite p + plateauTolerance < finite b := by
    rw [plateauTolerance_eq, finite_add, finite_lt]
    linarith
  have hfar : ¬ Scalar.abs (finite b - finite p) ≤ plateauTolerance := by
    rw [finite_sub]
    intro hnear
    linarith [(abs_le.1 (show |b - p| ≤ tolerance from hnear)).1]
  simp only [accumulate, if_neg hnot, if_neg hfar, and_self]

end Steps

end Method

namespace Climb

open Method

variable [Elementary K] {v : Variable (Extended K)}

omit [Elementary K] in
/-- The first sample raises the peak from -1. -/
theorem zero_rises (hy : 0 ≤ y 0) : (-1 : K) + tolerance < y 0 := by
  linarith [tolerance_lt_one (K := K)]

/-- The smallest of maximum holds the sample that raised the peak last. -/
theorem fed_smallest (h : Climb y n m l r) (hy : 0 ≤ y 0) :
    Method.smallestOfMaximum.fed v (fun k => finite (x k)) (fun k => finite (y k)) n =
      .maximum (finite (y m)) (finite (x m)) v.upper false := by
  induction h with
  | first => exact (accumulate_rise (zero_rises hy)).1
  | rise before higher ih => rw [fed, ih, (accumulate_rise higher).1]
  | level before near ih => rw [fed, ih, (accumulate_level near).1]
  | fall before lower ih => rw [fed, ih, (accumulate_fall lower).1]

/-- The largest of maximum holds the last sample that is not below the peak. -/
theorem fed_largest (h : Climb y n m l r) (hy : 0 ≤ y 0) :
    Method.largestOfMaximum.fed v (fun k => finite (x k)) (fun k => finite (y k)) n =
      .maximum (finite (y m)) v.lower (finite (x l)) false := by
  induction h with
  | first => exact (accumulate_rise (zero_rises hy)).2.1
  | rise before higher ih => rw [fed, ih, (accumulate_rise higher).2.1]
  | level before near ih => rw [fed, ih, (accumulate_level near).2.1]
  | fall before lower ih => rw [fed, ih, (accumulate_fall lower).2.1]

/-- The mean of maximum holds both ends of the first plateau, and knows whether the plateau goes
on. -/
theorem fed_mean (h : Climb y n m l r) (hy : 0 ≤ y 0) :
    Method.meanOfMaximum.fed v (fun k => finite (x k)) (fun k => finite (y k)) n =
      .maximum (finite (y m)) (finite (x m)) (finite (x r)) (decide (r + 1 = n)) := by
  induction h with
  | first => exact (accumulate_rise (zero_rises hy)).2.2
  | rise before higher ih =>
      rw [fed, ih, (accumulate_rise higher).2.2, decide_eq_true rfl]
  | @level n m l r before near ih =>
      rw [fed, ih, (accumulate_level near).2.2]
      -- the flag is still set exactly if the plateau has reached the sample before this one
      by_cases hend : r + 1 = n
      · simp [hend]
      · have hrn : r ≠ n := Nat.ne_of_lt before.stretch.1.1
        simp [hend, hrn]
  | @fall n m l r before lower ih =>
      have hrn : r ≠ n := Nat.ne_of_lt before.stretch.1.1
      rw [fed, ih, (accumulate_fall lower).2.2]
      simp [hrn]

end Climb

/-! ## Values -/

section Values

variable [Elementary K] (v : Variable (Extended K))

/-- What the three methods make of the first `n` samples of a curve, of which `M` is the greatest
degree: they have the peak at sample `m` in common, and report about samples `m`, `r` and `l`. -/
structure Maxima (x y : ℕ → K) (n : ℕ) (M : K) (m l r : ℕ) : Prop where
  greatest : IsGreatest (y '' Set.Iio n) M
  /-- The peak is the degree of a sample, by no more than the tolerance below the greatest. -/
  near : m < n ∧ y m ∈ Set.Icc (M - tolerance) M
  /-- All three accumulators hold the peak. -/
  peak : ∀ method : Method, method.OfMaximum → ∃ smallest largest plateau,
    method.fed v (fun k => finite (x k)) (fun k => finite (y k)) n =
      .maximum (finite (y m)) smallest largest plateau
  /-- It is reached first at sample `m`. -/
  first : IsLeast {k | k < n ∧ y m ≤ y k} m
  before : ∀ k < m, y k < y m
  /-- It is missed by no more than the tolerance last at sample `l`. -/
  last : IsGreatest {k | k < n ∧ y m - tolerance ≤ y k} l
  /-- The first plateau ends with sample `r`. -/
  stretch : IsGreatest {k | k < n ∧ Unbroken y m k} r
  smallest : 0 < y m → Method.smallestOfMaximum.finalize (Method.smallestOfMaximum.fed v
    (fun k => finite (x k)) (fun k => finite (y k)) n) = finite (x m)
  largest : 0 < y m → Method.largestOfMaximum.finalize (Method.largestOfMaximum.fed v
    (fun k => finite (x k)) (fun k => finite (y k)) n) = finite (x l)
  mean : 0 < y m → Method.meanOfMaximum.finalize (Method.meanOfMaximum.fed v
    (fun k => finite (x k)) (fun k => finite (y k)) n) = finite ((x m + x r) / 2)
  ordered : x m ≤ (x m + x r) / 2 ∧ (x m + x r) / 2 ≤ x l
  /-- The samples of greatest degree lie between the first and the last value. -/
  between : ∀ k < n, y k = M → x k ∈ Set.Icc (x m) (x l)

namespace Climb

omit [Elementary K] in
theorem greatest_near (h : Climb y n m l r) :
    ∃ M, IsGreatest (y '' Set.Iio n) M ∧ y m ∈ Set.Icc (M - tolerance) M := by
  have hsummit := h.summit
  obtain ⟨k, hk, hmax⟩ := Set.exists_max_image (Set.Iio n) y (Set.finite_Iio n)
    ⟨m, hsummit.within⟩
  refine ⟨y k, ⟨Set.mem_image_of_mem y hk, ?_⟩, ?_, hmax m hsummit.within⟩
  · rintro _ ⟨i, hi, rfl⟩
    exact hmax i hi
  · linarith [hsummit.all k hk]

omit [Elementary K] in
/-- The last position is not before the end of the first plateau. -/
theorem stretch_le_last (h : Climb y n m l r) : r ≤ l := by
  obtain ⟨hr, hunbroken⟩ := h.stretch.1
  refine h.last.2 ⟨hr, ?_⟩
  linarith [(abs_le.1 (hunbroken.2 r hunbroken.1 (Nat.le_refl r))).1]

theorem maxima (h : Climb y n m l r) (hx : StrictMonoOn x (Set.Iio n)) (hy : 0 ≤ y 0) :
    ∃ M, Maxima v x y n M m l r := by
  obtain ⟨M, hgreatest, hnear⟩ := h.greatest_near
  have hsummit := h.summit
  have hlast := h.last
  have hstretch := h.stretch
  have hsmallest := h.fed_smallest (x := x) (v := v) hy
  have hlargest := h.fed_largest (x := x) (v := v) hy
  have hmean := h.fed_mean (x := x) (v := v) hy
  have hpositive : 0 < y m → ¬ finite (y m) ≤ (0 : Extended K) := by
    intro hpos
    rw [zero_eq, finite_le]
    exact not_le.2 hpos
  have hmr : x m ≤ x r :=
    hx.monotoneOn hsummit.within hstretch.1.1 hstretch.1.2.1
  have hrl : x r ≤ x l := hx.monotoneOn hstretch.1.1 hlast.1.1 h.stretch_le_last
  refine ⟨M, hgreatest, ⟨hsummit.within, hnear⟩, ?_, ⟨⟨hsummit.within, le_refl _⟩, ?_⟩,
    hsummit.before, hlast, hstretch, ?_, ?_, ?_, ⟨by linarith, by linarith⟩, ?_⟩
  · rintro method (rfl | rfl | rfl)
    · exact ⟨_, _, _, hsmallest⟩
    · exact ⟨_, _, _, hmean⟩
    · exact ⟨_, _, _, hlargest⟩
  · rintro k ⟨-, hk⟩
    exact not_lt.1 fun hkm => absurd hk (not_le.2 (hsummit.before k hkm))
  · intro hpos
    rw [hsmallest]
    exact if_neg (hpositive hpos)
  · intro hpos
    rw [hlargest]
    exact if_neg (hpositive hpos)
  · intro hpos
    rw [hmean, Method.finalize, if_neg (hpositive hpos), finite_add, half_mul]
  -- a sample of greatest degree is neither in front of the peak nor too low to count as the last
  · rintro k hk rfl
    have hmk : m ≤ k := not_lt.1 fun hkm => absurd hnear.2 (not_le.2 (hsummit.before k hkm))
    have hkl : k ≤ l := hlast.2 ⟨hk, by linarith [hnear.2, tolerance_pos (K := K)]⟩
    exact ⟨hx.monotoneOn hsummit.within hk hmk, hx.monotoneOn hk hlast.1.1 hkl⟩

end Climb

/-- In exact arithmetic, on every curve that is sampled at increasing points and has no negative
degree, the three methods agree about a peak and report its first sample, the middle of its first
plateau and its last sample. -/
theorem maximum_family (hn : 0 < n) (hx : StrictMonoOn x (Set.Iio n))
    (hy : ∀ k < n, y k ∈ Set.Icc 0 1) : ∃ M m l r, Maxima v x y n M m l r := by
  obtain ⟨m, l, r, h⟩ := exists_climb y hn
  obtain ⟨M, hM⟩ := h.maxima v hx (hy 0 hn).1
  exact ⟨M, m, l, r, hM⟩

end Values

/-- A curve that drifts upwards by less than the tolerance from sample to sample: sample 3 raises the
peak, sample 4 is the greatest, and sample 6 comes back to the peak after a fall. -/
def driftingCurve (k : ℕ) : ℚ :=
  [0.3, 0.5, 0.5 + 6e-11, 0.5 + 12e-11, 0.5 + 20e-11, 0.2, 0.5 + 6e-11, 0].getD k 0

theorem maximum_family_driftingCurve :
    ∃ m l r : ℕ, m < 8 ∧
      Method.smallestOfMaximum.finalize (Method.smallestOfMaximum.fed .blank
        (fun k => finite (k : ℚ)) (fun k => finite (driftingCurve k)) 8) = finite (m : ℚ) ∧
      Method.largestOfMaximum.finalize (Method.largestOfMaximum.fed .blank
        (fun k => finite (k : ℚ)) (fun k => finite (driftingCurve k)) 8) = finite (l : ℚ) ∧
      Method.meanOfMaximum.finalize (Method.meanOfMaximum.fed .blank
        (fun k => finite (k : ℚ)) (fun k => finite (driftingCurve k)) 8) =
          finite (((m : ℚ) + r) / 2) := by
  obtain ⟨M, m, l, r, h⟩ := maximum_family (x := fun k => (k : ℚ)) (y := driftingCurve) .blank
    (show 0 < 8 by decide) (Nat.strictMono_cast.strictMonoOn _) (by decide +kernel)
  -- the peak is not far below the greatest degree, so it is positive
  have hM : driftingCurve 1 ≤ M := h.greatest.2 ⟨1, by decide, rfl⟩
  have hpos : 0 < driftingCurve m := by
    have hpeak : (0 : ℚ) < driftingCurve 1 - tolerance := by decide +kernel
    linarith [h.near.2.1]
  exact ⟨m, l, r, h.near.1, h.smallest hpos, h.largest hpos, h.mean hpos⟩

example :
    Method.smallestOfMaximum.finalize (Method.smallestOfMaximum.fed .blank
        (fun k => finite (k : ℚ)) (fun k => finite (driftingCurve k)) 8) = finite 3 ∧
      Method.meanOfMaximum.finalize (Method.meanOfMaximum.fed .blank
        (fun k => finite (k : ℚ)) (fun k => finite (driftingCurve k)) 8) = finite 3.5 ∧
      Method.largestOfMaximum.finalize (Method.largestOfMaximum.fed .blank
        (fun k => finite (k : ℚ)) (fun k => finite (driftingCurve k)) 8) = finite 6 := by
  decide +kernel

end FuzzyInference
