import FuzzyInference.Proofs.Feeding
import FuzzyInference.Proofs.Residue
import FuzzyInference.Proofs.Silent

/-!
# The bisector

In exact arithmetic the first sweep of the bisector leaves the sum of the sampled degrees
(`Output.area_sweep`), and the second stops at the first sample where the sum of the degrees up to
it reaches half of that (`Output.area_rescan`). There is such a sample whenever the sum is positive,
so the second sweep never runs out of samples (`exists_crossing`).

Every number of both sweeps is a number of the field, because the samples are degrees. The sums of
an output are changed by its own sweep only: whichever outputs are bisected besides it, and in
which order, its value is the same.
-/

set_option autoImplicit false

namespace FuzzyInference

open Extended

/-! ## One output among others -/

namespace Engine

section Independence

variable {α : Type} [Scalar α] {e e' : Engine α} {rules rules' : List Rule}

/-- The scan of a sample decides by the output that is sampled, and changes it alone. -/
theorem scan_sampled {o : ℕ} {out : Output α} (hout : e.outputs[o]? = some out)
    (f : ℕ → Output α → Output α) (k points : ℕ) :
    (e.mapOutputsIdx fun i out =>
        if i = o then (f i out).sampled (e.curve i) k points else f i out).scan o =
      (e.mapOutputsIdx fun i out =>
        if i = o then ((f i out).sampled (e.curve i) k points).scanned else f i out,
        ((f o out).sampled (e.curve o) k points).reached) := by
  rw [scan_of_getElem? ((f o out).sampled (e.curve o) k points)
    (by rw [getElem?_mapOutputsIdx, hout, Option.map_some, if_pos rfl]), modifyOutput_eq,
    mapOutputsIdx_mapOutputsIdx]
  refine Prod.ext (mapOutputsIdx_congr fun i out' _ => ?_) rfl
  by_cases hio : i = o
  · simp only [hio, if_true]
  · simp only [hio, if_false]

namespace Ready

variable (h : e.Ready rules) (harch : e.architecture = .mamdani)

include h harch

/-- Whichever outputs are bisected, and in which order, the value of each of them is read off its
accumulator then. -/
theorem getElem?_defuzzify_bisect (hmethod : e.config.method = .bisector) {os : List ℕ}
    (hnodup : os.Nodup) (hos : ∀ i ∈ os, i < e.outputs.length) {o : ℕ} (ho : o ∈ os) :
    (bisect e.config.evalPoints os e.swept).2 = .ok () ∧
      e.defuzzify.1.outputs[o]? =
        (bisect e.config.evalPoints os e.swept).1.outputs[o]?.map (Output.settle .bisector) := by
  rw [h.swept_eq harch, bisect_eq harch h.outcome_eq _ _ hos hnodup]
  refine ⟨rfl, ?_⟩
  rw [getElem?_mapOutputsIdx, h.getElem?_defuzzify, Option.map_map]
  refine congrFun (congrArg Option.map (funext fun out => ?_)) _
  rw [crisp_mamdani harch, Output.traced, hmethod, if_pos rfl, Function.comp_apply, if_pos ho]

/-- Two outputs over one range about which the rules that fire say the same are defuzzified
alike. -/
theorem crisp_alike (h' : e'.Ready rules') (harch' : e'.architecture = .mamdani)
    (hconfig : e'.config = e.config) (hmemberships : e'.outputMemberships = e.outputMemberships)
    (hpoints : 0 < e.config.evalPoints) {o o' : ℕ} {out out' : Output α}
    (hrange : out'.range = out.range)
    (hfiring : Firing.ofRules e'.strengths o' rules' = Firing.ofRules e.strengths o rules) :
    (e'.crisp o' out').accumulator = (e.crisp o out).accumulator ∧
      (e'.crisp o' out').value = (e.crisp o out).value := by
  have hcurve : e'.curve o' = e.curve o := by
    rw [h'.curve_eq, h.curve_eq, hconfig, hmemberships, hfiring]
  have htraced : (out'.traced e.config.method (e.curve o) e.config.evalPoints).bare =
      (out.traced e.config.method (e.curve o) e.config.evalPoints).bare :=
    Output.traced_eq_of_range hrange hpoints
  have hsettled : ((out'.traced e.config.method (e.curve o) e.config.evalPoints).settle
        e.config.method).bare =
      ((out.traced e.config.method (e.curve o) e.config.evalPoints).settle e.config.method).bare :=
    congrArg (Output.settle e.config.method) htraced
  rw [crisp_mamdani harch, crisp_mamdani harch', hconfig, hcurve]
  obtain ⟨haccumulator, hvalue, -⟩ := Output.observed_of_bare hsettled
  exact ⟨haccumulator, hvalue⟩

end Ready

end Independence

end Engine

/-! ## Sums that cross a half -/

section Crossing

variable {K : Type} [Field K] [LinearOrder K] [IsStrictOrderedRing K]

/-- A positive sum has a first summand that takes it to its half or beyond. -/
theorem exists_crossing {y : ℕ → K} {n : ℕ} (hpos : 0 < ∑ i ∈ Finset.range n, y i) :
    ∃ m < n, IsLeast {k | (∑ i ∈ Finset.range n, y i) / 2 ≤ ∑ i ∈ Finset.range (k + 1), y i} m ∧
      ∑ i ∈ Finset.range m, y i < (∑ i ∈ Finset.range n, y i) / 2 ∧ 0 < y m := by
  have hhalf := half_pos hpos
  have hn : n ≠ 0 := by
    rintro rfl
    simp at hpos
  have hlast : (∑ i ∈ Finset.range n, y i) / 2 ≤ ∑ i ∈ Finset.range (n - 1 + 1), y i := by
    rw [Nat.sub_add_cancel (Nat.pos_of_ne_zero hn)]
    exact half_le_self hpos.le
  have hex : ∃ k, (∑ i ∈ Finset.range n, y i) / 2 ≤ ∑ i ∈ Finset.range (k + 1), y i :=
    ⟨n - 1, hlast⟩
  -- the whole sum reaches its half, so there is a first that does
  obtain ⟨m, hm, hmin⟩ := Nat.findX hex
  have hbefore : ∑ i ∈ Finset.range m, y i < (∑ i ∈ Finset.range n, y i) / 2 := by
    cases m with
    | zero => simpa using hhalf
    | succ m => exact not_le.1 (hmin m (Nat.lt_succ_self m))
  refine ⟨m, ?_, ⟨hm, fun k hk => ?_⟩, hbefore, ?_⟩
  · by_contra hle
    exact hmin (n - 1) (by omega) hlast
  · by_contra hlt
    exact hmin k (not_le.1 hlt) hk
  · rw [Finset.sum_range_succ] at hm
    linarith

omit [IsStrictOrderedRing K] in
/-- In front of it all sums are too small. -/
theorem sum_lt_of_isLeast {y : ℕ → K} {half : K} {m : ℕ}
    (h : IsLeast {k | half ≤ ∑ i ∈ Finset.range (k + 1), y i} m) {k : ℕ} (hk : k < m) :
    ∑ i ∈ Finset.range (k + 1), y i < half :=
  not_le.1 fun hle => Nat.not_le.2 hk (h.2 hle)

end Crossing

variable {K : Type} [Field K] [LinearOrder K] [IsStrictOrderedRing K] [Elementary K]

/-! ## The two sweeps of one output -/

omit [IsStrictOrderedRing K] in
/-- The first sweep adds the degrees to the total. -/
theorem Method.fed_bisector (v : Variable (Extended K)) (x : ℕ → Extended K) (y : ℕ → K) (n : ℕ) :
    Method.bisector.fed v x (fun k => finite (y k)) n =
      .area (finite (∑ k ∈ Finset.range n, y k)) 0 0 v.lower := by
  induction n with
  | zero => rfl
  | succ n ih =>
      rw [fed, ih, Finset.sum_range_succ, ← finite_add]
      rfl

namespace Output

variable {curve : Variable (Extended K) → Extended K} {points k : ℕ}
  {out base : Output (Extended K)} {y : ℕ → K} {half : K}
  {total half' current crossing : Extended K}

omit [IsStrictOrderedRing K] in
/-- One sample of the second sweep. -/
theorem area_scanned (hrange : out.range = base.range)
    (hy : curve (base.sampleAt k points) = finite (y k))
    (hacc : out.accumulator =
      .area total (finite half) (finite (∑ i ∈ Finset.range k, y i)) crossing) :
    (out.sampled curve k points).scanned.accumulator =
        .area total (finite half) (finite (∑ i ∈ Finset.range (k + 1), y i))
          (base.samplePoint k points) ∧
      ((out.sampled curve k points).reached = true ↔
        half ≤ ∑ i ∈ Finset.range (k + 1), y i) := by
  have hx : (out.sampled curve k points).x = base.samplePoint k points :=
    (sampled_eq_of_range hrange).1
  have hsample : (out.sampled curve k points).y = finite (y k) :=
    (sampled_eq_of_range hrange).2.trans hy
  have hscan : (out.sampled curve k points).accumulator.scanArea (out.sampled curve k points).x
      (out.sampled curve k points).y =
      (.area total (finite half) (finite (∑ i ∈ Finset.range (k + 1), y i))
        (base.samplePoint k points),
        decide (half ≤ ∑ i ∈ Finset.range (k + 1), y i)) := by
    show out.accumulator.scanArea _ _ = _
    rw [hacc, hx, hsample, Finset.sum_range_succ, Accumulator.scanArea, finite_add]
    rfl
  rw [scanned, reached, hscan]
  exact ⟨rfl, decide_eq_true_iff⟩

omit [IsStrictOrderedRing K] in
/-- The second sweep stops where the sum reaches the half, and crosses there. -/
theorem area_rescan {m : ℕ} (hrange : out.range = base.range) (left : ℕ) (hk : k ≤ m)
    (hm : m < k + left) (hy : ∀ i < k + left, curve (base.sampleAt i points) = finite (y i))
    (hshort : ∀ i < m, ∑ j ∈ Finset.range (i + 1), y j < half)
    (hreached : half ≤ ∑ j ∈ Finset.range (m + 1), y j)
    (hacc : out.accumulator =
      .area total (finite half) (finite (∑ i ∈ Finset.range k, y i)) crossing) :
    (out.rescan curve points left k).accumulator =
      .area total (finite half) (finite (∑ i ∈ Finset.range (m + 1), y i))
        (base.samplePoint m points) := by
  induction left generalizing k out crossing with
  | zero => omega
  | succ left ih =>
      obtain ⟨hscanned, hstops⟩ := area_scanned hrange (hy k (by omega)) hacc
      rw [rescan]
      -- either this is the sample where the half is reached, or the sum is still too small
      rcases Nat.eq_or_lt_of_le hk with rfl | hlt
      · rw [if_pos (hstops.2 hreached)]
        exact hscanned
      · rw [if_neg (hstops.not.2 (not_le.2 (hshort k hlt)))]
        exact ih (k := k + 1) hrange hlt (by omega) (fun i hi => hy i (by omega)) hscanned

section Sweeps

variable (hy : ∀ k < points, curve (out.sampleAt k points) = finite (y k))

include hy

omit [IsStrictOrderedRing K] in
/-- The first sweep leaves the sum of the degrees. -/
theorem area_swept :
    ((out.reset .bisector).sweep .bisector curve points points 0).accumulator =
      .area (finite (∑ k ∈ Finset.range points, y k)) 0 0 out.lower := by
  have hfed : Method.bisector.fed out.toVariable (fun k => out.samplePoint k points)
      (fun k => curve (out.sampleAt k points)) points =
      Method.bisector.fed out.toVariable (fun k => out.samplePoint k points)
        (fun k => finite (y k)) points := Method.fed_congr (fun _ _ => rfl) hy
  rw [accumulator_swept, hfed, Method.fed_bisector]

/-- The second sweep begins with half of it to reach. -/
theorem area_begun :
    ((out.reset .bisector).sweep .bisector curve points points 0).beginBisection.accumulator =
      .area (finite (∑ k ∈ Finset.range points, y k))
        (finite ((∑ k ∈ Finset.range points, y k) / 2)) (finite (∑ k ∈ Finset.range 0, y k))
        out.lower := by
  rw [beginBisection, area_swept hy, Accumulator.beginBisection, half_mul]
  rfl

theorem area_traced {m : ℕ} (hm : m < points)
    (hshort : ∀ i < m, ∑ j ∈ Finset.range (i + 1), y j < (∑ k ∈ Finset.range points, y k) / 2)
    (hreached : (∑ k ∈ Finset.range points, y k) / 2 ≤ ∑ j ∈ Finset.range (m + 1), y j) :
    (out.traced .bisector curve points).accumulator =
      .area (finite (∑ k ∈ Finset.range points, y k))
        (finite ((∑ k ∈ Finset.range points, y k) / 2))
        (finite (∑ k ∈ Finset.range (m + 1), y k)) (out.samplePoint m points) := by
  have hrange : ((out.reset .bisector).sweep .bisector curve points points
      0).beginBisection.range = out.range := range_sweep ..
  rw [traced, if_pos rfl]
  exact area_rescan hrange points (Nat.zero_le m) (by omega) (fun i hi => hy i (by omega))
    hshort hreached (area_begun hy)

end Sweeps

end Output

/-- A sample point over a finite range lies in the range. -/
theorem Variable.clamp_samplePoint {v : Variable (Extended K)} {a b : K} (hab : a < b)
    (hlower : v.lower = finite a) (hupper : v.upper = finite b) {m points : ℕ} (hm : m < points) :
    Scalar.clamp v.lower v.upper (v.samplePoint m points) =
      finite (a + (m + 1 / 2) * ((b - a) / points)) := by
  obtain ⟨hlow, hhigh⟩ := gridPoint_mem hab hm
  have hpoint := samplePoint_finite hlower hupper (Nat.zero_lt_of_lt hm) m
  rw [hpoint, hlower, hupper]
  exact Scalar.clamp_of_within (within_finite_iff.2 ⟨_, ⟨hlow.le, hhigh.le⟩, rfl⟩)

namespace Engine

variable {e : Engine (Extended K)} {rules : List Rule}

/-- The samples of an output are numbers of the field, between 0 and 1. -/
theorem exists_samples (e : Engine (Extended K)) (rules : List Rule) (o : ℕ)
    (out : Output (Extended K)) :
    ∃ y : ℕ → K, ∀ k, y k ∈ Set.Icc 0 1 ∧
      Firing.degree e.config e.outputMemberships (Firing.ofRules e.strengths o rules)
        (out.sampleAt k e.config.evalPoints) = finite (y k) :=
  Classical.axiomOfChoice fun k => within_unit_iff.1 (Firing.within_degree e.config
    e.outputMemberships (Firing.ofRules e.strengths o rules)
    (out.sampleAt k e.config.evalPoints))

namespace Ready

variable (h : e.Ready rules) (harch : e.architecture = .mamdani)
  (hmethod : e.config.method = .bisector) {o : ℕ} {out : Output (Extended K)} {y : ℕ → K}

include h harch hmethod

section Sweeps

variable (hout : e.outputs[o]? = some out)
  (hy : ∀ k < e.config.evalPoints, e.curve o (out.sampleAt k e.config.evalPoints) =
    finite (y k)) {m : ℕ} (hm : m < e.config.evalPoints)
  (hshort : ∀ k < m, ∑ i ∈ Finset.range (k + 1), y i <
    (∑ i ∈ Finset.range e.config.evalPoints, y i) / 2)

include hout hy hm hshort

/-- As long as the sum stays below the half the second sweep goes on. -/
theorem exists_halves : ∀ k ≤ m, ∃ f : ℕ → Output (Extended K) → Output (Extended K),
    Halves e o k (e.mapOutputsIdx f) ∧ (f o out).range = out.range ∧
      ∃ crossing, (f o out).accumulator =
        .area (finite (∑ i ∈ Finset.range e.config.evalPoints, y i))
          (finite ((∑ i ∈ Finset.range e.config.evalPoints, y i) / 2))
          (finite (∑ i ∈ Finset.range k, y i)) crossing := by
  have ho : o < e.outputs.length := (List.getElem?_eq_some_iff.1 hout).1
  intro k hk
  induction k with
  | zero =>
      have hbegins := Halves.begins (e := e) (o := o)
      rw [h.swept_eq harch, bisect_eq harch h.outcome_eq _ _
        (fun i hi => Nat.lt_trans (List.mem_range.1 hi) ho) List.nodup_range, modifyOutput_eq,
        mapOutputsIdx_mapOutputsIdx, hmethod] at hbegins
      refine ⟨_, hbegins, ?_⟩
      -- the outputs that are bisected before `o` are others
      rw [if_pos rfl, if_neg (by simp)]
      exact ⟨Output.range_sweep .., out.lower, Output.area_begun hy⟩
  | succ k ih =>
      obtain ⟨f, hhalves, hrange, crossing, hacc⟩ := ih (by omega)
      obtain ⟨hscanned, hstops⟩ := Output.area_scanned hrange (hy k (by omega)) hacc
      have hgoes : ((f o out).sampled (e.curve o) k e.config.evalPoints).reached = false :=
        Bool.eq_false_iff.2 (hstops.not.2 (not_le.2 (hshort k (by omega))))
      have hnext := hhalves.goesOn (by omega)
        (aggregate_modifyOutput harch h.outcome_eq f o k _) (by rw [scan_sampled hout, hgoes])
      rw [scan_sampled hout] at hnext
      refine ⟨_, hnext, ?_, out.samplePoint k e.config.evalPoints, ?_⟩
      · rw [if_pos rfl]
        exact hrange
      · rw [if_pos rfl]
        exact hscanned

/-- Where the sum reaches the half the second sweep stops. -/
theorem halve_stops (hreached : (∑ i ∈ Finset.range e.config.evalPoints, y i) / 2 ≤
      ∑ i ∈ Finset.range (m + 1), y i) :
    ∃ s s', Halves e o m s ∧
      aggregate (some o) (s.modifyOutput o (Output.beginSample m e.config.evalPoints)) =
        (s', .ok ()) ∧
      (s'.scan o).2 = true ∧
      halve o e.config.evalPoints e.config.evalPoints 0
          ((bisect e.config.evalPoints (List.range o) e.swept).1.modifyOutput o
            Output.beginBisection) =
        ((s'.scan o).1, .ok ()) := by
  obtain ⟨f, hhalves, hrange, crossing, hacc⟩ :=
    h.exists_halves harch hmethod hout hy hm hshort m (Nat.le_refl m)
  have hscan := (Output.area_scanned hrange (hy m hm) hacc).2.2 hreached
  have haggregated := aggregate_modifyOutput harch h.outcome_eq f o m e.config.evalPoints
  refine ⟨_, _, hhalves, haggregated, ?_, ?_⟩
  · rw [scan_sampled hout, hscan]
  · rw [hhalves.halve_eq,
      show e.config.evalPoints - m = e.config.evalPoints - (m + 1) + 1 by omega, halve_succ,
      haggregated, Outcome.andThen, if_pos]
    rw [scan_sampled hout, hscan]

end Sweeps

end Ready

/-- What the bisector makes of the samples `y` of output `o`, given as `out`: it crosses at
sample `m`. -/
structure Bisects (e : Engine (Extended K)) (o : ℕ) (out : Output (Extended K)) (y : ℕ → K)
    (m : ℕ) : Prop where
  /-- There is such a sample. -/
  within : m < e.config.evalPoints
  /-- It is the first where the sum of the samples up to it reaches half of the whole. -/
  least : IsLeast {k | (∑ i ∈ Finset.range e.config.evalPoints, y i) / 2 ≤
    ∑ i ∈ Finset.range (k + 1), y i} m
  before : ∑ i ∈ Finset.range m, y i < (∑ i ∈ Finset.range e.config.evalPoints, y i) / 2
  covered : 0 < y m
  /-- The first sweep leaves the sum of the samples as the total. -/
  swept : ∃ a, e.swept.outputs[o]? = some a ∧ a.accumulator =
    .area (finite (∑ k ∈ Finset.range e.config.evalPoints, y k)) 0 0 out.lower
  /-- The second sweep comes to the sample, finds the half reached and stops. -/
  stops : ∃ s s', Halves e o m s ∧
    aggregate (some o) (s.modifyOutput o (Output.beginSample m e.config.evalPoints)) =
      (s', .ok ()) ∧
    (s'.scan o).2 = true ∧
    halve o e.config.evalPoints e.config.evalPoints 0
        ((bisect e.config.evalPoints (List.range o) e.swept).1.modifyOutput o
          Output.beginBisection) =
      ((s'.scan o).1, .ok ())
  /-- The total is kept, and the sample point is the value as far as it lies in the range, which it
  does if the range is finite. -/
  result : ∃ out', e.defuzzify.1.outputs[o]? = some out' ∧
    out'.accumulator =
      .area (finite (∑ k ∈ Finset.range e.config.evalPoints, y k))
        (finite ((∑ k ∈ Finset.range e.config.evalPoints, y k) / 2))
        (finite (∑ k ∈ Finset.range (m + 1), y k)) (out.samplePoint m e.config.evalPoints) ∧
    out'.value = Scalar.clamp out.lower out.upper (out.samplePoint m e.config.evalPoints) ∧
    ∀ a b : K, a < b → out.lower = finite a → out.upper = finite b →
      out'.value = finite (a + (m + 1 / 2) * ((b - a) / e.config.evalPoints))

theorem Ready.exists_bisects (h : e.Ready rules) (harch : e.architecture = .mamdani)
    (hmethod : e.config.method = .bisector) {o : ℕ} {out : Output (Extended K)}
    (hout : e.outputs[o]? = some out) {y : ℕ → K}
    (hy : ∀ k < e.config.evalPoints, e.curve o (out.sampleAt k e.config.evalPoints) =
      finite (y k)) (hpos : 0 < ∑ k ∈ Finset.range e.config.evalPoints, y k) :
    ∃ m, e.Bisects o out y m := by
  obtain ⟨m, hm, hleast, hbefore, hym⟩ := exists_crossing hpos
  have hshort : ∀ k < m, ∑ i ∈ Finset.range (k + 1), y i <
      (∑ i ∈ Finset.range e.config.evalPoints, y i) / 2 := fun k => sum_lt_of_isLeast hleast
  have hacc := Output.area_traced hy hm hshort hleast.1
  have hvalue : (e.crisp o out).value =
      Scalar.clamp out.lower out.upper (out.samplePoint m e.config.evalPoints) := by
    rw [value_crisp, crisp_mamdani harch, hmethod]
    show Scalar.clamp _ _ (Method.bisector.finalize (Output.traced _ _ _ out).accumulator) = _
    rw [hacc]
    exact congrArg _ (if_neg ((finite_le _ _).not.2 (not_le.2 hpos)))
  refine ⟨m, hm, hleast, hbefore, hym, ?_,
    h.halve_stops harch hmethod hout hy hm hshort hleast.1, e.crisp o out, ?_, ?_, hvalue, ?_⟩
  · rw [h.swept_eq harch, getElem?_mapOutputsIdx, hout, Option.map_some, hmethod]
    exact ⟨_, rfl, Output.area_swept hy⟩
  · rw [h.getElem?_defuzzify, hout, Option.map_some]
  · rw [crisp_mamdani harch, hmethod]
    exact hacc
  · intro a b hab hlower hupper
    rw [hvalue]
    exact Variable.clamp_samplePoint hab hlower hupper hm

/-- In exact arithmetic, in a Mamdani system with the bisector in which an inference stands, the
samples of every output are degrees, and the bisector crosses at one of them if their sum is
positive. Each output has the value that it has when it is bisected among any others in any order,
and in any other system where the rules that fire say the same about an output over the same
range. -/
theorem bisector_halves_area {w : Width} {architecture : Architecture}
    {tables : Tables (Extended K)} {stream : List Int} {n : ℕ} {config : Config}
    {e₀ : Engine (Extended K)}
    (hsetup : setup w architecture tables stream n config = .ok e₀)
    (cs : List (Command (Extended K))) (he : e₀.run cs = e) (hstatus : e.status = .succeeded)
    (harch : e.architecture = .mamdani) (hmethod : e.config.method = .bisector) :
    ∃ rules, e.Ready rules ∧
      (∀ o out, e.outputs[o]? = some out → ∃ y : ℕ → K,
        (∀ k, y k ∈ Set.Icc 0 1 ∧
          Firing.degree e.config e.outputMemberships (Firing.ofRules e.strengths o rules)
            (out.sampleAt k e.config.evalPoints) = finite (y k)) ∧
        (0 < ∑ k ∈ Finset.range e.config.evalPoints, y k → ∃ m, e.Bisects o out y m)) ∧
      (∀ os : List ℕ, os.Nodup → (∀ i ∈ os, i < e.outputs.length) → ∀ o ∈ os,
        (bisect e.config.evalPoints os e.swept).2 = .ok () ∧
          e.defuzzify.1.outputs[o]? =
            (bisect e.config.evalPoints os e.swept).1.outputs[o]?.map
              (Output.settle .bisector)) ∧
      ∀ (e' : Engine (Extended K)) (rules' : List Rule), e'.Ready rules' →
        e'.architecture = .mamdani → e'.config = e.config →
        e'.outputMemberships = e.outputMemberships →
        ∀ o o' out out', e.outputs[o]? = some out → e'.outputs[o']? = some out' →
          out'.range = out.range →
          Firing.ofRules e'.strengths o' rules' = Firing.ofRules e.strengths o rules →
          ∃ a a', e.defuzzify.1.outputs[o]? = some a ∧ e'.defuzzify.1.outputs[o']? = some a' ∧
            a'.accumulator = a.accumulator ∧ a'.value = a.value := by
  obtain ⟨rules, h⟩ := exists_ready hsetup cs he hstatus
  have hpoints : 0 < e.config.evalPoints := by
    have hfits := run_fits hsetup cs
    rw [he] at hfits
    exact hfits.points
  refine ⟨rules, h, ?_, ?_, ?_⟩
  · intro o out hout
    obtain ⟨y, hsamples⟩ := e.exists_samples rules o out
    have hy : ∀ k < e.config.evalPoints, e.curve o (out.sampleAt k e.config.evalPoints) =
        finite (y k) := by
      intro k _
      rw [h.curve_eq]
      exact (hsamples k).2
    exact ⟨y, hsamples, h.exists_bisects harch hmethod hout hy⟩
  · intro os hnodup hos o ho
    exact h.getElem?_defuzzify_bisect harch hmethod hnodup hos ho
  · intro e' rules' h' harch' hconfig hmemberships o o' out out' hout hout' hrange hfiring
    obtain ⟨haccumulator, hvalue⟩ := h.crisp_alike harch h' harch' hconfig hmemberships hpoints
      hrange hfiring
    refine ⟨e.crisp o out, e'.crisp o' out', ?_, ?_, haccumulator, hvalue⟩
    · rw [h.getElem?_defuzzify, hout, Option.map_some]
    · rw [h'.getElem?_defuzzify, hout', Option.map_some]

/-- The engine of the two rules in rational numbers. -/
def rationalTwoRules : Engine (Extended ℚ) :=
  { Tables.blank ⟨2, 2, 2, 2⟩ 2 with
    width := .byte, architecture := .mamdani, config := .mamdaniClassic,
    rules := Rule.stream .byte twoRules, weights := none, ruleCount := 2, completed := 0,
    status := .notRun }

theorem setup_rationalTwoRules :
    setup .byte .mamdani (.blank ⟨2, 2, 2, 2⟩ 2) (Rule.stream .byte twoRules) 2 .mamdaniClassic =
      .ok rationalTwoRules := rfl

/-- A session with it that ends with an inference, with the bisector over four samples. -/
def twoRuleBisection : List (Command (Extended ℚ)) :=
  [.setupInput 0 0 10.0, .setupInput 1 0 10.0, .setupOutput 0 0 30.0,
    .setInputMembership 0 0 (.curve .triangular) [0, 5.0, 10.0] 1,
    .setInputMembership 1 1 (.curve .linearS) [2.0, 8.0] 0.5,
    .setOutputMembership 0 0 (.curve .triangular) [0, 10.0, 20.0] 1,
    .setMethod .bisector, .setEvalPoints 4, .setInput 0 3.0, .setInput 1 7.0, .fuzzify, .inference]

theorem bisector_halves_area_twoRules :
    ∃ out y m, (rationalTwoRules.run twoRuleBisection).outputs[0]? = some out ∧
      (rationalTwoRules.run twoRuleBisection).Bisects 0 out y m := by
  have hstatus : (rationalTwoRules.run twoRuleBisection).status = .succeeded := by decide +kernel
  have harch : (rationalTwoRules.run twoRuleBisection).architecture = .mamdani := by
    decide +kernel
  have hmethod : (rationalTwoRules.run twoRuleBisection).config.method = .bisector := by
    decide +kernel
  have hpoints : (rationalTwoRules.run twoRuleBisection).config.evalPoints = 4 := by
    decide +kernel
  obtain ⟨rules, hready, hbisects, -⟩ := bisector_halves_area setup_rationalTwoRules
    twoRuleBisection rfl hstatus harch hmethod
  obtain rfl : rules = twoRules := hready.eq_of_stream (by decide +kernel)
  obtain ⟨out, hout, hpos⟩ : ∃ out ∈ (rationalTwoRules.run twoRuleBisection).outputs[0]?,
      0 < Firing.degree (rationalTwoRules.run twoRuleBisection).config
        (rationalTwoRules.run twoRuleBisection).outputMemberships
        (Firing.ofRules (rationalTwoRules.run twoRuleBisection).strengths 0 twoRules)
        (out.sampleAt 1 (rationalTwoRules.run twoRuleBisection).config.evalPoints) := by
    decide +kernel
  obtain ⟨y, hsamples, hcrosses⟩ := hbisects 0 out hout
  -- one positive sample makes the sum positive
  have hmass : 0 < ∑ k ∈ Finset.range
      (rationalTwoRules.run twoRuleBisection).config.evalPoints, y k := by
    refine Finset.sum_pos' (fun k _ => (hsamples k).1.1) ⟨1, ?_, ?_⟩
    · rw [hpoints]
      decide
    · rw [(hsamples 1).2, zero_eq, finite_lt] at hpos
      exact hpos
  obtain ⟨m, hm⟩ := hcrosses hmass
  exact ⟨out, y, m, hout, hm⟩

end Engine

end FuzzyInference
