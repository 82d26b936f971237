import FuzzyInference.Proofs.Bisection
import FuzzyInference.Proofs.Maxima
import Mathlib.Algebra.BigOperators.Fin
import Mathlib.Analysis.Convex.Combination

/-!
# Crisp values lie in the hull of what was accumulated

In exact arithmetic a crisp value never leaves the positions that were fed to its accumulator. The
centroid and the weighted average are convex combinations of them (`within_quotient`), and the other
methods report positions of samples, or the middle of two. For a Mamdani system these positions are
the sample points, all strictly inside the range; for a Tsukamoto system they are confined to the
range one by one. So the clamp at the end of a defuzzification changes nothing, unless no membership
was seen.
-/

set_option autoImplicit false

namespace FuzzyInference

open Extended

/-! ## Weighted means -/

section Means

variable {K : Type} [Field K] [LinearOrder K] [IsStrictOrderedRing K] {lo hi : K}

/-- A weighted mean over a list lies where its members do. -/
theorem sum_div_sum_mem {β : Type} {l : List β} {w z : β → K} (hw : ∀ b ∈ l, 0 ≤ w b)
    (hz : ∀ b ∈ l, z b ∈ Set.Icc lo hi) (hpos : 0 < (l.map w).sum) :
    (l.map fun b => w b * z b).sum / (l.map w).sum ∈ Set.Icc lo hi := by
  rw [← Fin.sum_univ_fun_getElem] at hpos
  have hmean := (convex_Icc lo hi).centerMass_mem
    (fun (i : Fin l.length) _ => hw l[i.1] (List.getElem_mem i.isLt)) hpos
    (fun i _ => hz l[i.1] (List.getElem_mem i.isLt))
  simp only [Finset.centerMass, smul_eq_mul] at hmean
  rwa [← Fin.sum_univ_fun_getElem, ← Fin.sum_univ_fun_getElem, div_eq_inv_mul]

variable [Elementary K] {β : Type} {l : List β} {w z : β → Extended K}

omit [IsStrictOrderedRing K] in
/-- The sums of weights that are not negative, each times a position between `lo` and `hi`, and of
the weights alone. -/
theorem exists_sums (hw : ∀ b ∈ l, ∃ c, 0 ≤ c ∧ w b = finite c)
    (hz : ∀ b ∈ l, Scalar.Within (finite lo) (finite hi) (z b)) :
    ∃ w' z' : β → K, (∀ b ∈ l, 0 ≤ w' b ∧ w b = finite (w' b)) ∧
      (∀ b ∈ l, z' b ∈ Set.Icc lo hi ∧ z b = finite (z' b)) ∧
      l.foldl (fun sum b => sum + w b * z b) 0 = finite (l.map fun b => w' b * z' b).sum ∧
      l.foldl (fun sum b => sum + w b) 0 = finite (l.map w').sum := by
  have hz := fun b hb => within_finite_iff.1 (hz b hb)
  choose! w' hw' using hw
  choose! z' hz' using hz
  refine ⟨w', z', hw', hz', ?_, ?_⟩
  · have hproduct : ∀ b ∈ l, w b * z b = finite (w' b * z' b) := by
      intro b hb
      rw [(hw' b hb).2, (hz' b hb).2, finite_mul]
    rw [zero_eq, foldl_add_finite hproduct, zero_add]
  · rw [zero_eq, foldl_add_finite (fun b hb => (hw' b hb).2), zero_add]

/-- A quotient of two such sums is undefined or lies between `lo` and `hi`. -/
theorem within_quotient (hw : ∀ b ∈ l, ∃ c, 0 ≤ c ∧ w b = finite c)
    (hz : ∀ b ∈ l, Scalar.Within (finite lo) (finite hi) (z b))
    (hdefined : ¬ Scalar.IsNaN (l.foldl (fun sum b => sum + w b * z b) 0 /
      l.foldl (fun sum b => sum + w b) 0)) :
    Scalar.Within (finite lo) (finite hi) (l.foldl (fun sum b => sum + w b * z b) 0 /
      l.foldl (fun sum b => sum + w b) 0) := by
  obtain ⟨w', z', hw', hz', hmoment, hmass⟩ := exists_sums hw hz
  rw [hmoment, hmass] at hdefined ⊢
  have hnonneg : ∀ c ∈ l.map w', 0 ≤ c := by
    intro c hc
    obtain ⟨b, hb, rfl⟩ := List.mem_map.1 hc
    exact (hw' b hb).1
  rcases (List.sum_nonneg hnonneg).eq_or_lt with hzero | hpos
  · -- without weight the other sum is 0 as well, and the quotient is undefined
    have hall : ∀ b ∈ l, w' b = 0 := by
      intro b hb
      exact List.all_zero_of_le_zero_le_of_sum_eq_zero hnonneg hzero.symm (List.mem_map_of_mem hb)
    have hnone : (l.map fun b => w' b * z' b).sum = 0 := by
      refine List.sum_eq_zero fun c hc => ?_
      obtain ⟨b, hb, rfl⟩ := List.mem_map.1 hc
      rw [hall b hb, zero_mul]
    rw [hnone, ← hzero, zero_div_zero] at hdefined
    exact absurd (isNaN_iff.2 rfl) hdefined
  · rw [finite_div _ _ hpos.ne']
    exact within_finite_iff.2 ⟨_, sum_div_sum_mem (fun b hb => (hw' b hb).1)
      (fun b hb => (hz' b hb).1) hpos, rfl⟩

/-- It is defined if there is a weight and all are positive. -/
theorem within_quotient_of_pos (hne : l ≠ []) (hw : ∀ b ∈ l, ∃ c, 0 < c ∧ w b = finite c)
    (hz : ∀ b ∈ l, Scalar.Within (finite lo) (finite hi) (z b)) :
    Scalar.Within (finite lo) (finite hi) (l.foldl (fun sum b => sum + w b * z b) 0 /
      l.foldl (fun sum b => sum + w b) 0) := by
  have hw₀ : ∀ b ∈ l, ∃ c, 0 ≤ c ∧ w b = finite c := by
    intro b hb
    obtain ⟨c, hc, hwb⟩ := hw b hb
    exact ⟨c, hc.le, hwb⟩
  refine within_quotient hw₀ hz ?_
  obtain ⟨w', z', hw', -, hmoment, hmass⟩ := exists_sums hw₀ hz
  have hpos : 0 < (l.map w').sum := by
    refine List.sum_pos _ (fun c hc => ?_) (by simpa using hne)
    obtain ⟨b, hb, rfl⟩ := List.mem_map.1 hc
    obtain ⟨c, hc, hwb⟩ := hw b hb
    rw [(hw' b hb).2, finite.injEq] at hwb
    rwa [hwb]
  rw [hmoment, hmass, finite_div _ _ hpos.ne']
  exact finite_defined _

end Means

variable {K : Type} [Field K] [LinearOrder K] [IsStrictOrderedRing K] [Elementary K] {lo hi : K}

/-! ## The sampling methods -/

section Sampling

variable {v : Variable (Extended K)} {x y : ℕ → K} {n : ℕ}

theorem Method.within_centroid (hx : ∀ k < n, x k ∈ Set.Icc lo hi) (hy : ∀ k < n, 0 ≤ y k)
    (hdefined : ¬ Scalar.IsNaN (Method.centroid.finalize
      (Method.centroid.fed v (fun k => finite (x k)) (fun k => finite (y k)) n))) :
    Scalar.Within (finite lo) (finite hi) (Method.centroid.finalize
      (Method.centroid.fed v (fun k => finite (x k)) (fun k => finite (y k)) n)) := by
  simp only [fed_centroid, Extended.mul_comm (finite (x _)), finalize] at hdefined ⊢
  refine within_quotient (fun k hk => ?_) (fun k hk => ?_) hdefined
  · exact ⟨y k, hy k (List.mem_range.1 hk), rfl⟩
  · exact within_finite_iff.2 ⟨x k, hx k (List.mem_range.1 hk), rfl⟩

theorem Method.within_ofMaximum {m : Method} (hm : m.OfMaximum)
    (hx : ∀ k < n, x k ∈ Set.Icc lo hi) (hy : ∀ k < n, 0 ≤ y k)
    (hdefined : ¬ Scalar.IsNaN (m.finalize
      (m.fed v (fun k => finite (x k)) (fun k => finite (y k)) n))) :
    Scalar.Within (finite lo) (finite hi) (m.finalize
      (m.fed v (fun k => finite (x k)) (fun k => finite (y k)) n)) := by
  rcases Nat.eq_zero_or_pos n with rfl | hn
  -- the peak of a fresh accumulator is below 0
  · have hbelow : (-1 : Extended K) ≤ 0 := (finite_le (-1) 0).2 (neg_one_lt_zero).le
    refine absurd (isNaN_iff.2 ?_) hdefined
    rcases hm with rfl | rfl | rfl <;> exact if_pos hbelow
  · obtain ⟨first, last, stop, h⟩ := exists_climb y hn
    have hfirst := hx first h.summit.within
    have hlast := hx last h.last.1.1
    have hstop := hx stop h.stretch.1.1
    by_cases hpeak : finite (y first) ≤ (0 : Extended K)
    · refine absurd (isNaN_iff.2 ?_) hdefined
      rcases hm with rfl | rfl | rfl
      · rw [h.fed_smallest (hy 0 hn)]
        exact if_pos hpeak
      · rw [h.fed_mean (hy 0 hn)]
        exact if_pos hpeak
      · rw [h.fed_largest (hy 0 hn)]
        exact if_pos hpeak
    · rw [within_finite_iff]
      rcases hm with rfl | rfl | rfl
      · rw [h.fed_smallest (hy 0 hn)]
        exact ⟨_, hfirst, if_neg hpeak⟩
      · rw [h.fed_mean (hy 0 hn), finalize, if_neg hpeak, finite_add, half_mul]
        refine ⟨_, ⟨?_, ?_⟩, rfl⟩
        · linarith [hfirst.1, hstop.1]
        · linarith [hfirst.2, hstop.2]
      · rw [h.fed_largest (hy 0 hn)]
        exact ⟨_, hlast, if_neg hpeak⟩

/-- Over a finite range the sample points are strictly increasing and strictly inside. -/
theorem Variable.samplePoint_inside {a b : K} {points : ℕ} (hab : a < b)
    (hlower : v.lower = finite a) (hupper : v.upper = finite b) (hpoints : 0 < points) :
    StrictMono (gridPoint a b points) ∧
      ∀ k < points, v.samplePoint k points = finite (gridPoint a b points k) ∧
        gridPoint a b points k ∈ Set.Ioo a b := by
  refine ⟨gridPoint_strictMono hab hpoints, fun k hk => ⟨?_, gridPoint_mem hab hk⟩⟩
  exact Variable.samplePoint_finite hlower hupper hpoints k

namespace Output

variable {curve : Variable (Extended K) → Extended K} {points : ℕ} {out : Output (Extended K)}

omit [IsStrictOrderedRing K] in
/-- The second sweep keeps the total. -/
theorem total_rescan {total half current crossing : Extended K}
    (curve : Variable (Extended K) → Extended K) (points left k : ℕ)
    (hacc : out.accumulator = .area total half current crossing) :
    ∃ current' crossing', (out.rescan curve points left k).accumulator =
      .area total half current' crossing' := by
  induction left generalizing k out current crossing with
  | zero => exact ⟨current, crossing, hacc⟩
  | succ left ih =>
      have hscanned : (out.sampled curve k points).scanned.accumulator = .area total half
          (current + (out.sampled curve k points).y) (out.sampled curve k points).x := by
        show (out.accumulator.scanArea _ _).1 = _
        rw [hacc]
        rfl
      rw [rescan]
      split
      · exact ⟨_, _, hscanned⟩
      · exact ih (k + 1) hscanned

theorem within_bisector (hy : ∀ k < points, curve (out.sampleAt k points) = finite (y k))
    (hx : ∀ k < points, out.samplePoint k points = finite (x k) ∧ x k ∈ Set.Icc lo hi)
    (hdefined : ¬ Scalar.IsNaN (Method.bisector.finalize
      (out.traced .bisector curve points).accumulator)) :
    Scalar.Within (finite lo) (finite hi) (Method.bisector.finalize
      (out.traced .bisector curve points).accumulator) := by
  by_cases hpos : 0 < ∑ k ∈ Finset.range points, y k
  · obtain ⟨m, hm, hleast, -, -⟩ := exists_crossing hpos
    rw [area_traced hy hm (fun k => sum_lt_of_isLeast hleast) hleast.1, within_finite_iff]
    refine ⟨x m, (hx m hm).2, ?_⟩
    rw [← (hx m hm).1]
    exact if_neg ((finite_le _ _).not.2 (not_le.2 hpos))
  -- without mass it does not matter where the second sweep stops
  · obtain ⟨current, crossing, hacc⟩ := total_rescan curve points points 0 (area_begun hy)
    rw [traced, if_pos rfl, hacc] at hdefined
    exact absurd (isNaN_iff.2 (if_pos ((finite_le _ _).2 (not_lt.1 hpos)))) hdefined

/-- The value of a sampled curve without negative degrees is undefined or lies between the first and
the last sample point. -/
theorem within_traced {m : Method} (hm : m.requiresSampling = true) {a b : K} (hab : a < b)
    (hlower : out.lower = finite a) (hupper : out.upper = finite b)
    (hy : ∀ k < points, 0 ≤ y k ∧ curve (out.sampleAt k points) = finite (y k))
    (hdefined : ¬ Scalar.IsNaN (m.finalize (out.traced m curve points).accumulator)) :
    Scalar.Within (finite (gridPoint a b points 0)) (finite (gridPoint a b points (points - 1)))
      (m.finalize (out.traced m curve points).accumulator) := by
  have hpoint : ∀ k < points, out.samplePoint k points = finite (gridPoint a b points k) ∧
      gridPoint a b points k ∈
        Set.Icc (gridPoint a b points 0) (gridPoint a b points (points - 1)) := by
    intro k hk
    have hpoints := Nat.zero_lt_of_lt hk
    have hmono := (gridPoint_strictMono hab hpoints).monotone
    exact ⟨Variable.samplePoint_finite hlower hupper hpoints k, hmono (Nat.zero_le k),
      hmono (Nat.le_sub_one_of_lt hk)⟩
  by_cases hmethod : m = .bisector
  · subst hmethod
    exact within_bisector (fun k hk => (hy k hk).2) hpoint hdefined
  · have hfed : m.fed out.toVariable (fun k => out.samplePoint k points)
        (fun k => curve (out.sampleAt k points)) points =
        m.fed out.toVariable (fun k => finite (gridPoint a b points k))
          (fun k => finite (y k)) points :=
      Method.fed_congr (fun k hk => (hpoint k hk).1) (fun k hk => (hy k hk).2)
    rw [accumulator_traced curve points out hmethod, hfed] at hdefined ⊢
    have hx := fun k hk => (hpoint k hk).2
    have hnonneg := fun k hk => (hy k hk).1
    cases m with
    | centroid => exact Method.within_centroid hx hnonneg hdefined
    | bisector => exact absurd rfl hmethod
    | meanOfMaximum => exact Method.within_ofMaximum (.inr (.inl rfl)) hx hnonneg hdefined
    | largestOfMaximum => exact Method.within_ofMaximum (.inr (.inr rfl)) hx hnonneg hdefined
    | smallestOfMaximum => exact Method.within_ofMaximum (.inl rfl) hx hnonneg hdefined
    | weightedAverage | weightedSum => cases hm

end Output

end Sampling

/-! ## The weighted average -/

/-- Rule outputs with their strengths add up to two sums. -/
theorem Accumulator.foldl_addWeighted {α : Type} [Scalar α] (l : List (α × α)) (s t : α) :
    l.foldl (fun acc p => acc.addWeighted p.1 p.2) (Accumulator.weighted s t) =
      .weighted (l.foldl (fun sum p => sum + p.1 * p.2) s) (l.foldl (fun sum p => sum + p.1) t) := by
  induction l generalizing s t with
  | nil => rfl
  | cons p l ih => exact ih _ _

/-- The crisp value that the weighted average gives to rule outputs with their strengths. -/
def averaged {α : Type} [Scalar α] (v : Variable α) (l : List (α × α)) : α :=
  Method.weightedAverage.finalize
    (l.foldl (fun acc p => acc.addWeighted p.1 p.2) (Method.weightedAverage.init v))

theorem within_averaged {l : List (Extended K × Extended K)} (v : Variable (Extended K))
    (hne : l ≠ []) (hw : ∀ p ∈ l, ∃ c, 0 < c ∧ p.1 = finite c)
    (hz : ∀ p ∈ l, Scalar.Within (finite lo) (finite hi) p.2) :
    Scalar.Within (finite lo) (finite hi) (averaged v l) := by
  have hsums : averaged v l = l.foldl (fun sum p => sum + p.1 * p.2) 0 /
      l.foldl (fun sum p => sum + p.1) 0 :=
    congrArg Method.weightedAverage.finalize (Accumulator.foldl_addWeighted l 0 0)
  rw [hsums]
  exact within_quotient_of_pos hne hw hz

omit [IsStrictOrderedRing K] in
/-- Between equal ends there is one number. -/
theorem Extended.eq_of_within {c : K} {a : Extended K}
    (h : Scalar.Within (finite c) (finite c) a) : a = finite c := by
  obtain ⟨x, hx, rfl⟩ := within_finite_iff.1 h
  rw [le_antisymm hx.2 hx.1]

/-- What the weighted average makes of rule outputs in the field. -/
theorem exists_averaged (v : Variable (Extended K)) {l : List (K × K)} (hne : l ≠ [])
    (hw : ∀ p ∈ l, 0 < p.1) :
    ∃ least greatest z, IsLeast {c | ∃ p ∈ l, p.2 = c} least ∧
      IsGreatest {c | ∃ p ∈ l, p.2 = c} greatest ∧ z ∈ Set.Icc least greatest ∧
      averaged v (l.map fun p => (finite p.1, finite p.2)) = finite z ∧
      ∀ c, (∀ p ∈ l, p.2 = c) → z = c := by
  have hnonempty : {p | p ∈ l}.Nonempty := List.exists_mem_of_ne_nil l hne
  obtain ⟨p, hp, hmin⟩ := Set.exists_min_image {p | p ∈ l} Prod.snd l.finite_toSet hnonempty
  obtain ⟨q, hq, hmax⟩ := Set.exists_max_image {p | p ∈ l} Prod.snd l.finite_toSet hnonempty
  have hleast : IsLeast {c | ∃ p ∈ l, p.2 = c} p.2 := by
    refine ⟨⟨p, hp, rfl⟩, ?_⟩
    rintro _ ⟨p', hp', rfl⟩
    exact hmin p' hp'
  have hgreatest : IsGreatest {c | ∃ p ∈ l, p.2 = c} q.2 := by
    refine ⟨⟨q, hq, rfl⟩, ?_⟩
    rintro _ ⟨p', hp', rfl⟩
    exact hmax p' hp'
  have hwithin : Scalar.Within (finite p.2) (finite q.2)
      (averaged v (l.map fun p => (finite p.1, finite p.2))) := by
    refine within_averaged v (by simpa using hne) ?_ ?_
    all_goals
      intro p' hp'
      obtain ⟨r, hr, rfl⟩ := List.mem_map.1 hp'
    · exact ⟨r.1, hw r hr, rfl⟩
    · exact within_finite_iff.2 ⟨r.2, ⟨hmin r hr, hmax r hr⟩, rfl⟩
  obtain ⟨z, hz, hvalue⟩ := within_finite_iff.1 hwithin
  refine ⟨p.2, q.2, z, hleast, hgreatest, hz, hvalue, fun c hc => ?_⟩
  -- equal rule outputs are their own least and greatest
  rw [hc p hp, hc q hq] at hz
  exact le_antisymm hz.2 hz.1

/-! ## Engines -/

namespace Engine

variable {e : Engine (Extended K)} {rules : List Rule}

/-- The strength of a rule that fires is a positive number of the field. -/
theorem Ready.exists_strength (h : e.Ready rules) {o : ℕ} {f : Firing (Extended K)}
    (hf : f ∈ Firing.ofRules e.strengths o rules) : ∃ c, 0 < c ∧ f.strength = finite c := by
  obtain ⟨hpos, i, hi, hs⟩ := Firing.mem_ofRules hf
  rw [h.spells.count] at hi
  obtain ⟨s, hs', hwithin⟩ := h.graded h.status i hi
  obtain rfl : f.strength = s := Option.some.inj (hs.symm.trans hs')
  obtain ⟨c, -, hc⟩ := within_unit_iff.1 hwithin
  rw [hc, zero_eq, finite_lt] at hpos
  exact ⟨c, hpos, hc⟩

/-- An output of a weighted system with the weighted average. -/
theorem Ready.within_crisp (h : e.Ready rules) (harch : e.architecture ≠ .mamdani)
    (hmethod : e.config.method = .weightedAverage) {o : ℕ} {out : Output (Extended K)}
    (hne : Firing.ofRules e.strengths o rules ≠ [])
    (hz : ∀ f ∈ Firing.ofRules e.strengths o rules, Scalar.Within (finite lo) (finite hi)
      (f.crisp e.architecture e.inputs e.outputMemberships out.toVariable)) :
    Scalar.Within (finite lo) (finite hi)
      (e.config.method.finalize (e.crisp o out).accumulator) := by
  rw [crisp_eq_sums harch (.inl hmethod), h.firing_eq, hmethod]
  exact within_quotient_of_pos hne (fun f hf => h.exists_strength hf) hz

/-- If what the method reads off lies in the range, the clamp changes nothing. -/
theorem value_crisp_of_within {o : ℕ} {out : Output (Extended K)}
    (h : Scalar.Within out.lower out.upper
      (e.config.method.finalize (e.crisp o out).accumulator)) :
    (e.crisp o out).value = e.config.method.finalize (e.crisp o out).accumulator := by
  rw [value_crisp]
  exact Scalar.clamp_of_within h

/-- What is said of the value that a method reads off an accumulator: it lies between `lo` and `hi`,
and it is the value of the output. -/
def Settles (e : Engine (Extended K)) (lo hi : K) (out' : Output (Extended K)) : Prop :=
  out'.value = e.config.method.finalize out'.accumulator ∧
    Scalar.Within (finite lo) (finite hi) out'.value

section Outputs

variable (h : e.Ready rules) {o : ℕ} {out : Output (Extended K)} {a b : K} (hab : a < b)
  (hlower : out.lower = finite a) (hupper : out.upper = finite b)

include h hab hlower hupper

/-- An output of a Mamdani system. -/
theorem Ready.settles_mamdani (harch : e.architecture = .mamdani)
    (hdefined : ¬ Scalar.IsNaN (e.config.method.finalize (e.crisp o out).accumulator)) :
    e.Settles (gridPoint a b e.config.evalPoints 0)
      (gridPoint a b e.config.evalPoints (e.config.evalPoints - 1)) (e.crisp o out) := by
  have hsampling := (Method.requiresSampling_iff h.fits.method).2 harch
  obtain ⟨y, hsamples⟩ := e.exists_samples rules o out
  have hy : ∀ k < e.config.evalPoints, 0 ≤ y k ∧
      e.curve o (out.sampleAt k e.config.evalPoints) = finite (y k) := by
    intro k _
    rw [h.curve_eq]
    exact ⟨(hsamples k).1.1, (hsamples k).2⟩
  have hhull : Scalar.Within (finite (gridPoint a b e.config.evalPoints 0))
      (finite (gridPoint a b e.config.evalPoints (e.config.evalPoints - 1)))
      (e.config.method.finalize (e.crisp o out).accumulator) := by
    rw [crisp_mamdani harch] at hdefined ⊢
    exact Output.within_traced hsampling hab hlower hupper hy hdefined
  have hpoints : 0 < e.config.evalPoints := h.fits.points
  have hvalue : (e.crisp o out).value =
      e.config.method.finalize (e.crisp o out).accumulator := by
    obtain ⟨z, hz, hfinal⟩ := within_finite_iff.1 hhull
    apply value_crisp_of_within
    rw [hfinal, hlower, hupper, within_finite_iff]
    refine ⟨z, ⟨?_, ?_⟩, rfl⟩
    · exact (gridPoint_mem hab hpoints).1.le.trans hz.1
    · exact hz.2.trans (gridPoint_mem hab (Nat.sub_one_lt hpoints.ne')).2.le
  exact ⟨hvalue, hvalue ▸ hhull⟩

/-- An output of a Tsukamoto system about which a rule that fires has a consequent. -/
theorem Ready.settles_tsukamoto (harch : e.architecture = .tsukamoto)
    (hne : Firing.ofRules e.strengths o rules ≠ []) : e.Settles a b (e.crisp o out) := by
  have haverage : e.config.method = .weightedAverage := by
    have hsupports := h.fits.method
    rw [harch] at hsupports
    exact of_decide_eq_true hsupports
  have hrange : out.lower < out.upper := by
    rw [hlower, hupper, finite_lt]
    exact hab
  have hwithin : Scalar.Within (finite a) (finite b)
      (e.config.method.finalize (e.crisp o out).accumulator) := by
    refine h.within_crisp (by rw [harch]; nofun) haverage hne fun f _ => ?_
    rw [harch, ← hlower, ← hupper]
    exact Scalar.within_clamp hrange _
  have hvalue : (e.crisp o out).value =
      e.config.method.finalize (e.crisp o out).accumulator := by
    apply value_crisp_of_within
    rwa [hlower, hupper]
  exact ⟨hvalue, hvalue ▸ hwithin⟩

end Outputs

/-- An output with the weighted average: what is read off lies where the rule outputs do, and it is
their common value if they agree. -/
theorem Ready.average_crisp (h : e.Ready rules) (hmethod : e.config.method = .weightedAverage)
    {o : ℕ} {out : Output (Extended K)} (hne : Firing.ofRules e.strengths o rules ≠ []) :
    (∀ lo hi : K, (∀ f ∈ Firing.ofRules e.strengths o rules,
        Scalar.Within (finite lo) (finite hi)
          (f.crisp e.architecture e.inputs e.outputMemberships out.toVariable)) →
      Scalar.Within (finite lo) (finite hi)
        (e.config.method.finalize (e.crisp o out).accumulator)) ∧
    ∀ z : K, (∀ f ∈ Firing.ofRules e.strengths o rules,
        f.crisp e.architecture e.inputs e.outputMemberships out.toVariable = finite z) →
      e.config.method.finalize (e.crisp o out).accumulator = finite z := by
  have harch : e.architecture ≠ .mamdani := by
    intro harch
    have hsampling := (Method.requiresSampling_iff h.fits.method).2 harch
    rw [hmethod] at hsampling
    cases hsampling
  refine ⟨fun lo hi hz => h.within_crisp harch hmethod hne hz, fun z hz => ?_⟩
  -- rule outputs that agree leave no room
  refine eq_of_within (h.within_crisp harch hmethod hne fun f hf => ?_)
  exact within_finite_iff.2 ⟨z, ⟨le_refl z, le_refl z⟩, hz f hf⟩

/-- In exact arithmetic, over a finite range the sample points are strictly increasing and strictly
inside the range, a sampling method reports a value between the first and the last of them, and the
weighted average one between the least and the greatest of the rule outputs. So the value of an
output of a Mamdani or a Tsukamoto system is what its method reads off the accumulator, without the
clamp. -/
theorem crisp_in_hull :
    (∀ (v : Variable (Extended K)) (a b : K) (points : ℕ), a < b → v.lower = finite a →
      v.upper = finite b → 0 < points → StrictMono (gridPoint a b points) ∧
        ∀ k < points, v.samplePoint k points = finite (gridPoint a b points k) ∧
          gridPoint a b points k ∈ Set.Ioo a b) ∧
    (∀ (m : Method) (out : Output (Extended K)) (curve : Variable (Extended K) → Extended K)
        (points : ℕ) (y : ℕ → K) (a b : K), m.requiresSampling = true → a < b →
      out.lower = finite a → out.upper = finite b →
      (∀ k < points, 0 ≤ y k ∧ curve (out.sampleAt k points) = finite (y k)) →
      ¬ Scalar.IsNaN (m.finalize (out.traced m curve points).accumulator) →
      Scalar.Within (finite (gridPoint a b points 0)) (finite (gridPoint a b points (points - 1)))
        (m.finalize (out.traced m curve points).accumulator)) ∧
    (∀ (v : Variable (Extended K)) (l : List (K × K)), l ≠ [] → (∀ p ∈ l, 0 < p.1) →
      ∃ least greatest z, IsLeast {c | ∃ p ∈ l, p.2 = c} least ∧
        IsGreatest {c | ∃ p ∈ l, p.2 = c} greatest ∧ z ∈ Set.Icc least greatest ∧
        averaged v (l.map fun p => (finite p.1, finite p.2)) = finite z ∧
        ∀ c, (∀ p ∈ l, p.2 = c) → z = c) ∧
    ∀ (w : Width) (architecture : Architecture) (tables : Tables (Extended K))
        (stream : List Int) (n : ℕ) (config : Config) (e₀ e : Engine (Extended K))
        (cs : List (Command (Extended K))),
      setup w architecture tables stream n config = .ok e₀ → e₀.run cs = e →
      e.defuzzify.2 = .ok () →
      ∃ rules, e.Ready rules ∧ ∀ o out, e.outputs[o]? = some out → ∀ a b : K, a < b →
        out.lower = finite a → out.upper = finite b →
        ∃ out', e.defuzzify.1.outputs[o]? = some out' ∧
          (e.architecture = .mamdani →
            ¬ Scalar.IsNaN (e.config.method.finalize out'.accumulator) →
            e.Settles (gridPoint a b e.config.evalPoints 0)
              (gridPoint a b e.config.evalPoints (e.config.evalPoints - 1)) out') ∧
          (e.architecture = .tsukamoto → Firing.ofRules e.strengths o rules ≠ [] →
            e.Settles a b out') ∧
          (e.config.method = .weightedAverage → Firing.ofRules e.strengths o rules ≠ [] →
            (∀ lo hi : K, (∀ f ∈ Firing.ofRules e.strengths o rules,
                Scalar.Within (finite lo) (finite hi)
                  (f.crisp e.architecture e.inputs e.outputMemberships out.toVariable)) →
              Scalar.Within (finite lo) (finite hi)
                (e.config.method.finalize out'.accumulator)) ∧
            ∀ z : K, (∀ f ∈ Firing.ofRules e.strengths o rules,
                f.crisp e.architecture e.inputs e.outputMemberships out.toVariable = finite z) →
              e.config.method.finalize out'.accumulator = finite z) := by
  refine ⟨?_, ?_, ?_, ?_⟩
  · intro v a b points hab hlower hupper hpoints
    exact Variable.samplePoint_inside hab hlower hupper hpoints
  · intro m out curve points y a b hm hab hlower hupper hy hdefined
    exact Output.within_traced hm hab hlower hupper hy hdefined
  · intro v l hne hw
    exact exists_averaged v hne hw
  · intro w architecture tables stream n config e₀ e cs hsetup he hok
    obtain ⟨rules, h⟩ := exists_ready hsetup cs he (status_of_defuzzify_ok hok)
    refine ⟨rules, h, fun o out hout a b hab hlower hupper => ?_⟩
    have hout' : e.defuzzify.1.outputs[o]? = some (e.crisp o out) := by
      rw [h.getElem?_defuzzify, hout, Option.map_some]
    exact ⟨e.crisp o out, hout', h.settles_mamdani hab hlower hupper,
      h.settles_tsukamoto hab hlower hupper, fun hmethod hne => h.average_crisp hmethod hne⟩

theorem crisp_in_hull_twoRules :
    ∃ out out', (rationalTwoRules.run twoRuleBisection).outputs[0]? = some out ∧
      (rationalTwoRules.run twoRuleBisection).defuzzify.1.outputs[0]? = some out' ∧
      (rationalTwoRules.run twoRuleBisection).Settles (gridPoint 0 30 4 0) (gridPoint 0 30 4 3)
        out' := by
  have hstatus : (rationalTwoRules.run twoRuleBisection).status = .succeeded := by decide +kernel
  have hok : (rationalTwoRules.run twoRuleBisection).defuzzify.2 = .ok () :=
    (run_confirmed (confirmed_of_setup setup_rationalTwoRules) _).defuzzify_ok hstatus
  have harch : (rationalTwoRules.run twoRuleBisection).architecture = .mamdani := by
    decide +kernel
  have hpoints : (rationalTwoRules.run twoRuleBisection).config.evalPoints = 4 := by
    decide +kernel
  obtain ⟨out, hout, hlower, hupper⟩ : ∃ out ∈ (rationalTwoRules.run twoRuleBisection).outputs[0]?,
      out.lower = finite 0 ∧ out.upper = finite 30 := by
    decide +kernel
  obtain ⟨out', hout', hdefined⟩ :
      ∃ out' ∈ (rationalTwoRules.run twoRuleBisection).defuzzify.1.outputs[0]?,
        ¬ Scalar.IsNaN ((rationalTwoRules.run twoRuleBisection).config.method.finalize
          out'.accumulator) := by
    decide +kernel
  obtain ⟨-, -, -, hengines⟩ := crisp_in_hull (K := ℚ)
  obtain ⟨rules, -, hsettles⟩ := hengines _ _ _ _ _ _ _ _ twoRuleBisection setup_rationalTwoRules
    rfl hok
  obtain ⟨out₁, hout₁, hmamdani, -⟩ := hsettles 0 out hout 0 30 (by norm_num) hlower hupper
  obtain rfl : out₁ = out' := Option.some.inj (hout₁.symm.trans hout')
  have hresult := hmamdani harch hdefined
  rw [hpoints] at hresult
  exact ⟨out, out₁, hout, hout', hresult⟩

end Engine

end FuzzyInference
