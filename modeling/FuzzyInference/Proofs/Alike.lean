import FuzzyInference.Proofs.Neutral

/-!
# Outputs up to the signs of zeros

Two curves that are the same, except for the signs of zeros, serve a defuzzification equally well. A
sweep over them leaves equal sums, since the sums are settled, and peaks that are the same, since no
comparison tells zeros apart (`Output.Alike.sweep`, `Output.Alike.rescan`). The crisp values that
are read off are equal (`Method.finalize_alike`), so recorded degrees alone can show a difference,
and only in the sign of a zero.
-/

set_option autoImplicit false

namespace FuzzyInference

variable {α : Type} [Scalar α]

open Scalar

/-! ## Accumulators -/

namespace Accumulator

/-- Every sum of the accumulator is settled. -/
def Settled : Accumulator α → Prop
  | idle | maximum .. => True
  | centroid sumXY sumY => Scalar.Settled sumXY ∧ Scalar.Settled sumY
  | area total _ current _ => Scalar.Settled total ∧ Scalar.Settled current
  | weighted sumWZ sumW => Scalar.Settled sumWZ ∧ Scalar.Settled sumW

/-- Equal up to the sign of a peak that is 0. -/
inductive Alike : Accumulator α → Accumulator α → Prop where
  | same (acc : Accumulator α) : Alike acc acc
  | peaks {peak peak' : α} (smallest largest : α) (plateau : Bool) (h : Same peak peak') :
      Alike (.maximum peak smallest largest plateau) (.maximum peak' smallest largest plateau)

variable [NeutralZero α] {acc acc' : Accumulator α} {y y' : α}

theorem settled_beginBisection (h : acc.Settled) : acc.beginBisection.Settled := by
  cases acc with
  | area total half current crossing => exact ⟨h.1, NeutralZero.settled_zero⟩
  | idle | centroid sumXY sumY | maximum peak smallest largest plateau | weighted sumWZ sumW =>
      exact h

omit [NeutralZero α] in
theorem Alike.beginBisection (h : acc.Alike acc') :
    acc.beginBisection.Alike acc'.beginBisection := by
  cases h with
  | same => exact .same _
  | peaks smallest largest plateau h => exact .peaks smallest largest plateau h

theorem settled_scanArea (x y : α) (h : acc.Settled) : (acc.scanArea x y).1.Settled := by
  cases acc with
  | area total half current crossing => exact ⟨h.1, NeutralZero.settled_add y h.2⟩
  | idle | centroid sumXY sumY | maximum peak smallest largest plateau | weighted sumWZ sumW =>
      exact h

omit [NeutralZero α] in
/-- The second sweep adds the same degrees to the same sum, and stops at the same sample. -/
theorem Alike.scanArea (x : α) (h : acc.Alike acc') (hs : acc.Settled) (hy : Same y y') :
    (acc.scanArea x y).1.Alike (acc'.scanArea x y').1 ∧
      (acc.scanArea x y).2 = (acc'.scanArea x y').2 := by
  cases h with
  | same =>
      cases acc with
      | area total half current crossing =>
          simp only [Accumulator.scanArea, hs.2.add_eq hy]
          exact ⟨.same _, trivial⟩
      | idle | centroid sumXY sumY | maximum peak smallest largest plateau | weighted sumWZ sumW =>
          exact ⟨.same _, rfl⟩
  | peaks smallest largest plateau h => exact ⟨.peaks smallest largest plateau h, rfl⟩

end Accumulator

namespace Method

variable [NeutralZero α] {acc acc' : Accumulator α} {y y' : α}

theorem settled_init (m : Method) (v : Variable α) : (m.init v).Settled := by
  have hzero : Scalar.Settled (0 : α) := NeutralZero.settled_zero
  cases m with
  | centroid | bisector | weightedAverage | weightedSum => exact ⟨hzero, hzero⟩
  | meanOfMaximum | largestOfMaximum | smallestOfMaximum => trivial

theorem settled_accumulate (m : Method) (x y : α) (h : acc.Settled) :
    (m.accumulate x y acc).Settled := by
  cases acc with
  | centroid sumXY sumY =>
      cases m with
      | centroid => exact ⟨NeutralZero.settled_add _ h.1, NeutralZero.settled_add _ h.2⟩
      | _ => exact h
  | area total half current crossing =>
      cases m with
      | bisector => exact ⟨NeutralZero.settled_add _ h.1, h.2⟩
      | _ => exact h
  | idle | weighted sumWZ sumW => cases m <;> exact h
  -- there is no sum among the peaks
  | maximum peak smallest largest plateau =>
      cases m with
      | meanOfMaximum | largestOfMaximum | smallestOfMaximum =>
          simp only [accumulate]
          split_ifs <;> trivial
      | _ => exact h

variable [Lawful α]

/-- A sample does the same to the same peaks. -/
theorem accumulate_peaks (m : Method) (x : α) {peak peak' : α} (smallest largest : α)
    (plateau : Bool) (h : Same peak peak') (hy : Same y y') :
    (m.accumulate x y (.maximum peak smallest largest plateau)).Alike
      (m.accumulate x y' (.maximum peak' smallest largest plateau)) := by
  have hrise : peak + plateauTolerance < y ↔ peak' + plateauTolerance < y' :=
    (h.add (.refl _)).lt_iff hy
  have hlevel : Scalar.abs (y - peak) ≤ plateauTolerance ↔
      Scalar.abs (y' - peak') ≤ plateauTolerance :=
    ((hy.sub h).abs).le_iff (.refl _)
  cases m with
  | meanOfMaximum | largestOfMaximum | smallestOfMaximum =>
      -- the comparisons have the same outcome, so both peaks are kept or both are replaced
      simp only [accumulate, hrise, hlevel]
      split_ifs
      all_goals
        first
        | exact .peaks _ _ _ hy
        | exact .peaks _ _ _ h
  | centroid | bisector | weightedAverage | weightedSum => exact .peaks _ _ _ h

theorem alike_accumulate (m : Method) (x : α) (h : acc.Alike acc') (hs : acc.Settled)
    (hy : Same y y') : (m.accumulate x y acc).Alike (m.accumulate x y' acc') := by
  cases h with
  | peaks smallest largest plateau h => exact m.accumulate_peaks x smallest largest plateau h hy
  | same =>
      cases acc with
      | maximum peak smallest largest plateau =>
          exact m.accumulate_peaks x smallest largest plateau (.refl peak) hy
      | centroid sumXY sumY =>
          cases m with
          | centroid =>
              simp only [accumulate, hs.1.add_eq (hy.mul_left x), hs.2.add_eq hy]
              exact .same _
          | _ => exact .same _
      | area total half current crossing =>
          cases m with
          | bisector =>
              simp only [accumulate, hs.1.add_eq hy]
              exact .same _
          | _ => exact .same _
      | idle | weighted sumWZ sumW => cases m <;> exact .same _

omit [Lawful α] in
/-- The sign of a peak that is 0 does not show in the crisp value. -/
theorem finalize_alike (m : Method) (h : acc.Alike acc') : m.finalize acc = m.finalize acc' := by
  cases h with
  | same => rfl
  | peaks smallest largest plateau h =>
      cases m with
      | meanOfMaximum | largestOfMaximum | smallestOfMaximum =>
          simp only [finalize, h.le_iff (.refl 0)]
      | _ => rfl

end Method

/-! ## Outputs -/

/-- Equal up to the signs of recorded degrees that are 0. -/
structure Region.Alike (r r' : Region α) : Prop where
  xs : r.xs = r'.xs
  size : r.ys.size = r'.ys.size
  ys : ∀ i (h : i < r.ys.size) (h' : i < r'.ys.size), Same r.ys[i] r'.ys[i]

/-- Equal up to the signs of degrees that are 0: the range, the crisp value, the sample point and
every sum are equal. -/
structure Output.Alike (out out' : Output α) : Prop where
  variable_eq : out.toVariable = out'.toVariable
  x : out.x = out'.x
  y : Same out.y out'.y
  accumulator : out.accumulator.Alike out'.accumulator
  region : Option.Rel Region.Alike out.region out'.region

theorem Region.Alike.refl (r : Region α) : r.Alike r := ⟨rfl, rfl, fun _ _ _ => .refl _⟩

theorem Region.Alike.record {r r' : Region α} (h : r.Alike r') (k : Nat) (x : α) {y y' : α}
    (hy : Same y y') : (r.record k x y).Alike (r'.record k x y') := by
  have hcapacity : r.capacity = r'.capacity := by rw [capacity, capacity, h.xs, h.size]
  rw [Region.record, Region.record, hcapacity]
  split
  case isTrue =>
    refine ⟨by rw [h.xs], by simp [h.size], fun i hi hi' => ?_⟩
    simp only [Array.size_setIfInBounds] at hi hi'
    simp only [Array.getElem_setIfInBounds hi, Array.getElem_setIfInBounds hi']
    split
    · exact hy
    · exact h.ys i hi hi'
  case isFalse => exact h

namespace Output

theorem Alike.refl (out : Output α) : out.Alike out := by
  refine ⟨rfl, rfl, .refl _, .same _, ?_⟩
  cases out.region with
  | none => exact .none
  | some r => exact .some (.refl r)

section Neutral

variable [NeutralZero α] [Lawful α] {out out' : Output α} {curve curve' : Variable α → α}

omit [NeutralZero α] [Lawful α] in
/-- Curves that are the same give samples that are alike. -/
theorem Alike.sampled (h : out.Alike out') (hcurve : ∀ v, Same (curve v) (curve' v))
    (k points : Nat) : (out.sampled curve k points).Alike (out'.sampled curve' k points) := by
  have hbegun : (out.beginSample k points).toVariable = (out'.beginSample k points).toVariable := by
    simp only [beginSample, h.variable_eq]
  refine ⟨hbegun, congrArg Variable.value hbegun, ?_, h.accumulator, h.region⟩
  show Same (curve (out.beginSample k points).toVariable)
    (curve' (out'.beginSample k points).toVariable)
  rw [hbegun]
  exact hcurve _

theorem Alike.takeSample (m : Method) (k : Nat) (h : out.Alike out')
    (hs : out.accumulator.Settled) : (out.takeSample m k).Alike (out'.takeSample m k) := by
  refine ⟨h.variable_eq, h.x, h.y, ?_, ?_⟩
  · show (m.accumulate out.x out.y out.accumulator).Alike
      (m.accumulate out'.x out'.y out'.accumulator)
    rw [← h.x]
    exact m.alike_accumulate out.x h.accumulator hs h.y
  · show Option.Rel Region.Alike (out.region.map _) (out'.region.map _)
    rw [← h.x]
    have hregion := h.region
    generalize out.region = r, out'.region = r' at hregion ⊢
    cases hregion with
    | none => exact .none
    | some hregion => exact .some (hregion.record k out.x h.y)

omit [Lawful α] in
theorem settled_takeSample (m : Method) (k : Nat) (h : out.accumulator.Settled) :
    (out.takeSample m k).accumulator.Settled := m.settled_accumulate out.x out.y h

/-- The first sweep over curves that are the same leaves outputs that are alike, and sums that are
settled for the second. -/
theorem Alike.sweep (m : Method) (hcurve : ∀ v, Same (curve v) (curve' v)) (points left k : Nat)
    (h : out.Alike out') (hs : out.accumulator.Settled) :
    (out.sweep m curve points left k).Alike (out'.sweep m curve' points left k) ∧
      (out.sweep m curve points left k).accumulator.Settled := by
  induction left generalizing k out out' with
  | zero => exact ⟨h, hs⟩
  | succ left ih =>
      have hsampled := h.sampled hcurve k points
      have hsettled : (out.sampled curve k points).accumulator.Settled := hs
      -- the accumulators stay alike because their sums were settled before the sample
      exact ih (k + 1) (hsampled.takeSample m k hsettled) (settled_takeSample m k hsettled)

omit [Lawful α] in
/-- So does the second sweep, which stops at the same sample. -/
theorem Alike.rescan (hcurve : ∀ v, Same (curve v) (curve' v)) (points left k : Nat)
    (h : out.Alike out') (hs : out.accumulator.Settled) :
    (out.rescan curve points left k).Alike (out'.rescan curve' points left k) := by
  induction left generalizing k out out' with
  | zero => exact h
  | succ left ih =>
      have hsampled := h.sampled hcurve k points
      obtain ⟨hscan, hreached⟩ :=
        hsampled.accumulator.scanArea (out.sampled curve k points).x hs hsampled.y
      have hscanned : (out.sampled curve k points).scanned.Alike
          (out'.sampled curve' k points).scanned := by
        refine ⟨hsampled.variable_eq, hsampled.x, hsampled.y, ?_, hsampled.region⟩
        rw [Output.scanned, Output.scanned, ← hsampled.x]
        exact hscan
      have hstop : (out.sampled curve k points).reached =
          (out'.sampled curve' k points).reached := by
        rw [Output.reached, Output.reached, ← hsampled.x]
        exact hreached
      -- both sweeps stop here, or both go on
      rw [Output.rescan, Output.rescan, ← hstop]
      split
      · exact hscanned
      · exact ih (k + 1) hscanned (Accumulator.settled_scanArea _ _ hs)

/-- An output is traced alike along curves that are the same. -/
theorem alike_traced (m : Method) (hcurve : ∀ v, Same (curve v) (curve' v)) (points : Nat)
    (out : Output α) : (out.traced m curve points).Alike (out.traced m curve' points) := by
  obtain ⟨hswept, hsettled⟩ := (Alike.refl (out.reset m)).sweep m hcurve points points 0
    (m.settled_init out.toVariable)
  simp only [traced]
  split
  case isTrue =>
    have hbegun : ((out.reset m).sweep m curve points points 0).beginBisection.Alike
        ((out.reset m).sweep m curve' points points 0).beginBisection :=
      ⟨hswept.variable_eq, hswept.x, hswept.y, hswept.accumulator.beginBisection, hswept.region⟩
    exact hbegun.rescan hcurve points points 0 (Accumulator.settled_beginBisection hsettled)
  case isFalse => exact hswept

omit [Lawful α] in
/-- Outputs that are alike get the same crisp value. -/
theorem Alike.settle (m : Method) (h : out.Alike out') : (out.settle m).Alike (out'.settle m) := by
  have hvalue : (out.settle m).toVariable = (out'.settle m).toVariable := by
    simp only [Output.settle, h.variable_eq, m.finalize_alike h.accumulator]
  exact ⟨hvalue, h.x, h.y, h.accumulator, h.region⟩

end Neutral

end Output

/-! ## Numbers with one zero -/

section OneZero

variable (hzero : ∀ a : α, IsZero a → a = 0)

include hzero

theorem Scalar.Same.eq {a b : α} (h : Same a b) : a = b := by
  rcases h with rfl | ⟨ha, hb⟩
  · rfl
  · rw [hzero a ha, hzero b hb]

theorem Accumulator.Alike.eq {acc acc' : Accumulator α} (h : acc.Alike acc') : acc = acc' := by
  cases h with
  | same => rfl
  | peaks smallest largest plateau h => rw [h.eq hzero]

theorem Region.Alike.eq {r r' : Region α} (h : r.Alike r') : r = r' := by
  have hys : r.ys = r'.ys := Array.ext h.size fun i hi hi' => (h.ys i hi hi').eq hzero
  cases r
  cases r'
  obtain rfl := h.xs
  obtain rfl := hys
  rfl

theorem Output.Alike.eq {out out' : Output α} (h : out.Alike out') : out = out' := by
  have hregion : out.region = out'.region := by
    have hregions := h.region
    generalize out.region = r, out'.region = r' at hregions ⊢
    cases hregions with
    | none => rfl
    | some hregion => rw [hregion.eq hzero]
  have hy : out.y = out'.y := h.y.eq hzero
  have haccumulator : out.accumulator = out'.accumulator := h.accumulator.eq hzero
  obtain ⟨hvariable, hx, -, -, -⟩ := h
  cases out
  cases out'
  rw [Output.mk.injEq]
  exact ⟨hvariable, hx, hy, haccumulator, hregion⟩

end OneZero

end FuzzyInference
