import FuzzyInference.Proofs.Firing

/-!
# What a sampled pass computes

A Mamdani system samples all outputs together, and the bisector samples each of them once more,
alone. `Firing.degree` says what every sample is: a fold of implied degrees over the consequents
about one output. It depends on the configuration, the output membership functions, these
consequents and the range of the output, and on nothing else.

The loops are brought to the same form. `sampleIf_eq`, `halveIf_eq` and `bisectIf_eq` say that each
of them, whatever its test is, changes every output on its own, through functions of one output
(`Output.sweep`, `Output.rescan`) that get the curve of the output as an argument.
`Engine.atSample` and `Halves` name the engines inside the two loops, so that the samples
themselves can be stated (`mamdani_samples_degrees`).
-/

set_option autoImplicit false

namespace FuzzyInference

variable {α : Type} [Scalar α]

/-! ## Samples of one output -/

/-- The middle of the `k`-th of `points` equal parts of the range. -/
def Variable.samplePoint (v : Variable α) (k points : Nat) : α :=
  v.lower + (Scalar.ofNat k + 0.5) * ((v.upper - v.lower) / Scalar.ofNat points)

/-- The variable standing at its `k`-th sample point. -/
def Variable.sampleAt (v : Variable α) (k points : Nat) : Variable α :=
  { v with value := v.samplePoint k points }

namespace Firing

/-- The implied degree of a consequent at the value of `v`: the implication combines its strength
with its height times the value of its shape there, or with what is missing from this to 1 if the
consequent is negated. -/
def implied (config : Config) (memberships : List (Membership α)) (v : Variable α)
    (f : Firing α) : α :=
  let m := f.reference.membership memberships
  config.implication.apply f.strength
    (if f.reference.negated then 1 - m.height * m.evaluate [v] else m.height * m.evaluate [v])

/-- This is the strength implied to the degree of what the reference names. -/
theorem implied_eq (config : Config) (memberships : List (Membership α)) (v : Variable α)
    (f : Firing α) :
    f.implied config memberships v = config.implication.apply f.strength
      (f.reference.polarize ((f.reference.membership memberships).scaled v)) := rfl

/-- The degree that consequents have together at the value of `v`. -/
def degree (config : Config) (memberships : List (Membership α)) (fs : List (Firing α))
    (v : Variable α) : α :=
  fs.foldl (fun y f => config.aggregation.apply y (f.implied config memberships v)) 0

end Firing

namespace Output

omit [Scalar α] in
/-- The ends of the range. -/
def range (out : Output α) : α × α := (out.lower, out.upper)

/-- The output at sample `k`, with the degree that `curve` has there. -/
def sampled (curve : Variable α → α) (k points : Nat) (out : Output α) : Output α :=
  let begun := out.beginSample k points
  { begun with y := curve begun.toVariable }

/-- Takes `left` samples of the output, the first of them with number `k`. -/
def sweep (m : Method) (curve : Variable α → α) (points : Nat) :
    (left k : Nat) → Output α → Output α
  | 0, _, out => out
  | left + 1, k, out =>
      sweep m curve points left (k + 1) ((out.sampled curve k points).takeSample m k)

/-- Prepares the second sweep. -/
def beginBisection (out : Output α) : Output α :=
  { out with accumulator := out.accumulator.beginBisection }

/-- Advances the second sweep by the current sample. -/
def scanned (out : Output α) : Output α :=
  { out with accumulator := (out.accumulator.scanArea out.x out.y).1 }

/-- Whether the current sample reaches half of the area. -/
def reached (out : Output α) : Bool := (out.accumulator.scanArea out.x out.y).2

/-- The second sweep of the output, from sample `k` on. -/
def rescan (curve : Variable α → α) (points : Nat) : (left k : Nat) → Output α → Output α
  | 0, _, out => out
  | left + 1, k, out =>
      if (out.sampled curve k points).reached then (out.sampled curve k points).scanned
      else rescan curve points left (k + 1) (out.sampled curve k points).scanned

section Range

variable (m : Method) (curve : Variable α → α) (k points : Nat) (out : Output α)

theorem range_settle : (out.settle m).range = out.range := rfl

theorem range_sweep (left : Nat) : (out.sweep m curve points left k).range = out.range := by
  induction left generalizing k out with
  | zero => rfl
  | succ left ih => exact ih (k + 1) _

theorem range_rescan (left : Nat) : (out.rescan curve points left k).range = out.range := by
  induction left generalizing k out with
  | zero => rfl
  | succ left ih =>
      rw [rescan]
      split
      · rfl
      · exact ih (k + 1) _

end Range

theorem sampleAt_eq_of_range {out out' : Output α} (h : out'.range = out.range)
    (k points : Nat) : out'.sampleAt k points = out.sampleAt k points := by
  obtain ⟨hlower, hupper⟩ : out'.lower = out.lower ∧ out'.upper = out.upper := by
    simpa [range] using h
  simp only [Variable.sampleAt, Variable.samplePoint, hlower, hupper]

/-- Where an output stands at a sample depends on its range only. -/
theorem sampled_eq_of_range {curve : Variable α → α} {k points : Nat} {out out' : Output α}
    (h : out'.range = out.range) :
    (out'.sampled curve k points).x = out.samplePoint k points ∧
      (out'.sampled curve k points).y = curve (out.sampleAt k points) := by
  have hat := sampleAt_eq_of_range h k points
  exact ⟨congrArg Variable.value hat, congrArg curve hat⟩

end Output

namespace Engine

/-! ## The loops, output by output -/

/-- The curve of output `o` from the consequents whose strength passes a test. -/
def curveIf (test : α → Prop) [DecidablePred test] (e : Engine α) (o : Nat) : Variable α → α :=
  Firing.degree e.config e.outputMemberships (e.firingIf test o)

/-- The curve of output `o`. -/
def curve (e : Engine α) (o : Nat) : Variable α → α := e.curveIf (fun s => 0 < s) o

theorem curve_eq_degree (e : Engine α) (o : Nat) :
    e.curve o = Firing.degree e.config e.outputMemberships (e.firing o) := rfl

variable {e : Engine α}

/-- In a Mamdani system consequents change the degree of an output only. -/
theorem contributeAll_mamdani (harch : e.architecture = .mamdani) (fs : List (Firing α))
    (out : Output α) :
    e.contributeAll fs out =
      { out with y := fs.foldl (fun y f => e.config.aggregation.apply y
          (f.implied e.config e.outputMemberships out.toVariable)) out.y } := by
  induction fs generalizing out with
  | nil => rfl
  | cons f fs ih =>
      have hcons : e.contributeAll (f :: fs) out =
          e.contributeAll fs (e.contribute (f.reference.membership e.outputMemberships)
            f.reference f.strength out) := rfl
      rw [hcons, ih, contribute, harch]
      rfl

theorem scan_of_getElem? {s : Engine α} {o : Nat} (out : Output α)
    (hout : s.outputs[o]? = some out) :
    s.scan o = (s.modifyOutput o Output.scanned, out.reached) := by
  simp only [scan, hout]
  refine Prod.ext ?_ rfl
  simp only [modifyOutput_eq]
  refine mapOutputsIdx_congr fun i out' hout' => ?_
  by_cases hi : i = o
  · subst hi
    rw [hout, Option.some.injEq] at hout'
    simp [hout', Output.scanned]
  · simp [hi]

section Test

variable (test : α → Prop) [DecidablePred test]

theorem contributeAll_beginSample (harch : e.architecture = .mamdani) (o k points : Nat)
    (out : Output α) :
    e.contributeAll (e.firingIf test o) (out.beginSample k points) =
      out.sampled (e.curveIf test o) k points := by
  rw [contributeAll_mamdani harch]
  rfl

variable (harch : e.architecture = .mamdani) (hok : e.consequences.outcome = .ok ())

include harch hok

/-- One sample of all outputs. -/
theorem aggregateIf_beginSample (f : Nat → Output α → Output α) (k points : Nat) :
    aggregateIf test none ((e.mapOutputsIdx f).mapOutputs (Output.beginSample k points)) =
      (e.mapOutputsIdx fun o out => (f o out).sampled (e.curveIf test o) k points, .ok ()) := by
  rw [mapOutputs_eq, mapOutputsIdx_mapOutputsIdx, aggregateIf_mapOutputsIdx test none hok]
  simp only [Option.all_none, if_true, contributeAll_beginSample test harch]

/-- One sample of output `o`. -/
theorem aggregateIf_modifyOutput (f : Nat → Output α → Output α) (o k points : Nat) :
    aggregateIf test (some o) ((e.mapOutputsIdx f).modifyOutput o (Output.beginSample k points)) =
      (e.mapOutputsIdx fun i out =>
        if i = o then (f i out).sampled (e.curveIf test i) k points else f i out, .ok ()) := by
  rw [modifyOutput_eq, mapOutputsIdx_mapOutputsIdx, aggregateIf_mapOutputsIdx test (some o) hok]
  congr 2
  funext i out
  by_cases hi : i = o
  · simp only [hi, Option.all_some, decide_true, if_true, contributeAll_beginSample test harch]
  · simp [hi, Ne.symm hi]

/-- The first sweep takes the samples of each output. -/
theorem sampleIf_eq (points left k : Nat) (f : Nat → Output α → Output α) :
    sampleIf test points left k (e.mapOutputsIdx f) =
      (e.mapOutputsIdx fun o out =>
        (f o out).sweep e.config.method (e.curveIf test o) points left k, .ok ()) := by
  induction left generalizing k f with
  | zero => rfl
  | succ left ih =>
      rw [sampleIf, aggregateIf_beginSample test harch hok, Outcome.andThen, mapOutputs_eq,
        mapOutputsIdx_mapOutputsIdx, ih]
      rfl

/-- The second sweep of output `o` changes that output only. -/
theorem halveIf_eq (o points left k : Nat) (f : Nat → Output α → Output α)
    (ho : o < e.outputs.length) :
    halveIf test o points left k (e.mapOutputsIdx f) =
      (e.mapOutputsIdx fun i out =>
        if i = o then (f i out).rescan (e.curveIf test i) points left k else f i out, .ok ()) := by
  have hout : e.outputs[o]? = some e.outputs[o] := List.getElem?_eq_getElem ho
  induction left generalizing k f with
  | zero =>
      refine Prod.ext (mapOutputsIdx_congr fun i out _ => ?_) rfl
      split <;> rfl
  | succ left ih =>
      have hscan := scan_of_getElem? (s := e.mapOutputsIdx fun i out =>
          if i = o then (f i out).sampled (e.curveIf test i) k points else f i out)
        (o := o) ((f o e.outputs[o]).sampled (e.curveIf test o) k points)
        (by rw [getElem?_mapOutputsIdx, hout, Option.map_some, if_pos rfl])
      rw [halveIf, aggregateIf_modifyOutput test harch hok, Outcome.andThen, hscan, modifyOutput_eq,
        mapOutputsIdx_mapOutputsIdx]
      -- whether the sweep goes on is decided by the one output that it samples
      by_cases hreached : ((f o e.outputs[o]).sampled (e.curveIf test o) k points).reached
      · rw [if_pos hreached]
        refine Prod.ext (mapOutputsIdx_congr fun i out hi => ?_) rfl
        by_cases hio : i = o
        · subst hio
          rw [hout, Option.some.injEq] at hi
          subst hi
          rw [if_pos rfl, if_pos rfl, if_pos rfl, Output.rescan, if_pos hreached]
        · rw [if_neg hio, if_neg hio, if_neg hio]
      · rw [if_neg hreached, ih]
        refine Prod.ext (mapOutputsIdx_congr fun i out hi => ?_) rfl
        by_cases hio : i = o
        · subst hio
          rw [hout, Option.some.injEq] at hi
          subst hi
          rw [if_pos rfl, if_pos rfl, if_pos rfl, if_pos rfl, Output.rescan, if_neg hreached]
        · rw [if_neg hio, if_neg hio, if_neg hio, if_neg hio]

/-- The second sweep of several outputs, one after the other. -/
theorem bisectIf_eq (points : Nat) {os : List Nat} (f : Nat → Output α → Output α)
    (hos : ∀ o ∈ os, o < e.outputs.length) (hnodup : os.Nodup) :
    bisectIf test points os (e.mapOutputsIdx f) =
      (e.mapOutputsIdx fun o out =>
        if o ∈ os then (f o out).beginBisection.rescan (e.curveIf test o) points points 0
        else f o out, .ok ()) := by
  induction os generalizing f with
  | nil =>
      refine Prod.ext (mapOutputsIdx_congr fun o out _ => ?_) rfl
      rw [if_neg List.not_mem_nil]
  | cons o os ih =>
      obtain ⟨hnot, hnodup⟩ := List.nodup_cons.1 hnodup
      have hbegin : (e.mapOutputsIdx f).modifyOutput o Output.beginBisection =
          e.mapOutputsIdx fun i out => if i = o then (f i out).beginBisection else f i out := by
        rw [modifyOutput_eq, mapOutputsIdx_mapOutputsIdx]
      have hcons : bisectIf test points (o :: os) (e.mapOutputsIdx f) =
          Outcome.andThen (halveIf test o points points 0
            ((e.mapOutputsIdx f).modifyOutput o Output.beginBisection))
            (bisectIf test points os) := rfl
      rw [hcons, hbegin, halveIf_eq test harch hok o points points 0 _ (hos o List.mem_cons_self),
        Outcome.andThen, ih _ (fun i hi => hos i (List.mem_cons_of_mem o hi)) hnodup]
      refine Prod.ext (mapOutputsIdx_congr fun i out _ => ?_) rfl
      by_cases hio : i = o
      · subst hio
        simp [hnot]
      · simp [hio]

end Test

/-! ## The loops of the engine -/

section Loops

variable (harch : e.architecture = .mamdani) (hok : e.consequences.outcome = .ok ())

include harch hok

theorem aggregate_modifyOutput (f : Nat → Output α → Output α) (o k points : Nat) :
    aggregate (some o) ((e.mapOutputsIdx f).modifyOutput o (Output.beginSample k points)) =
      (e.mapOutputsIdx fun i out =>
        if i = o then (f i out).sampled (e.curve i) k points else f i out, .ok ()) :=
  aggregateIf_modifyOutput (fun s => 0 < s) harch hok f o k points

theorem sample_eq (points left k : Nat) (f : Nat → Output α → Output α) :
    sample points left k (e.mapOutputsIdx f) =
      (e.mapOutputsIdx fun o out => (f o out).sweep e.config.method (e.curve o) points left k,
        .ok ()) := by
  rw [← sampleIf_pos]
  exact sampleIf_eq (fun s => 0 < s) harch hok points left k f

theorem bisect_eq (points : Nat) {os : List Nat} (f : Nat → Output α → Output α)
    (hos : ∀ o ∈ os, o < e.outputs.length) (hnodup : os.Nodup) :
    bisect points os (e.mapOutputsIdx f) =
      (e.mapOutputsIdx fun o out =>
        if o ∈ os then (f o out).beginBisection.rescan (e.curve o) points points 0 else f o out,
        .ok ()) := by
  rw [← bisectIf_pos]
  exact bisectIf_eq (fun s => 0 < s) harch hok points f hos hnodup

end Loops

/-! ## The engines inside the loops -/

theorem sample_add (points i j k : Nat) (s : Engine α) :
    sample points (i + j) k s =
      Outcome.andThen (sample points i k s) (sample points j (k + i)) := by
  induction i generalizing k s with
  | zero => rw [Nat.zero_add, Nat.add_zero]; rfl
  | succ i ih =>
      rw [Nat.add_right_comm, sample_succ, sample_succ]
      rcases aggregate none (s.mapOutputs (Output.beginSample k points)) with ⟨s', result⟩
      cases result with
      | error err => rfl
      | ok u =>
          simp only [Outcome.andThen]
          rw [ih, Nat.add_right_comm k 1 i]
          rfl

theorem bisect_append (points : Nat) (os os' : List Nat) (s : Engine α) :
    bisect points (os ++ os') s =
      Outcome.andThen (bisect points os s) (bisect points os') := by
  induction os generalizing s with
  | nil => rfl
  | cons o os ih =>
      rw [List.cons_append, bisect_cons, bisect_cons]
      rcases halve o points points 0 (s.modifyOutput o fun out =>
        { out with accumulator := out.accumulator.beginBisection }) with ⟨s', result⟩
      cases result with
      | error err => rfl
      | ok u => exact ih s'

/-- The engine when defuzzification begins: every accumulator is fresh. -/
def begun (e : Engine α) : Engine α := e.mapOutputs (Output.reset e.config.method)

/-- Defuzzification of a Mamdani system: the first sweep, the second if the method asks for it, and
the crisp values. -/
theorem defuzzify_mamdani (harch : e.architecture = .mamdani) (hstatus : e.status = .succeeded) :
    e.defuzzify =
      Outcome.andThen
        (Outcome.andThen (sample e.config.evalPoints e.config.evalPoints 0 e.begun) fun s =>
          if s.config.method = .bisector then
            bisect e.config.evalPoints (List.range s.outputs.length) s
          else (s, .ok ()))
        (fun s => (s.mapOutputs (Output.settle s.config.method), .ok ())) := by
  have harch' : e.begun.architecture = .mamdani := harch
  rw [defuzzify_succeeded hstatus]
  exact congrArg (Outcome.andThen · _) (accumulate_mamdani harch')

/-- The engine when sample `k` of the first sweep has been aggregated from the consequents whose
strength passes a test. -/
def atSampleIf (test : α → Prop) [DecidablePred test] (e : Engine α) (k : Nat) : Outcome α :=
  Outcome.andThen (sampleIf test e.config.evalPoints k 0 e.begun) fun s =>
    aggregateIf test none (s.mapOutputs (Output.beginSample k e.config.evalPoints))

/-- The engine when sample `k` of the first sweep has been aggregated. -/
def atSample (e : Engine α) (k : Nat) : Outcome α := e.atSampleIf (fun s => 0 < s) k

/-- It is reached by the loop and the aggregation of the engine. -/
theorem atSample_eq_andThen (k : Nat) :
    e.atSample k = Outcome.andThen (sample e.config.evalPoints k 0 e.begun) fun s =>
      aggregate none (s.mapOutputs (Output.beginSample k e.config.evalPoints)) := by
  rw [atSample, atSampleIf, sampleIf_pos, aggregateIf_pos]

/-- The engine after the first sweep. -/
def swept (e : Engine α) : Engine α := (sample e.config.evalPoints e.config.evalPoints 0 e.begun).1

/-- The second sweep of output `o` comes to its sample `k` in the engine `s`: half of the area was
not reached by the samples before. -/
inductive Halves (e : Engine α) (o : Nat) : Nat → Engine α → Prop where
  | begins : Halves e o 0
      ((bisect e.config.evalPoints (List.range o) e.swept).1.modifyOutput o Output.beginBisection)
  | goesOn {k : Nat} {s s' : Engine α} (before : Halves e o k s) (left : k < e.config.evalPoints)
      (aggregated : aggregate (some o)
        (s.modifyOutput o (Output.beginSample k e.config.evalPoints)) = (s', .ok ()))
      (short : (s'.scan o).2 = false) : Halves e o (k + 1) (s'.scan o).1

/-- The first sweep passes through each of its samples. -/
theorem sample_eq_andThen_atSample {k : Nat} (hk : k < e.config.evalPoints) :
    sample e.config.evalPoints e.config.evalPoints 0 e.begun =
      Outcome.andThen (e.atSample k) fun s =>
        sample e.config.evalPoints (e.config.evalPoints - (k + 1)) (k + 1)
          (s.mapOutputs (Output.takeSample s.config.method k)) := by
  have hsplit := sample_add e.config.evalPoints k (e.config.evalPoints - (k + 1) + 1) 0 e.begun
  rw [show k + (e.config.evalPoints - (k + 1) + 1) = e.config.evalPoints by omega,
    Nat.zero_add] at hsplit
  rw [hsplit, atSample_eq_andThen]
  rcases sample e.config.evalPoints k 0 e.begun with ⟨s, result⟩
  cases result with
  | error err => rfl
  | ok u => exact sample_succ ..

/-- The second sweep goes on from where it has come to. -/
theorem Halves.halve_eq {o k : Nat} {s : Engine α} (h : Halves e o k s) :
    halve o e.config.evalPoints e.config.evalPoints 0
        ((bisect e.config.evalPoints (List.range o) e.swept).1.modifyOutput o
          Output.beginBisection) =
      halve o e.config.evalPoints (e.config.evalPoints - k) k s := by
  induction h with
  | begins => rfl
  | @goesOn k s s' _ hk haggregated hshort ih =>
      rw [ih, show e.config.evalPoints - k = e.config.evalPoints - (k + 1) + 1 by omega,
        halve_succ, haggregated, Outcome.andThen, hshort]
      rfl

namespace Ready

variable {rules : List Rule}

theorem curve_eq (h : e.Ready rules) (o : Nat) :
    e.curve o =
      Firing.degree e.config e.outputMemberships (Firing.ofRules e.strengths o rules) := by
  rw [curve_eq_degree, h.firing_eq]

section Mamdani

variable (h : e.Ready rules) (harch : e.architecture = .mamdani)

include h harch

theorem atSampleIf_eq (test : α → Prop) [DecidablePred test] (k : Nat) :
    e.atSampleIf test k =
      (e.mapOutputsIdx fun o out =>
        ((out.reset e.config.method).sweep e.config.method (e.curveIf test o) e.config.evalPoints k
          0).sampled (e.curveIf test o) k e.config.evalPoints, .ok ()) := by
  rw [atSampleIf, begun, mapOutputs_eq, sampleIf_eq test harch h.outcome_eq, Outcome.andThen,
    aggregateIf_beginSample test harch h.outcome_eq]

theorem atSample_eq (k : Nat) :
    e.atSample k =
      (e.mapOutputsIdx fun o out =>
        ((out.reset e.config.method).sweep e.config.method (e.curve o) e.config.evalPoints k
          0).sampled (e.curve o) k e.config.evalPoints, .ok ()) :=
  h.atSampleIf_eq harch (fun s => 0 < s) k

theorem swept_eq :
    e.swept = e.mapOutputsIdx fun o out => (out.reset e.config.method).sweep e.config.method
      (e.curve o) e.config.evalPoints e.config.evalPoints 0 := by
  rw [swept, begun, mapOutputs_eq, sample_eq harch h.outcome_eq]

/-- The engines of the second sweep differ from the first in nothing but outputs, and in no
range. -/
theorem halves_eq {o k : Nat} {s : Engine α} (hs : Halves e o k s) (ho : o < e.outputs.length) :
    ∃ f : Nat → Output α → Output α, s = e.mapOutputsIdx f ∧
      ∀ i out, (f i out).range = out.range := by
  induction hs with
  | begins =>
      rw [h.swept_eq harch, bisect_eq harch h.outcome_eq _ _
        (fun i hi => Nat.lt_trans (List.mem_range.1 hi) ho) List.nodup_range, modifyOutput_eq,
        mapOutputsIdx_mapOutputsIdx]
      refine ⟨_, rfl, fun i out => ?_⟩
      have hswept : ((out.reset e.config.method).sweep e.config.method (e.curve i)
          e.config.evalPoints e.config.evalPoints 0).range = out.range :=
        Output.range_sweep ..
      by_cases hio : i = o
      · subst hio
        rw [if_pos rfl, if_neg (by simp)]
        exact hswept
      · rw [if_neg hio]
        split
        · exact (Output.range_rescan ..).trans hswept
        · exact hswept
  | @goesOn k s s' _ hk haggregated hshort ih =>
      obtain ⟨f, rfl, hf⟩ := ih
      rw [aggregate_modifyOutput harch h.outcome_eq, Prod.mk.injEq] at haggregated
      obtain ⟨rfl, -⟩ := haggregated
      have hout := List.getElem?_eq_getElem ho
      rw [scan_of_getElem? ((f o e.outputs[o]).sampled (e.curve o) k e.config.evalPoints)
        (by rw [getElem?_mapOutputsIdx, hout, Option.map_some, if_pos rfl]), modifyOutput_eq,
        mapOutputsIdx_mapOutputsIdx]
      refine ⟨_, rfl, fun i out => ?_⟩
      by_cases hio : i = o
      · rw [if_pos hio, if_pos hio]
        exact hf i out
      · rw [if_neg hio, if_neg hio]
        exact hf i out

/-- A sample of the first sweep. -/
theorem sample_spec (k : Nat) :
    ∃ s, e.atSample k = (s, .ok ()) ∧ ∀ o out, e.outputs[o]? = some out →
      ∃ out', s.outputs[o]? = some out' ∧ out'.x = out.samplePoint k e.config.evalPoints ∧
        out'.y = Firing.degree e.config e.outputMemberships (Firing.ofRules e.strengths o rules)
          (out.sampleAt k e.config.evalPoints) := by
  refine ⟨_, h.atSample_eq harch k, fun o out hout => ?_⟩
  rw [getElem?_mapOutputsIdx, hout, Option.map_some]
  refine ⟨_, rfl, ?_⟩
  rw [← h.curve_eq o]
  exact Output.sampled_eq_of_range (Output.range_sweep ..)

/-- A sample of the second sweep is that of the first, and no other output is changed. -/
theorem resample_spec {o k : Nat} {s : Engine α} {out : Output α} (hs : Halves e o k s)
    (hout : e.outputs[o]? = some out) :
    ∃ s', aggregate (some o) (s.modifyOutput o (Output.beginSample k e.config.evalPoints)) =
        (s', .ok ()) ∧
      (∃ out', s'.outputs[o]? = some out' ∧ out'.x = out.samplePoint k e.config.evalPoints ∧
        out'.y = Firing.degree e.config e.outputMemberships (Firing.ofRules e.strengths o rules)
          (out.sampleAt k e.config.evalPoints)) ∧
      ∀ i, i ≠ o → s'.outputs[i]? = s.outputs[i]? := by
  obtain ⟨f, rfl, hf⟩ := h.halves_eq harch hs (List.getElem?_eq_some_iff.1 hout).1
  refine ⟨_, aggregate_modifyOutput harch h.outcome_eq f o k _, ?_, ?_⟩
  · rw [getElem?_mapOutputsIdx, hout, Option.map_some, if_pos rfl]
    refine ⟨_, rfl, ?_⟩
    rw [← h.curve_eq o]
    exact Output.sampled_eq_of_range (hf o out)
  · intro i hi
    simp only [getElem?_mapOutputsIdx, if_neg hi]

/-- The whole second sweep goes on from where the sweep of one output has come to. -/
theorem bisect_eq_andThen_halve {o k : Nat} {s : Engine α} (hs : Halves e o k s)
    (ho : o < e.outputs.length) :
    bisect e.config.evalPoints (List.range e.outputs.length) e.swept =
      Outcome.andThen (halve o e.config.evalPoints (e.config.evalPoints - k) k s)
        (bisect e.config.evalPoints (List.range' (o + 1) (e.outputs.length - (o + 1)))) := by
  have hrange : List.range e.outputs.length =
      List.range o ++ o :: List.range' (o + 1) (e.outputs.length - (o + 1)) := by
    have happend := @List.range'_append_1 0 o (e.outputs.length - (o + 1) + 1)
    rw [Nat.zero_add, show o + (e.outputs.length - (o + 1) + 1) = e.outputs.length by omega,
      List.range'_succ] at happend
    rw [List.range_eq_range', List.range_eq_range', happend]
  have hbefore : bisect e.config.evalPoints (List.range o) e.swept =
      ((bisect e.config.evalPoints (List.range o) e.swept).1, .ok ()) := by
    rw [h.swept_eq harch, bisect_eq harch h.outcome_eq _ _
      (fun i hi => Nat.lt_trans (List.mem_range.1 hi) ho) List.nodup_range]
  rw [hrange, bisect_append, hbefore, Outcome.andThen, bisect_cons, ← hs.halve_eq]
  rfl

end Mamdani

end Ready

/-! ## The samples -/

/-- In a Mamdani system in which an inference stands, every sample of an output lies in the middle
of its part of the range, and its degree is the fold over the consequents about this output of the
rules that fire. The second sweep of the bisector meets the same samples again and leaves the other
outputs alone. Two systems that agree about one output sample it alike, whatever they do to
others. -/
theorem mamdani_samples_degrees {w : Width} {architecture : Architecture} {tables : Tables α}
    {stream : List Int} {n : Nat} {config : Config} {e₀ e : Engine α}
    (hsetup : setup w architecture tables stream n config = .ok e₀) (cs : List (Command α))
    (he : e₀.run cs = e) (hstatus : e.status = .succeeded) (harch : e.architecture = .mamdani) :
    ∃ rules, e.Ready rules ∧
      e.defuzzify =
        Outcome.andThen
          (Outcome.andThen (sample e.config.evalPoints e.config.evalPoints 0 e.begun) fun s =>
            if s.config.method = .bisector then
              bisect e.config.evalPoints (List.range s.outputs.length) s
            else (s, .ok ()))
          (fun s => (s.mapOutputs (Output.settle s.config.method), .ok ())) ∧
      (∀ r ∈ rules, ∀ a ∈ r.consequents, a.tag < e.outputs.length ∧
        ∃ m, e.outputMemberships[a.reference.index]? = some m) ∧
      (∀ k, k < e.config.evalPoints →
        ∃ s, e.atSample k = (s, .ok ()) ∧
          sample e.config.evalPoints e.config.evalPoints 0 e.begun =
            sample e.config.evalPoints (e.config.evalPoints - (k + 1)) (k + 1)
              (s.mapOutputs (Output.takeSample s.config.method k)) ∧
          ∀ o out, e.outputs[o]? = some out →
            ∃ out', s.outputs[o]? = some out' ∧
              out'.x = out.samplePoint k e.config.evalPoints ∧
              out'.y = Firing.degree e.config e.outputMemberships
                (Firing.ofRules e.strengths o rules)
                (out.sampleAt k e.config.evalPoints)) ∧
      (∀ o out, e.outputs[o]? = some out → ∀ k s, Halves e o k s → k < e.config.evalPoints →
        bisect e.config.evalPoints (List.range e.outputs.length) e.swept =
            Outcome.andThen (halve o e.config.evalPoints (e.config.evalPoints - k) k s)
              (bisect e.config.evalPoints
                (List.range' (o + 1) (e.outputs.length - (o + 1)))) ∧
          ∃ s', aggregate (some o)
              (s.modifyOutput o (Output.beginSample k e.config.evalPoints)) = (s', .ok ()) ∧
            (∃ out', s'.outputs[o]? = some out' ∧
              out'.x = out.samplePoint k e.config.evalPoints ∧
              out'.y = Firing.degree e.config e.outputMemberships
                (Firing.ofRules e.strengths o rules)
                (out.sampleAt k e.config.evalPoints)) ∧
            ∀ i, i ≠ o → s'.outputs[i]? = s.outputs[i]?) ∧
      ∀ (e' : Engine α) (rules' : List Rule), e'.Ready rules' → e'.architecture = .mamdani →
        e'.config = e.config → e'.outputMemberships = e.outputMemberships →
        ∀ o out out', e.outputs[o]? = some out → e'.outputs[o]? = some out' →
          out'.range = out.range →
          Firing.ofRules e'.strengths o rules' = Firing.ofRules e.strengths o rules →
          ∀ k, k < e.config.evalPoints →
            ∃ s s' a a', e.atSample k = (s, .ok ()) ∧ e'.atSample k = (s', .ok ()) ∧
              s.outputs[o]? = some a ∧ s'.outputs[o]? = some a' ∧ a'.x = a.x ∧ a'.y = a.y := by
  obtain ⟨rules, h⟩ := exists_ready hsetup cs he hstatus
  refine ⟨rules, h, defuzzify_mamdani harch hstatus, fun r hr a ha => h.consequent_within hr ha,
    ?_, ?_, ?_⟩
  · intro k hk
    obtain ⟨s, hs, hsamples⟩ := h.sample_spec harch k
    refine ⟨s, hs, ?_, hsamples⟩
    rw [sample_eq_andThen_atSample hk, hs]
    rfl
  · intro o out hout k s hs hk
    exact ⟨h.bisect_eq_andThen_halve harch hs (List.getElem?_eq_some_iff.1 hout).1,
      h.resample_spec harch hs hout⟩
  · intro e' rules' h' harch' hconfig hmemberships o out out' hout hout' hrange hfiring k hk
    obtain ⟨s, hs, hsamples⟩ := h.sample_spec harch k
    obtain ⟨s', hs', hsamples'⟩ := h'.sample_spec harch' k
    obtain ⟨a, ha, hx, hy⟩ := hsamples o out hout
    obtain ⟨a', ha', hx', hy'⟩ := hsamples' o out' hout'
    have hat := Output.sampleAt_eq_of_range hrange k e.config.evalPoints
    refine ⟨s, s', a, a', hs, hs', ha, ha', ?_, ?_⟩
    · rw [hx', hx, hconfig]
      exact congrArg Variable.value hat
    · rw [hy', hy, hconfig, hmemberships, hfiring, hat]

theorem mamdani_samples_degrees_twoRules :
    (twoRuleEngine.run twoRuleCommands).status = .succeeded ∧
      (twoRuleEngine.run twoRuleCommands).architecture = .mamdani ∧
      ∃ rules s out out', (twoRuleEngine.run twoRuleCommands).Ready rules ∧
        (twoRuleEngine.run twoRuleCommands).atSample 2 = (s, .ok ()) ∧
        (twoRuleEngine.run twoRuleCommands).outputs[1]? = some out ∧ s.outputs[1]? = some out' ∧
        out'.x = out.samplePoint 2 4 ∧
        out'.y = Firing.degree (twoRuleEngine.run twoRuleCommands).config
          (twoRuleEngine.run twoRuleCommands).outputMemberships
          (Firing.ofRules (twoRuleEngine.run twoRuleCommands).strengths 1 rules)
          (out.sampleAt 2 4) := by
  have harch : (twoRuleEngine.run twoRuleCommands).architecture = .mamdani := by decide +kernel
  have hpoints : (twoRuleEngine.run twoRuleCommands).config.evalPoints = 4 := by decide +kernel
  have hlength : 1 < (twoRuleEngine.run twoRuleCommands).outputs.length := by decide +kernel
  have hout := List.getElem?_eq_getElem hlength
  obtain ⟨rules, hready, -, -, hsamples, -⟩ :=
    mamdani_samples_degrees setup_twoRules twoRuleCommands rfl status_twoRules harch
  obtain ⟨s, hs, -, hs'⟩ := hsamples 2 (by rw [hpoints]; decide)
  obtain ⟨out', hout', hx, hy⟩ := hs' 1 _ hout
  rw [hpoints] at hx hy
  exact ⟨status_twoRules, harch, rules, s, _, out', hready, hs, hout, hout', hx, hy⟩

end Engine

end FuzzyInference
