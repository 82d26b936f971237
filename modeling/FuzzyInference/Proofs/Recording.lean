import FuzzyInference.Proofs.Bisection
import FuzzyInference.Proofs.Feeding
import FuzzyInference.Proofs.Refusals
import FuzzyInference.Proofs.Regions

/-!
# What a recorded region holds

While a Mamdani system is sampled, the samples that are fed to the accumulator of an output are
written into its region as well, as far as there is room for them. `Engine.Recorded` relates an
output after a defuzzification to the two sequences of its samples: the accumulator in the middle of
the sweep has been fed exactly these, the region holds exactly these, and what it holds determines
the centroid.

The second sweep of the bisector moves every output again but records nothing. Nor does any other
command write into a region: `Engine.perform_regions` goes through all of them.
-/

set_option autoImplicit false

namespace FuzzyInference

variable {α : Type}

/-! ## Reading a region back -/

namespace Region

/-- The first `n` samples that a region holds. -/
def samples (r : Region α) (n : ℕ) : List (α × α) := (r.xs.toList.zip r.ys.toList).take n

variable {x y : ℕ → α} {n : ℕ} {r r' : Region α}

/-- Where there is room for all samples they can be read back. -/
theorem Records.samples_eq (h : Records x y 0 n r r') (hroom : n ≤ r.capacity) :
    r'.samples n = (List.range n).map fun k => (x k, y k) := by
  refine List.ext_getElem? fun k => ?_
  rw [samples, List.getElem?_take, List.getElem?_map]
  by_cases hk : k < n
  · obtain ⟨hx, hy⟩ := h.written k (Nat.zero_le k) (by omega) (by omega)
    rw [if_pos hk, List.getElem?_range hk, Option.map_some, List.getElem?_zip_eq_some]
    exact ⟨by rw [Array.getElem?_toList, hx], by rw [Array.getElem?_toList, hy]⟩
  · rw [if_neg hk, List.getElem?_eq_none (by rw [List.length_range]; omega), Option.map_none]

/-- The quotient that the centroid is, computed from samples. -/
def centroid [Scalar α] (samples : List (α × α)) : α :=
  samples.foldl (fun sum s => sum + s.1 * s.2) 0 / samples.foldl (fun sum s => sum + s.2) 0

theorem Records.centroid_eq [Scalar α] (h : Records x y 0 n r r') (hroom : n ≤ r.capacity)
    (v : Variable α) :
    centroid (r'.samples n) = Method.centroid.finalize (Method.centroid.fed v x y n) := by
  rw [h.samples_eq hroom, centroid, List.foldl_map, List.foldl_map, Method.fed_centroid]
  rfl

end Region

namespace Engine

variable [Scalar α]

/-! ## A defuzzification -/

/-- What a defuzzification makes of output `o`, given as `out`, whose sample `k` is `x k` with the
degree `y k`. Afterwards the output is `out'`. -/
structure Recorded (e : Engine α) (o : ℕ) (out out' : Output α) (x y : ℕ → α) : Prop where
  /-- Sample `k` is where the output stands when it is aggregated for the `k`-th time. -/
  sampled : ∀ k, ∃ s a, e.atSample k = (s, .ok ()) ∧ s.outputs[o]? = some a ∧ a.x = x k ∧ a.y = y k
  /-- The accumulator is fed the samples in front of `k` by then. -/
  fed : ∀ k, ∃ a, (sample e.config.evalPoints k 0 e.begun).1.outputs[o]? = some a ∧
    a.accumulator = e.config.method.fed out.toVariable x y k
  /-- The region holds these samples and is otherwise as it was. -/
  region : ∀ r, out.region = some r → ∃ r', out'.region = some r' ∧
    (∀ k, k < min r.capacity e.config.evalPoints →
      r'.xs[k]? = some (x k) ∧ r'.ys[k]? = some (y k)) ∧
    (∀ k, min r.capacity e.config.evalPoints ≤ k →
      r'.xs[k]? = r.xs[k]? ∧ r'.ys[k]? = r.ys[k]?) ∧
    (e.config.method = .centroid → e.config.evalPoints ≤ r.capacity →
      out'.value =
        Scalar.clamp out.lower out.upper (Region.centroid (r'.samples e.config.evalPoints)))
  /-- An output without a region gets none. -/
  unattached : out.region = none → out'.region = none

theorem region_crisp_of_none {e : Engine α} {o : ℕ} {out : Output α} (h : out.region = none) :
    (e.crisp o out).region = none := by
  have hroom : (e.crisp o out).room = none := by
    rw [room_crisp, Output.room, h, Option.map_none]
  exact Option.map_eq_none_iff.1 hroom

variable {e : Engine α} {rules : List Rule}

theorem Ready.recorded (h : e.Ready rules) (harch : e.architecture = .mamdani) {o : ℕ}
    {out : Output α} (hout : e.outputs[o]? = some out) :
    e.Recorded o out (e.crisp o out) (fun k => out.samplePoint k e.config.evalPoints)
      (fun k => Firing.degree e.config e.outputMemberships (Firing.ofRules e.strengths o rules)
        (out.sampleAt k e.config.evalPoints)) := by
  rw [← h.curve_eq o]
  refine ⟨fun k => ?_, fun k => ?_, fun r hr => ?_, region_crisp_of_none⟩
  · obtain ⟨s, hs, hsamples⟩ := h.sample_spec harch k
    obtain ⟨a, ha, hx, hy⟩ := hsamples o out hout
    rw [← h.curve_eq o] at hy
    exact ⟨s, a, hs, ha, hx, hy⟩
  · rw [begun, mapOutputs_eq, sample_eq harch h.outcome_eq, getElem?_mapOutputsIdx, hout,
      Option.map_some]
    exact ⟨_, rfl, Output.accumulator_swept ..⟩
  · obtain ⟨r', hr', hrecords⟩ := records_crisp harch o hr
    obtain ⟨hwritten, hkept⟩ := hrecords.split
    refine ⟨r', hr', hwritten, hkept, fun hmethod hroom => ?_⟩
    rw [hrecords.centroid_eq hroom out.toVariable, value_crisp, crisp_mamdani harch, hmethod]
    show Scalar.clamp _ _ (Method.centroid.finalize (Output.traced _ _ _ out).accumulator) = _
    rw [Output.accumulator_traced _ _ _ (by decide)]

/-- At any time after the setup of a Mamdani system, a defuzzification that succeeds records in
every region that is attached to an output the samples of this output that it feeds to the
accumulator, and changes nothing else of it. No other command writes into a region, and in a system
of another architecture none does. -/
theorem region_holds_samples {w : Width} {architecture : Architecture} {tables : Tables α}
    {stream : List Int} {n : ℕ} {config : Config} {e₀ : Engine α}
    (hsetup : setup w architecture tables stream n config = .ok e₀) (cs : List (Command α))
    (he : e₀.run cs = e) :
    (e.architecture = .mamdani → e.defuzzify.2 = .ok () → ∃ rules, e.Ready rules ∧
      ∀ o out, e.outputs[o]? = some out → ∃ out', e.defuzzify.1.outputs[o]? = some out' ∧
        e.Recorded o out out' (fun k => out.samplePoint k e.config.evalPoints)
          (fun k => Firing.degree e.config e.outputMemberships
            (Firing.ofRules e.strengths o rules) (out.sampleAt k e.config.evalPoints))) ∧
      (∀ c : Command α, (e.perform c).1.regions = e.regions ∨
        (∃ tag r o, c = .storeRegion tag r ∧
          (e.perform c).1.regions = e.regions.modify o fun _ => some r) ∨
        (c = .defuzzify ∧ e.architecture = .mamdani ∧ (e.perform c).2 = .ok ())) ∧
      ∀ cs' : List (Command α), (∀ c ∈ cs', ∀ tag r, c ≠ .storeRegion tag r) →
        (e.architecture = .mamdani → ∀ c ∈ cs', c ≠ .defuzzify) →
        (e.run cs').regions = e.regions := by
  have hconfirmed : e.Confirmed := by
    rw [← he]
    exact run_confirmed (confirmed_of_setup hsetup) cs
  refine ⟨fun harch hok => ?_, perform_regions hconfirmed,
    fun cs' => run_regions hconfirmed⟩
  obtain ⟨rules, h⟩ := exists_ready hsetup cs he (status_of_defuzzify_ok hok)
  refine ⟨rules, h, fun o out hout => ⟨e.crisp o out, ?_, h.recorded harch hout⟩⟩
  rw [h.getElem?_defuzzify, hout, Option.map_some]

/-- A session with the two rules that takes four samples and has room for six. -/
def twoRuleRecording : List (Command (Extended ℚ)) :=
  [.setupInput 0 0 10.0, .setupInput 1 0 10.0, .setupOutput 0 0 30.0,
    .setInputMembership 0 0 (.curve .triangular) [0, 5.0, 10.0] 1,
    .setInputMembership 1 1 (.curve .linearS) [2.0, 8.0] 0.5,
    .setOutputMembership 0 0 (.curve .triangular) [0, 10.0, 20.0] 1,
    .setEvalPoints 4, .storeRegion 0 ⟨Array.replicate 6 (-1), Array.replicate 6 (-1)⟩,
    .setInput 0 3.0, .setInput 1 7.0, .fuzzify, .inference]

theorem region_holds_samples_twoRules :
    ∃ out out' r r' x y, (rationalTwoRules.run twoRuleRecording).outputs[0]? = some out ∧
      (rationalTwoRules.run twoRuleRecording).defuzzify.1.outputs[0]? = some out' ∧
      (rationalTwoRules.run twoRuleRecording).Recorded 0 out out' x y ∧ out.region = some r ∧
      out'.region = some r' ∧ r'.xs[3]? = some (x 3) ∧ r'.ys[3]? = some (y 3) ∧
      r'.xs[4]? = r.xs[4]? ∧
      out'.value = Scalar.clamp out.lower out.upper (Region.centroid (r'.samples 4)) := by
  have hstatus : (rationalTwoRules.run twoRuleRecording).status = .succeeded := by decide +kernel
  have harch : (rationalTwoRules.run twoRuleRecording).architecture = .mamdani := by
    decide +kernel
  have hmethod : (rationalTwoRules.run twoRuleRecording).config.method = .centroid := by
    decide +kernel
  have hpoints : (rationalTwoRules.run twoRuleRecording).config.evalPoints = 4 := by
    decide +kernel
  have hok : (rationalTwoRules.run twoRuleRecording).defuzzify.2 = .ok () :=
    (run_confirmed (confirmed_of_setup setup_rationalTwoRules) _).defuzzify_ok hstatus
  obtain ⟨out, hout, r, hr, hroom⟩ : ∃ out ∈ (rationalTwoRules.run twoRuleRecording).outputs[0]?,
      ∃ r ∈ out.region, r.capacity = 6 := by
    decide +kernel
  obtain ⟨hrecorded, -⟩ := region_holds_samples setup_rationalTwoRules twoRuleRecording rfl
  obtain ⟨rules, -, houtputs⟩ := hrecorded harch hok
  obtain ⟨out', hout', hresult⟩ := houtputs 0 out hout
  obtain ⟨r', hr', hwritten, hkept, hvalue⟩ := hresult.region r hr
  obtain ⟨hx, hy⟩ := hwritten 3 (by rw [hroom, hpoints]; decide)
  obtain ⟨hxs, -⟩ := hkept 4 (by rw [hroom, hpoints]; decide)
  have hcentroid := hvalue hmethod (by rw [hroom, hpoints]; decide)
  rw [hpoints] at hcentroid
  exact ⟨out, out', r, r', _, _, hout, hout', hresult, hr, hr', hx, hy, hxs, hcentroid⟩

end Engine

end FuzzyInference
