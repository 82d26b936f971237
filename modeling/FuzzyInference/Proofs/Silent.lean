import FuzzyInference.Proofs.Ranges
import FuzzyInference.Proofs.Spelling
import FuzzyInference.Proofs.Undefined

/-!
# Outputs about which no rule says anything

An output is silent when no rule that fires has a consequent about it (`Engine.Silent`). Whatever
happens to the other outputs, its curve is 0 at every sample and its sums are empty, so its
accumulator stays massless through the first sweep (`Output.massless_sweep`) and the second
(`Output.massless_rescan`).

Six methods then give an undefined value and the output is set to the lower end of its range. The
weighted sum has no way to tell an empty sum from one that cancels: it gives 0, which the range
confines. That is the lower end only of a range that does not extend below 0
(`silent_output_settles`).
-/

set_option autoImplicit false

namespace FuzzyInference

variable {α : Type} [Scalar α] [Scalar.Lawful α]

namespace Scalar

omit [Lawful α] in
/-- Above 0 the range begins where 0 is confined to. -/
theorem clamp_zero_of_pos {lo : α} (hi : α) (h : 0 < lo) : clamp lo hi 0 = lo :=
  if_pos (.inr h)

/-- A range that extends below 0 begins below where 0 is confined to. -/
theorem lt_clamp_zero {lo hi : α} (h : lo < hi) (hlo : lo < 0) : lo < clamp lo hi 0 := by
  have hnot : ¬ (IsNaN (0 : α) ∨ 0 < lo) :=
    not_or.2 ⟨within_zero.defined, fun hlt => not_le_of_lt hlo (le_of_lt hlt)⟩
  rw [clamp, if_neg hnot]
  split
  · exact h
  · exact hlo

end Scalar

namespace Output

variable [Scalar.LawfulZero α]

/-- Samples of a curve that is 0 everywhere. -/
theorem massless_sweep (m : Method) (points left k : Nat) {out : Output α}
    (h : out.accumulator.Massless) :
    (out.sweep m (fun _ => 0) points left k).accumulator.Massless := by
  induction left generalizing k out with
  | zero => exact h
  | succ left ih =>
      rw [sweep]
      exact ih (k + 1) (m.massless_accumulate _ h)

omit [Scalar.Lawful α] [Scalar.LawfulZero α] in
theorem massless_rescan (curve : Variable α → α) (points left k : Nat) {out : Output α}
    (h : out.accumulator.Massless) :
    (out.rescan curve points left k).accumulator.Massless := by
  induction left generalizing k out with
  | zero => exact h
  | succ left ih =>
      have hscanned : (out.sampled curve k points).scanned.accumulator.Massless :=
        Accumulator.massless_scanArea _ _ h
      rw [rescan]
      split
      · exact hscanned
      · exact ih (k + 1) hscanned

theorem massless_traced (m : Method) (points : Nat) (out : Output α) :
    (out.traced m (fun _ => 0) points).accumulator.Massless := by
  have hswept : ((out.reset m).sweep m (fun _ => 0) points points 0).accumulator.Massless :=
    massless_sweep m points points 0 (m.massless_init out.toVariable)
  rw [traced]
  split
  · exact massless_rescan _ points points 0 (Accumulator.massless_beginBisection hswept)
  · exact hswept

end Output

namespace Engine

/-- No rule of a strength above 0 has a consequent about output `o`. -/
def Silent (e : Engine α) (rules : List Rule) (o : Nat) : Prop :=
  ∀ (i : Nat) (r : Rule) (s : α), rules[i]? = some r → e.strengths[i]? = some s → 0 < s →
    ∀ a ∈ r.consequents, a.tag ≠ o

omit [Scalar.Lawful α] in
theorem Silent.ofRules_eq_nil {e : Engine α} {rules : List Rule} {o : Nat}
    (h : e.Silent rules o) : Firing.ofRules e.strengths o rules = [] := by
  rw [Firing.ofRules, List.flatMap_eq_nil_iff]
  intro rs hrs
  obtain ⟨i, hi⟩ := List.mem_iff_getElem?.1 hrs
  obtain ⟨hr, hs⟩ := List.getElem?_zip_eq_some.1 hi
  rw [Firing.ofRule]
  split
  case isFalse => rfl
  case isTrue hfires =>
    rw [List.map_eq_nil_iff, List.filter_eq_nil_iff]
    intro a ha
    simpa using h i rs.1 rs.2 hr hs hfires a ha

omit [Scalar.Lawful α] in
/-- Over a stream that was written for rules, these are the rules that an inference accepts. -/
theorem Ready.eq_of_stream {e : Engine α} {rules rules' : List Rule} (h : e.Ready rules')
    (hstream : e.rules = Rule.stream e.width rules) : rules' = rules := by
  have hspells := h.spells
  rw [hstream] at hspells
  exact (spells_stream_iff.1 hspells).1

omit [Scalar.Lawful α] in
/-- A crisp value is what the method reads off the accumulator, confined to the range. -/
theorem value_crisp (e : Engine α) (o : Nat) (out : Output α) :
    (e.crisp o out).value =
      Scalar.clamp out.lower out.upper (e.config.method.finalize (e.crisp o out).accumulator) := by
  obtain ⟨hlower, hupper⟩ :
      (e.crisp o out).lower = out.lower ∧ (e.crisp o out).upper = out.upper := by
    simpa [Output.range] using range_crisp e o out
  rw [← hlower, ← hupper]
  rfl

variable [Scalar.LawfulZero α]

/-- No consequent that takes effect is about the output: it is accumulated without membership. -/
theorem massless_crisp {e : Engine α}
    (hsupports : e.config.method.supports e.architecture = true) {o : Nat}
    (h : e.firing o = []) (out : Output α) : (e.crisp o out).accumulator.Massless := by
  by_cases harch : e.architecture = .mamdani
  -- a fold over no consequents: the curve is 0 at every sample, the sums are those that begin
  · have hcurve : e.curve o = fun _ => 0 := by
      rw [curve_eq_degree, h]
      rfl
    rw [crisp_mamdani harch, hcurve]
    exact Output.massless_traced e.config.method e.config.evalPoints out
  · rw [crisp_eq_sums harch (Method.weighted_of_supports hsupports harch), h]
    exact ⟨rfl, rfl⟩

/-- Where defuzzification succeeds, an output about which no rule that fires has a consequent is
accumulated without membership, whatever the architecture, the configuration and the other outputs
are. Every method but the weighted sum reads an undefined value off it, so the output reports the
lower end of its range. The weighted sum reports 0 confined to the range, which is the lower end of
a range above 0, but not of one that extends below 0. -/
theorem silent_output_settles {w : Width} {architecture : Architecture} {tables : Tables α}
    {stream : List Int} {n : Nat} {config : Config} {e₀ e : Engine α}
    (hsetup : setup w architecture tables stream n config = .ok e₀) (cs : List (Command α))
    (he : e₀.run cs = e) (hok : e.defuzzify.2 = .ok ()) :
    ∃ rules, e.Ready rules ∧
      ∀ o out, e.outputs[o]? = some out → e.Silent rules o →
        ∃ out', e.defuzzify.1.outputs[o]? = some out' ∧
          out'.range = out.range ∧
          (e.config.method ≠ .weightedSum →
            Scalar.IsNaN (e.config.method.finalize out'.accumulator) ∧ out'.value = out.lower) ∧
          (e.config.method = .weightedSum →
            out'.accumulator = .weighted 0 0 ∧
              out'.value = Scalar.clamp out.lower out.upper 0 ∧
              (0 < out.lower → out'.value = out.lower) ∧
              (out.lower < out.upper → out.lower < 0 → out.lower < out'.value)) := by
  obtain ⟨rules, h⟩ := exists_ready hsetup cs he (status_of_defuzzify_ok hok)
  have hsupports : e.config.method.supports e.architecture = true := by
    rw [← he]
    exact (run_fits hsetup cs).method
  refine ⟨rules, h, fun o out hout hsilent => ⟨e.crisp o out, ?_, range_crisp e o out, ?_, ?_⟩⟩
  · rw [h.getElem?_defuzzify, hout, Option.map_some]
  all_goals
    have hnone : e.firing o = [] := by rw [h.firing_eq, hsilent.ofRules_eq_nil]
    intro hmethod
  · have hnan : Scalar.IsNaN (e.config.method.finalize (e.crisp o out).accumulator) :=
      Method.isNaN_finalize hmethod (massless_crisp hsupports hnone out)
    refine ⟨hnan, ?_⟩
    rw [value_crisp]
    exact if_pos (.inl hnan)
  · have harch : e.architecture ≠ .mamdani := by
      intro hmamdani
      rw [hmethod, hmamdani] at hsupports
      cases hsupports
    have hacc : (e.crisp o out).accumulator = .weighted 0 0 := by
      rw [crisp_eq_sums harch (.inr hmethod), hnone]
      rfl
    have hvalue : (e.crisp o out).value = Scalar.clamp out.lower out.upper 0 := by
      rw [value_crisp, hmethod, hacc]
      rfl
    refine ⟨hacc, hvalue, fun hlower => ?_, fun hrange hlower => ?_⟩
    · rw [hvalue, Scalar.clamp_zero_of_pos out.upper hlower]
    · rw [hvalue]
      exact Scalar.lt_clamp_zero hrange hlower

/-- The second of the two rules says nothing about output 0. -/
theorem silent_twoRules {e : Engine Float} (h : ¬ (0 : Float) < e.strengths[0]?.getD 0) :
    e.Silent twoRules 0 := by
  intro i r s hr hs hfires
  match i with
  | 0 =>
      rw [hs] at h
      exact absurd hfires h
  | 1 =>
      obtain rfl := Option.some.inj hr
      decide
  | i + 2 => cases hr

/-- The session with the two rules, after which the first rule is given the weight 0. -/
def twoRuleMuting : List (Command Float) :=
  twoRuleCommands ++ [.setWeights [0, 1], .inference]

theorem silent_output_settles_twoRules :
    (twoRuleEngine.run twoRuleMuting).defuzzify.2 = .ok () ∧
      (twoRuleEngine.run twoRuleMuting).Silent twoRules 0 ∧
      ∃ out out', (twoRuleEngine.run twoRuleMuting).outputs[0]? = some out ∧
        (twoRuleEngine.run twoRuleMuting).defuzzify.1.outputs[0]? = some out' ∧
        out'.value = out.lower := by
  have hstatus : (twoRuleEngine.run twoRuleMuting).status = .succeeded := by decide +kernel
  have hmethod : (twoRuleEngine.run twoRuleMuting).config.method ≠ .weightedSum := by decide +kernel
  have hlength : 0 < (twoRuleEngine.run twoRuleMuting).outputs.length := by decide +kernel
  have hsilent : (twoRuleEngine.run twoRuleMuting).Silent twoRules 0 :=
    silent_twoRules (by decide +kernel)
  have hok : (twoRuleEngine.run twoRuleMuting).defuzzify.2 = .ok () :=
    (run_confirmed (confirmed_of_setup setup_twoRules) _).defuzzify_ok hstatus
  obtain ⟨rules, hready, hsettles⟩ := silent_output_settles setup_twoRules twoRuleMuting rfl hok
  obtain rfl : rules = twoRules := hready.eq_of_stream (by decide +kernel)
  obtain ⟨out', hout', -, hminimum, -⟩ := hsettles 0 _ (List.getElem?_eq_getElem hlength) hsilent
  exact ⟨hok, hsilent, _, out', List.getElem?_eq_getElem hlength, hout', (hminimum hmethod).2⟩

/-- The engine of the two rules as a Sugeno system. -/
def twoRuleSugeno : Engine Float :=
  { twoRuleEngine with architecture := .sugeno, config := .sugenoWeightedAverage }

theorem setup_twoRuleSugeno :
    setup .byte .sugeno twoRuleTables (Rule.stream .byte twoRules) 2 .sugenoWeightedAverage =
      .ok twoRuleSugeno := rfl

/-- A session with it in which the first rule has the weight 0 and the method is the weighted
sum. -/
def twoRuleSums : List (Command Float) :=
  [.setupOutput 0 (-5) 5, .setMethod .weightedSum, .setWeights [0, 1], .fuzzify, .inference]

/-- A silent output of a weighted sum does not report the lower end of its range. -/
theorem silent_sum_above_minimum :
    ∃ (e : Engine Float) (rules : List Rule) (out out' : Output Float),
      (∃ e₀ cs, setup .byte .sugeno twoRuleTables (Rule.stream .byte twoRules) 2
        .sugenoWeightedAverage = .ok e₀ ∧ e₀.run cs = e) ∧
      e.Ready rules ∧ e.Silent rules 0 ∧ e.defuzzify.2 = .ok () ∧ e.outputs[0]? = some out ∧
      e.defuzzify.1.outputs[0]? = some out' ∧ out.lower < out'.value := by
  have hstatus : (twoRuleSugeno.run twoRuleSums).status = .succeeded := by decide +kernel
  obtain ⟨out, hout, out', hout', habove⟩ :
      ∃ out ∈ (twoRuleSugeno.run twoRuleSums).outputs[0]?,
        ∃ out' ∈ (twoRuleSugeno.run twoRuleSums).defuzzify.1.outputs[0]?,
          out.lower < out'.value := by
    decide +kernel
  obtain ⟨rules, hready⟩ := exists_ready setup_twoRuleSugeno twoRuleSums rfl hstatus
  obtain rfl : rules = twoRules := hready.eq_of_stream (by decide +kernel)
  exact ⟨_, twoRules, out, out', ⟨_, twoRuleSums, setup_twoRuleSugeno, rfl⟩, hready,
    silent_twoRules (by decide +kernel),
    (run_confirmed (confirmed_of_setup setup_twoRuleSugeno) _).defuzzify_ok hstatus, hout, hout',
    habove⟩

end Engine

end FuzzyInference
