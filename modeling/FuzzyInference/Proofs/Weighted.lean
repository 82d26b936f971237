import FuzzyInference.Proofs.Configuration
import FuzzyInference.Proofs.Sampling

/-!
# What a weighted pass computes

In a Sugeno or Tsukamoto system one walk over the consequents adds to two sums of each output:
the strengths of the rules that fire, and the strengths times the crisp values that the consequents
assert. `Firing.crisp` is such a value, `Firing.sumW` and `Firing.sumWZ` are the sums. Of a
consequent they read no more than its `Firing.law`, so neither its negation nor its height matters.

`defuzzify_eq` gives the whole of defuzzification, of every architecture, as a function of one
output at a time (`Engine.crisp`).
-/

set_option autoImplicit false

namespace FuzzyInference

variable {α : Type} [Scalar α]

/-! ## Sums over consequents -/

namespace Firing

/-- The crisp value that a consequent asserts about an output over the range of `v`: a Tsukamoto
consequent is read at the strength of its rule and confined to the range, any other is a function of
the inputs. -/
def crisp (architecture : Architecture) (inputs : List (Variable α))
    (memberships : List (Membership α)) (v : Variable α) (f : Firing α) : α :=
  let m := f.reference.membership memberships
  match architecture with
  | .tsukamoto => Scalar.clamp v.lower v.upper (m.evaluate [{ v with value := f.strength }])
  | .mamdani | .sugeno => m.evaluate inputs

/-- The sum of the strengths, from left to right. -/
def sumW (fs : List (Firing α)) : α := fs.foldl (fun sum f => sum + f.strength) 0

/-- The sum of the strengths, each times its crisp value, from left to right. -/
def sumWZ (z : Firing α → α) (fs : List (Firing α)) : α :=
  fs.foldl (fun sum f => sum + f.strength * z f) 0

/-- What a weighted pass reads of a consequent: the strength of its rule, and the shape and the
coefficients that it names. -/
def law (memberships : List (Membership α)) (f : Firing α) : α × Option (Shape α) × List α :=
  (f.strength, (f.reference.membership memberships).shape,
    (f.reference.membership memberships).coefficients)

variable {architecture : Architecture} {inputs inputs' : List (Variable α)}
  {memberships memberships' : List (Membership α)}

/-- A crisp value depends on the range of the output, the law of the consequent, and on the inputs
unless the system is a Tsukamoto system. -/
theorem crisp_eq_of_law {v v' : Variable α} {f f' : Firing α}
    (hlaw : f'.law memberships' = f.law memberships)
    (hinputs : architecture ≠ .tsukamoto → inputs' = inputs)
    (hlower : v'.lower = v.lower) (hupper : v'.upper = v.upper) :
    f'.crisp architecture inputs' memberships' v' = f.crisp architecture inputs memberships v := by
  obtain ⟨hstrength, hshape, hcoefficients⟩ :
      f'.strength = f.strength ∧
        (f'.reference.membership memberships').shape =
          (f.reference.membership memberships).shape ∧
        (f'.reference.membership memberships').coefficients =
          (f.reference.membership memberships).coefficients := by
    simpa [law] using hlaw
  have hevaluate : ∀ vars, (f'.reference.membership memberships').evaluate vars =
      (f.reference.membership memberships).evaluate vars := by
    intro vars
    rw [Membership.evaluate, Membership.evaluate, hshape, hcoefficients]
  cases architecture with
  | mamdani => simp [crisp, hevaluate, hinputs]
  | sugeno => simp [crisp, hevaluate, hinputs]
  | tsukamoto => simp [crisp, hevaluate, hstrength, hlower, hupper]

/-- The sums depend on no more than the single values do. -/
theorem sums_eq_of_law (v v' : Variable α) {fs fs' : List (Firing α)}
    (hlaws : fs'.map (law memberships') = fs.map (law memberships))
    (hinputs : architecture ≠ .tsukamoto → inputs' = inputs)
    (hlower : v'.lower = v.lower) (hupper : v'.upper = v.upper) :
    sumWZ (crisp architecture inputs' memberships' v') fs' =
        sumWZ (crisp architecture inputs memberships v) fs ∧
      sumW fs' = sumW fs := by
  suffices hfold : ∀ a b : α,
      fs'.foldl (fun sum f => sum + f.strength * f.crisp architecture inputs' memberships' v') a =
          fs.foldl (fun sum f => sum + f.strength * f.crisp architecture inputs memberships v) a ∧
        fs'.foldl (fun sum f => sum + f.strength) b = fs.foldl (fun sum f => sum + f.strength) b
    from hfold 0 0
  induction fs generalizing fs' with
  | nil =>
      obtain rfl := List.map_eq_nil_iff.1 hlaws
      exact fun _ _ => ⟨rfl, rfl⟩
  | cons f fs ih =>
      cases fs' with
      | nil => cases hlaws
      | cons f' fs' =>
          obtain ⟨hlaw, hlaws⟩ := List.cons.inj hlaws
          intro a b
          rw [List.foldl_cons, List.foldl_cons, List.foldl_cons, List.foldl_cons,
            crisp_eq_of_law hlaw hinputs hlower hupper,
            show f'.strength = f.strength from congrArg Prod.fst hlaw]
          exact ih hlaws _ _

end Firing

/-! ## Methods of weighted systems -/

/-- A weighted system has one of two methods. -/
theorem Method.weighted_of_supports {m : Method} {architecture : Architecture}
    (h : m.supports architecture = true) (harch : architecture ≠ .mamdani) :
    m = .weightedAverage ∨ m = .weightedSum := by
  cases architecture with
  | mamdani => exact absurd rfl harch
  | sugeno => simpa [supports] using h
  | tsukamoto => exact Or.inl (by simpa [supports] using h)

/-- The methods that read a sampled curve are those of Mamdani systems. -/
theorem Method.requiresSampling_iff {m : Method} {architecture : Architecture}
    (h : m.supports architecture = true) :
    m.requiresSampling = true ↔ architecture = .mamdani := by
  by_cases harch : architecture = .mamdani
  · subst harch
    exact ⟨fun _ => rfl, fun _ => h⟩
  · rcases weighted_of_supports h harch with rfl | rfl
    · exact ⟨nofun, fun hmamdani => absurd hmamdani harch⟩
    · exact ⟨nofun, fun hmamdani => absurd hmamdani harch⟩

theorem Method.init_weighted {m : Method} (h : m = .weightedAverage ∨ m = .weightedSum)
    (v : Variable α) : m.init v = .weighted 0 0 := by
  rcases h with rfl | rfl <;> rfl

/-! ## Defuzzification, output by output -/

/-- The output after the sweeps of a method that reads its curve. -/
def Output.traced (m : Method) (curve : Variable α → α) (points : Nat)
    (out : Output α) : Output α :=
  let swept := (out.reset m).sweep m curve points points 0
  if m = .bisector then swept.beginBisection.rescan curve points points 0 else swept

namespace Engine

/-- In a weighted system consequents change the two sums of an output only. -/
theorem contributeAll_weighted {e : Engine α} (harch : e.architecture ≠ .mamdani)
    (fs : List (Firing α)) {out : Output α} {a b : α} (hacc : out.accumulator = .weighted a b) :
    e.contributeAll fs out =
      { out with
        accumulator := .weighted
          (fs.foldl (fun sum f => sum + f.strength *
            f.crisp e.architecture e.inputs e.outputMemberships out.toVariable) a)
          (fs.foldl (fun sum f => sum + f.strength) b) } := by
  induction fs generalizing out a b with
  | nil =>
      rw [List.foldl_nil, List.foldl_nil, ← hacc]
      rfl
  | cons f fs ih =>
      have hstep : e.contribute (f.reference.membership e.outputMemberships) f.reference
          f.strength out =
          { out with
            accumulator := .weighted
              (a + f.strength *
                f.crisp e.architecture e.inputs e.outputMemberships out.toVariable)
              (b + f.strength) } := by
        unfold contribute Firing.crisp
        cases ha : e.architecture with
        | mamdani => exact absurd ha harch
        | sugeno => simp [hacc, Accumulator.addWeighted]
        | tsukamoto => simp [hacc, Accumulator.addWeighted]
      have hcons : e.contributeAll (f :: fs) out =
          e.contributeAll fs (e.contribute (f.reference.membership e.outputMemberships)
            f.reference f.strength out) := rfl
      rw [hcons, hstep, ih rfl]
      rfl

/-- Output `o` when its accumulator is complete, from the consequents whose strength passes a
test. -/
def accumulatedIf (test : α → Prop) [DecidablePred test] (e : Engine α) (o : Nat)
    (out : Output α) : Output α :=
  match e.architecture with
  | .mamdani => out.traced e.config.method (e.curveIf test o) e.config.evalPoints
  | .sugeno | .tsukamoto => e.contributeAll (e.firingIf test o) (out.reset e.config.method)

/-- Output `o` after defuzzification, from the consequents whose strength passes a test. -/
def crispIf (test : α → Prop) [DecidablePred test] (e : Engine α) (o : Nat) (out : Output α) :
    Output α :=
  (e.accumulatedIf test o out).settle e.config.method

/-- Output `o` after defuzzification. -/
def crisp (e : Engine α) (o : Nat) (out : Output α) : Output α := e.crispIf (fun s => 0 < s) o out

section Test

variable (test : α → Prop) [DecidablePred test]

theorem crispIf_mamdani {e : Engine α} (harch : e.architecture = .mamdani) (o : Nat)
    (out : Output α) :
    e.crispIf test o out =
      (out.traced e.config.method (e.curveIf test o) e.config.evalPoints).settle
        e.config.method := by
  rw [crispIf, accumulatedIf, harch]

theorem crispIf_weighted {e : Engine α} (harch : e.architecture ≠ .mamdani) (o : Nat)
    (out : Output α) :
    e.crispIf test o out =
      (e.contributeAll (e.firingIf test o) (out.reset e.config.method)).settle
        e.config.method := by
  unfold crispIf accumulatedIf
  cases ha : e.architecture with
  | mamdani => exact absurd ha harch
  | sugeno => rfl
  | tsukamoto => rfl

/-- Defuzzification does to each output what it does to that output alone, with any test. -/
theorem defuzzifyIf_eq {e : Engine α} (hstatus : e.status = .succeeded)
    (hok : e.consequences.outcome = .ok ()) :
    defuzzifyIf test e = (e.mapOutputsIdx (e.crispIf test), .ok ()) := by
  rw [defuzzifyIf, if_pos hstatus]
  by_cases harch : e.architecture = .mamdani
  · rw [accumulateIf_mamdani test (show (e.mapOutputs _).architecture = .mamdani from harch),
      mapOutputs_eq, show (e.mapOutputsIdx _).config = e.config from rfl,
      sampleIf_eq test harch hok]
    simp only [Outcome.andThen]
    by_cases hmethod : e.config.method = .bisector
    -- the second sweep is over all outputs that there are
    · rw [if_pos (show (e.mapOutputsIdx _).config.method = .bisector from hmethod),
        bisectIf_eq test harch hok _ _ (fun o ho => ?_) List.nodup_range]
      · dsimp only
        rw [mapOutputs_eq, mapOutputsIdx_mapOutputsIdx]
        refine Prod.ext (mapOutputsIdx_congr fun o out hout => ?_) rfl
        have ho : o < e.outputs.length := (List.getElem?_eq_some_iff.1 hout).1
        rw [crispIf_mamdani test harch, Output.traced, if_pos hmethod, if_pos]
        · rfl
        · simpa [mapOutputsIdx] using ho
      · simpa [mapOutputsIdx] using ho
    · rw [if_neg (show ¬ (e.mapOutputsIdx _).config.method = .bisector from hmethod)]
      dsimp only
      rw [mapOutputs_eq, mapOutputsIdx_mapOutputsIdx]
      refine Prod.ext (mapOutputsIdx_congr fun o out _ => ?_) rfl
      rw [crispIf_mamdani test harch, Output.traced, if_neg hmethod]
      rfl
  · rw [accumulateIf_weighted test (show (e.mapOutputs _).architecture ≠ .mamdani from harch),
      mapOutputs_eq, aggregateIf_mapOutputsIdx test none hok, Outcome.andThen, mapOutputs_eq,
      mapOutputsIdx_mapOutputsIdx]
    refine Prod.ext (mapOutputsIdx_congr fun o out _ => ?_) rfl
    rw [crispIf_weighted test harch]
    rfl

end Test

theorem crisp_mamdani {e : Engine α} (harch : e.architecture = .mamdani) (o : Nat)
    (out : Output α) :
    e.crisp o out =
      (out.traced e.config.method (e.curve o) e.config.evalPoints).settle e.config.method :=
  crispIf_mamdani (fun s => 0 < s) harch o out

theorem crisp_weighted {e : Engine α} (harch : e.architecture ≠ .mamdani) (o : Nat)
    (out : Output α) :
    e.crisp o out =
      (e.contributeAll (e.firing o) (out.reset e.config.method)).settle e.config.method :=
  crispIf_weighted (fun s => 0 < s) harch o out

/-- Defuzzification does to each output what it does to that output alone. -/
theorem defuzzify_eq {e : Engine α} (hstatus : e.status = .succeeded)
    (hok : e.consequences.outcome = .ok ()) :
    e.defuzzify = (e.mapOutputsIdx e.crisp, .ok ()) := by
  rw [← defuzzifyIf_pos]
  exact defuzzifyIf_eq (fun s => 0 < s) hstatus hok

/-- Where defuzzification succeeds, an inference stands. -/
theorem status_of_defuzzify_ok {e : Engine α} (hok : e.defuzzify.2 = .ok ()) :
    e.status = .succeeded := by
  by_cases hstatus : e.status = .succeeded
  · exact hstatus
  · rw [defuzzify_refused hstatus] at hok
    cases hok

theorem Ready.fits {e : Engine α} {rules : List Rule} (h : e.Ready rules) :
    e.config.Fits e.architecture := by
  obtain ⟨w, architecture, tables, stream, n, config, e₀, cs, hsetup, rfl⟩ := h.reached
  exact run_fits hsetup cs

theorem Ready.getElem?_defuzzify {e : Engine α} {rules : List Rule} (h : e.Ready rules) (o : Nat) :
    e.defuzzify.1.outputs[o]? = e.outputs[o]?.map (e.crisp o) := by
  rw [defuzzify_eq h.status h.outcome_eq]
  exact getElem?_mapOutputsIdx e.crisp e o

/-- What defuzzification leaves in an output of a weighted system. -/
theorem crisp_eq_sums {e : Engine α} (harch : e.architecture ≠ .mamdani)
    (hmethod : e.config.method = .weightedAverage ∨ e.config.method = .weightedSum) (o : Nat)
    (out : Output α) :
    e.crisp o out = Output.settle e.config.method
      { out with
        accumulator := .weighted
          (Firing.sumWZ
            (Firing.crisp e.architecture e.inputs e.outputMemberships out.toVariable)
            (e.firing o))
          (Firing.sumW (e.firing o)) } := by
  have hreset : (out.reset e.config.method).accumulator = .weighted 0 0 :=
    Method.init_weighted hmethod out.toVariable
  rw [crisp_weighted harch, contributeAll_weighted harch _ hreset]
  rfl

/-- In a Sugeno or Tsukamoto system in which defuzzification succeeds, the accumulator of an output
holds the sums over the consequents about this output of the rules that fire, and the value is read
off them and confined to the range. Two systems in which these consequents have the same laws give
the output the same sums and the same value, whatever is negated, scaled or asserted about
others. -/
theorem weighted_sums_consequents {w : Width} {architecture : Architecture} {tables : Tables α}
    {stream : List Int} {n : Nat} {config : Config} {e₀ e : Engine α}
    (hsetup : setup w architecture tables stream n config = .ok e₀) (cs : List (Command α))
    (he : e₀.run cs = e) (harch : e.architecture ≠ .mamdani) (hok : e.defuzzify.2 = .ok ()) :
    ∃ rules, e.Ready rules ∧
      (∀ r ∈ rules, ∀ a ∈ r.consequents, a.tag < e.outputs.length ∧
        ∃ m, e.outputMemberships[a.reference.index]? = some m) ∧
      (e.config.method = .weightedAverage ∨ e.config.method = .weightedSum) ∧
      (∀ o out, e.outputs[o]? = some out →
        ∃ out' sumWZ sumW z, e.defuzzify.1.outputs[o]? = some out' ∧
          out'.accumulator = .weighted sumWZ sumW ∧
          sumWZ = Firing.sumWZ
            (Firing.crisp e.architecture e.inputs e.outputMemberships out.toVariable)
            (Firing.ofRules e.strengths o rules) ∧
          sumW = Firing.sumW (Firing.ofRules e.strengths o rules) ∧
          (e.config.method = .weightedAverage → z = sumWZ / sumW) ∧
          (e.config.method = .weightedSum → z = sumWZ) ∧
          out'.value = Scalar.clamp out.lower out.upper z ∧
          (Scalar.IsNaN z → out'.value = out.lower)) ∧
      ∀ (e' : Engine α) (rules' : List Rule), e'.Ready rules' →
        e'.architecture = e.architecture → e'.config.method = e.config.method →
        (e.architecture = .sugeno → e'.inputs = e.inputs) →
        ∀ o out out', e.outputs[o]? = some out → e'.outputs[o]? = some out' →
          out'.range = out.range →
          (Firing.ofRules e'.strengths o rules').map (Firing.law e'.outputMemberships) =
            (Firing.ofRules e.strengths o rules).map (Firing.law e.outputMemberships) →
          ∃ a a', e.defuzzify.1.outputs[o]? = some a ∧ e'.defuzzify.1.outputs[o]? = some a' ∧
            a'.accumulator = a.accumulator ∧ a'.value = a.value := by
  obtain ⟨rules, h⟩ := exists_ready hsetup cs he (status_of_defuzzify_ok hok)
  have hmethod : e.config.method = .weightedAverage ∨ e.config.method = .weightedSum := by
    have hfits := run_fits hsetup cs
    rw [he] at hfits
    exact Method.weighted_of_supports hfits.method harch
  refine ⟨rules, h, fun r hr a ha => h.consequent_within hr ha, hmethod, ?_, ?_⟩
  · intro o out hout
    have hcrisp := crisp_eq_sums harch hmethod o out
    rw [h.firing_eq] at hcrisp
    refine ⟨e.crisp o out, _, _, e.config.method.finalize (e.crisp o out).accumulator, ?_, ?_, rfl,
      rfl, ?_, ?_, ?_, ?_⟩
    · rw [h.getElem?_defuzzify, hout, Option.map_some]
    · rw [hcrisp]
      rfl
    · intro haverage
      rw [hcrisp, haverage]
      rfl
    · intro hsum
      rw [hcrisp, hsum]
      rfl
    · rw [hcrisp]
      rfl
    · intro hnan
      rw [hcrisp] at hnan ⊢
      exact if_pos (Or.inl hnan)
  · intro e' rules' h' harch' hmethod' hinputs o out out' hout hout' hrange hlaws
    obtain ⟨hlower, hupper⟩ : out'.lower = out.lower ∧ out'.upper = out.upper := by
      simpa [Output.range] using hrange
    have hread : e.architecture ≠ .tsukamoto → e'.inputs = e.inputs := by
      intro hnot
      apply hinputs
      cases ha : e.architecture with
      | mamdani => exact absurd ha harch
      | sugeno => rfl
      | tsukamoto => exact absurd ha hnot
    obtain ⟨hsumWZ, hsumW⟩ :=
      Firing.sums_eq_of_law out.toVariable out'.toVariable hlaws hread hlower hupper
    refine ⟨e.crisp o out, e'.crisp o out', ?_, ?_, ?_, ?_⟩
    · rw [h.getElem?_defuzzify, hout, Option.map_some]
    · rw [h'.getElem?_defuzzify, hout', Option.map_some]
    all_goals
      rw [crisp_eq_sums harch hmethod, crisp_eq_sums (harch' ▸ harch) (hmethod' ▸ hmethod),
        h.firing_eq, h'.firing_eq, harch', hmethod', hsumWZ, hsumW]
    · rfl
    · simp only [Output.settle, hlower, hupper]

/-- The engine of the two rules as a Tsukamoto system. -/
def twoRuleTsukamoto : Engine Float :=
  { twoRuleEngine with architecture := .tsukamoto, config := .sugenoWeightedAverage }

theorem setup_twoRuleTsukamoto :
    setup .byte .tsukamoto twoRuleTables (Rule.stream .byte twoRules) 2 .sugenoWeightedAverage =
      .ok twoRuleTsukamoto := rfl

/-- A session with it: ranges, curves, inverses, and one inference. -/
def twoRuleInverses : List (Command Float) :=
  [.setupInput 0 0 10, .setupInput 1 0 10, .setupOutput 0 0 30, .setupOutput 1 (-1) 1,
    .setInputMembership 0 0 (.curve .triangular) [0, 5, 10] 1,
    .setInputMembership 1 1 (.curve .linearS) [2, 8] 0.5,
    .setOutputMembership 0 0 (.inverse .linearS) [0, 20] 1,
    .setOutputMembership 1 1 (.inverse .linearZ) [-1, 1] 0.75,
    .setInput 0 3, .setInput 1 7, .fuzzify, .inference]

theorem weighted_sums_consequents_twoRules :
    (twoRuleTsukamoto.run twoRuleInverses).architecture ≠ .mamdani ∧
      (twoRuleTsukamoto.run twoRuleInverses).defuzzify.2 = .ok () ∧
      ∃ rules out' z, (twoRuleTsukamoto.run twoRuleInverses).Ready rules ∧
        (twoRuleTsukamoto.run twoRuleInverses).defuzzify.1.outputs[1]? = some out' ∧
        out'.accumulator = .weighted z (Firing.sumW
          (Firing.ofRules (twoRuleTsukamoto.run twoRuleInverses).strengths 1 rules)) := by
  have harch : (twoRuleTsukamoto.run twoRuleInverses).architecture ≠ .mamdani := by
    decide +kernel
  have hstatus : (twoRuleTsukamoto.run twoRuleInverses).status = .succeeded := by
    decide +kernel
  have hlength : 1 < (twoRuleTsukamoto.run twoRuleInverses).outputs.length := by decide +kernel
  have hok : (twoRuleTsukamoto.run twoRuleInverses).defuzzify.2 = .ok () :=
    (run_confirmed (confirmed_of_setup setup_twoRuleTsukamoto) _).defuzzify_ok hstatus
  obtain ⟨rules, hready, -, -, hsums, -⟩ :=
    weighted_sums_consequents setup_twoRuleTsukamoto twoRuleInverses rfl harch hok
  obtain ⟨out', z, _, -, hout', hacc, -, rfl, -⟩ := hsums 1 _ (List.getElem?_eq_getElem hlength)
  exact ⟨harch, hok, rules, out', z, hready, hout', hacc⟩

end Engine

end FuzzyInference
