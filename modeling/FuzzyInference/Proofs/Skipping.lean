import FuzzyInference.Proofs.Alike
import FuzzyInference.Proofs.Silent

/-!
# Skipping rules without strength

Aggregation skips the rules whose strength is not above 0. The engine that applies every consequent
(`Engine.defuzzifyIf` with a test that everything passes) computes the same. In a Mamdani system
this takes an implication by the minimum or the product, which make a zero of any degree that is
asserted without strength; the other two would let it pass (`Operator.same_implies`). In the other
systems the skipped crisp values have to be finite, since 0 times an infinite number is undefined.

Strengths are degrees after an inference that stands, so those that are skipped are zeros
(`Engine.Ready.within_firingIf`). From there on both engines are compared output by output: their
curves are the same (`Engine.Ready.same_curve`), and their sums are equal
(`Engine.Ready.crispIf_weighted_eq`).
-/

set_option autoImplicit false

namespace FuzzyInference

open Scalar

variable {α : Type} [Scalar α]

namespace Firing

/-- What is asserted with a strength above 0 is what is asserted at all, less what is skipped. -/
theorem filter_ofConsequentsIf (strengths : List α) (o : Nat) (cs : List Consequent) :
    (ofConsequentsIf (fun _ => True) strengths o cs).filter (fun f => 0 < f.strength) =
      ofConsequents strengths o cs := by
  rw [ofConsequents, ofConsequentsIf, ofConsequentsIf, List.filter_filterMap]
  congr 1
  funext c
  by_cases htag : c.assertion.tag = o
  · by_cases hfires : 0 < strengths[c.rule]?.getD 0
    · simp [ofAssertionIf?, htag, hfires]
    · simp [ofAssertionIf?, htag, hfires]
  · simp [ofAssertionIf?, htag]

theorem exists_of_mem_ofConsequentsIf {test : α → Prop} [DecidablePred test] {strengths : List α}
    {o : Nat} {cs : List Consequent} {f : Firing α} (hf : f ∈ ofConsequentsIf test strengths o cs) :
    ∃ c ∈ cs, f.strength = strengths[c.rule]?.getD 0 := by
  obtain ⟨c, hc, hsome⟩ := List.mem_filterMap.1 hf
  rw [ofAssertionIf?] at hsome
  split at hsome
  case isTrue =>
    cases hsome
    exact ⟨c, hc, rfl⟩
  case isFalse => cases hsome

end Firing

namespace Engine

/-- Equal up to the signs of zeros among the degrees of outputs. -/
structure Alike (e e' : Engine α) : Prop where
  frame : OutputsOnly e e'
  outputs : List.Forall₂ Output.Alike e.outputs e'.outputs

variable {e : Engine α}

theorem Alike.refl (e : Engine α) : e.Alike e :=
  ⟨.refl e, List.forall₂_same.2 fun out _ => .refl out⟩

theorem alike_mapOutputsIdx {f g : Nat → Output α → Output α}
    (h : ∀ o out, e.outputs[o]? = some out → (f o out).Alike (g o out)) :
    (e.mapOutputsIdx f).Alike (e.mapOutputsIdx g) := by
  refine ⟨⟨rfl, by simp [mapOutputsIdx]⟩, ?_⟩
  rw [List.forall₂_iff_get]
  refine ⟨by simp [mapOutputsIdx], fun o ho ho' => ?_⟩
  have hlt : o < e.outputs.length := by simpa [mapOutputsIdx] using ho
  simpa [mapOutputsIdx] using h o _ (List.getElem?_eq_getElem hlt)

omit [Scalar α] in
theorem entry_map {β γ : Type} (f : β → γ) (side : Side) (tag : Int) (table : List β) :
    (entry side tag (table.map f) : Except (EngineError α) γ) = (entry side tag table).map f := by
  rw [entry, entry, List.length_map]
  by_cases htag : 0 ≤ tag
  · rw [if_pos htag, if_pos htag, List.getElem?_map]
    cases table[tag.toNat]? with
    | none => rfl
    | some x => rfl
  · rw [if_neg htag, if_neg htag]
    rfl

/-- Engines that are alike report the same crisp values. -/
theorem Alike.output_eq {e e' : Engine α} (h : e.Alike e') (tag : Int) :
    e.output tag = e'.output tag := by
  have hvalues : List.Forall₂ (fun out out' : Output α => out.value = out'.value) e.outputs
      e'.outputs :=
    h.outputs.imp fun _ _ hout => congrArg Variable.value hout.variable_eq
  have hmap : e.outputs.map (fun out => out.value) = e'.outputs.map fun out => out.value := by
    rw [← List.forall₂_eq_eq_eq]
    exact List.forall₂_map_left_iff.2 (List.forall₂_map_right_iff.2 hvalues)
  rw [output, output, outputState, outputState, ← entry_map, ← entry_map, hmap]

/-- Over numbers with one zero, engines that are alike are equal. -/
theorem Alike.eq {e e' : Engine α} (hzero : ∀ a : α, IsZero a → a = 0) (h : e.Alike e') :
    e = e' := by
  have houtputs : e.outputs = e'.outputs :=
    List.forall₂_eq_eq_eq ▸ h.outputs.imp fun _ _ hout => hout.eq hzero
  rw [h.frame.eq, ← houtputs]

theorem firing_eq_filter (o : Nat) :
    e.firing o = (e.firingIf (fun _ => True) o).filter fun f => 0 < f.strength :=
  (Firing.filter_ofConsequentsIf e.strengths o e.consequences.consequents).symm

namespace Ready

variable {rules : List Rule} [Lawful α] (h : e.Ready rules)

include h

/-- Consequents have degrees as strengths, whether their rules fire or not. -/
theorem within_firingIf (test : α → Prop) [DecidablePred test] (o : Nat) :
    ∀ f ∈ e.firingIf test o, Within 0 1 f.strength := by
  intro f hf
  obtain ⟨c, hc, hstrength⟩ := Firing.exists_of_mem_ofConsequentsIf hf
  have hrule : c.rule < e.ruleCount := (e.consequences_applies c hc).1
  obtain ⟨s, hs, hwithin⟩ := h.graded h.status c.rule hrule
  rw [hstrength, hs]
  exact hwithin

variable [NeutralZero α]

/-- The curve of all consequents is that of the consequents with strength. -/
theorem same_curve (himplication : e.config.implication = .min ∨ e.config.implication = .product)
    (o : Nat) (v : Variable α) : Same (e.curveIf (fun _ => True) o v) (e.curve o v) := by
  rw [curve_eq_degree, firing_eq_filter]
  exact Firing.same_degree himplication (h.fits.roles .aggregation) (h.within_firingIf _ o) _ v

/-- Terms without strength do not show in the sums of a weighted system, if their values are
finite. -/
theorem crispIf_weighted_eq (harch : e.architecture ≠ .mamdani) {o : Nat} {out : Output α}
    (hfinite : ∀ f ∈ e.firingIf (fun _ => True) o, ¬ 0 < f.strength →
      IsFinite (f.crisp e.architecture e.inputs e.outputMemberships out.toVariable)) :
    e.crispIf (fun _ => True) o out = e.crisp o out := by
  have hreset : (out.reset e.config.method).accumulator = .weighted 0 0 :=
    Method.init_weighted (Method.weighted_of_supports h.fits.method harch) out.toVariable
  have hstrength : ∀ f ∈ e.firingIf (fun _ => True) o, ¬ 0 < f.strength → IsZero f.strength :=
    fun f hf hidle => isZero_of_not_pos (h.within_firingIf _ o f hf) hidle
  have hterm : ∀ f ∈ e.firingIf (fun _ => True) o, ¬ 0 < f.strength →
      IsZero (f.strength *
        f.crisp e.architecture e.inputs e.outputMemberships out.toVariable) := by
    intro f hf hidle
    have hzero := hstrength f hf hidle
    exact (NeutralZero.isZero_mul _ hzero).resolve_right
      (NeutralZero.defined_mul hzero (hfinite f hf hidle))
  have hvariable : (out.reset e.config.method).toVariable = out.toVariable := rfl
  -- both sums begin at 0, which is settled
  rw [crispIf_weighted _ harch, crisp_weighted harch, contributeAll_weighted harch _ hreset,
    contributeAll_weighted harch _ hreset, hvariable, firing_eq_filter,
    Firing.foldl_add_filter hterm NeutralZero.settled_zero,
    Firing.foldl_add_filter hstrength NeutralZero.settled_zero]

/-- Where a sample of a Mamdani system is taken from all consequents, it is the same sample. -/
theorem alike_atSample (harch : e.architecture = .mamdani)
    (himplication : e.config.implication = .min ∨ e.config.implication = .product) (k : Nat) :
    ∃ s s', e.atSampleIf (fun _ => True) k = (s, .ok ()) ∧ e.atSample k = (s', .ok ()) ∧
      s.Alike s' := by
  refine ⟨_, _, h.atSampleIf_eq harch _ k, h.atSample_eq harch k, ?_⟩
  apply alike_mapOutputsIdx
  intro o out _
  have hcurve := h.same_curve himplication o
  obtain ⟨hswept, -⟩ := (Output.Alike.refl (out.reset e.config.method)).sweep e.config.method
    hcurve e.config.evalPoints k 0 (e.config.method.settled_init out.toVariable)
  exact hswept.sampled hcurve k e.config.evalPoints

/-- An output of a Mamdani system settles alike. -/
theorem alike_crispIf (harch : e.architecture = .mamdani)
    (himplication : e.config.implication = .min ∨ e.config.implication = .product) (o : Nat)
    (out : Output α) : (e.crispIf (fun _ => True) o out).Alike (e.crisp o out) := by
  have htraced := Output.alike_traced e.config.method (h.same_curve himplication o)
    e.config.evalPoints out
  rw [crispIf_mamdani _ harch, crisp_mamdani harch]
  exact htraced.settle e.config.method

end Ready

variable [Lawful α] [NeutralZero α]

/-- Skipping the rules without strength changes no result. Over whatever tables, rules and history:
in a Mamdani system with the minimum or the product as implication, and in any other system in which
the crisp values that are skipped are finite, defuzzification from all consequents ends like
defuzzification, with the same crisp values and with outputs that are equal up to the signs of
degrees that are 0. In a Mamdani system so are the samples. Nothing is left of the difference in a
weighted system, or over numbers with one zero. Degrees that consequents assert can be undefined,
infinite, or outside of the unit interval. -/
theorem skipping_is_neutral {w : Width} {architecture : Architecture} {tables : Tables α}
    {stream : List Int} {n : Nat} {config : Config} {e₀ : Engine α}
    (hsetup : setup w architecture tables stream n config = .ok e₀) (cs : List (Command α))
    (he : e₀.run cs = e)
    (hmamdani : e.architecture = .mamdani →
      e.config.implication = .min ∨ e.config.implication = .product)
    (hweighted : e.architecture ≠ .mamdani → ∀ o out, e.outputs[o]? = some out →
      ∀ f ∈ e.firingIf (fun _ => True) o, ¬ 0 < f.strength →
        IsFinite (f.crisp e.architecture e.inputs e.outputMemberships out.toVariable)) :
    (defuzzifyIf (fun _ => True) e).2 = e.defuzzify.2 ∧
      (defuzzifyIf (fun _ => True) e).1.Alike e.defuzzify.1 ∧
      (∀ tag, (defuzzifyIf (fun _ => True) e).1.output tag = e.defuzzify.1.output tag) ∧
      (e.architecture = .mamdani → e.status = .succeeded → ∀ k, ∃ s s',
        e.atSampleIf (fun _ => True) k = (s, .ok ()) ∧ e.atSample k = (s', .ok ()) ∧ s.Alike s') ∧
      (e.architecture ≠ .mamdani ∨ (∀ a : α, IsZero a → a = 0) →
        defuzzifyIf (fun _ => True) e = e.defuzzify) := by
  by_cases hstatus : e.status = .succeeded
  case neg =>
    -- without an inference that stands both refuse at once
    have hsame : defuzzifyIf (fun _ => True) e = e.defuzzify := by
      rw [defuzzifyIf, if_neg hstatus, defuzzify_refused hstatus]
    rw [hsame]
    exact ⟨rfl, .refl _, fun _ => rfl, fun _ hsucceeded => absurd hsucceeded hstatus,
      fun _ => rfl⟩
  obtain ⟨rules, h⟩ := exists_ready hsetup cs he hstatus
  have hall := defuzzifyIf_eq (fun _ => True) hstatus h.outcome_eq
  have hengine := defuzzify_eq hstatus h.outcome_eq
  have halike : ∀ o out, e.outputs[o]? = some out →
      (e.crispIf (fun _ => True) o out).Alike (e.crisp o out) := by
    intro o out hout
    by_cases harch : e.architecture = .mamdani
    · exact h.alike_crispIf harch (hmamdani harch) o out
    · rw [h.crispIf_weighted_eq harch (hweighted harch o out hout)]
      exact .refl _
  have hresults : (defuzzifyIf (fun _ => True) e).1.Alike e.defuzzify.1 := by
    rw [hall, hengine]
    exact alike_mapOutputsIdx halike
  have hends : (defuzzifyIf (fun _ => True) e).2 = e.defuzzify.2 := by rw [hall, hengine]
  refine ⟨hends, hresults, hresults.output_eq, fun harch _ => ?_, ?_⟩
  · exact h.alike_atSample harch (hmamdani harch)
  · rintro (harch | hzero)
    · rw [hall, hengine]
      refine Prod.ext (mapOutputsIdx_congr fun o out hout => ?_) rfl
      exact h.crispIf_weighted_eq harch (hweighted harch o out hout)
    · exact Prod.ext (hresults.eq hzero) hends

/-- A session with the two rules in which the consequent of the first is undefined everywhere, and
the first rule is then given the weight 0. -/
def twoRuleUndefined : List (Command Float) :=
  twoRuleCommands ++
    [.setOutputMembership 0 0 (.custom fun _ _ => Scalar.nan) [] 1, .setWeights [0, 1], .inference]

/-- A session with them as a Sugeno system in which the first rule has the weight 0. -/
def twoRuleConstants : List (Command Float) :=
  [.setOutputMembership 0 0 .constant [4] 1, .setOutputMembership 1 1 .constant [9] 1,
    .setWeights [0, 1], .fuzzify, .inference]

theorem skipping_is_neutral_twoRules :
    (twoRuleEngine.run twoRuleUndefined).status = .succeeded ∧
      (twoRuleEngine.run twoRuleUndefined).strengths[0]? = some 0 ∧
      (∀ tag, (defuzzifyIf (fun _ => True) (twoRuleEngine.run twoRuleUndefined)).1.output tag =
        (twoRuleEngine.run twoRuleUndefined).defuzzify.1.output tag) ∧
      (twoRuleSugeno.run twoRuleConstants).status = .succeeded ∧
      defuzzifyIf (fun _ => True) (twoRuleSugeno.run twoRuleConstants) =
        (twoRuleSugeno.run twoRuleConstants).defuzzify := by
  have harch : (twoRuleEngine.run twoRuleUndefined).architecture = .mamdani := by decide +kernel
  have himplication : (twoRuleEngine.run twoRuleUndefined).config.implication = .min := by
    decide +kernel
  have harch' : (twoRuleSugeno.run twoRuleConstants).architecture ≠ .mamdani := by
    decide +kernel
  have hfinite : ∀ o < (twoRuleSugeno.run twoRuleConstants).outputs.length,
      ∀ out ∈ (twoRuleSugeno.run twoRuleConstants).outputs[o]?,
        ∀ f ∈ (twoRuleSugeno.run twoRuleConstants).firingIf (fun _ => True) o,
          IsFinite (f.crisp (twoRuleSugeno.run twoRuleConstants).architecture
            (twoRuleSugeno.run twoRuleConstants).inputs
            (twoRuleSugeno.run twoRuleConstants).outputMemberships out.toVariable) := by
    decide +kernel
  obtain ⟨-, -, hvalues, -⟩ := skipping_is_neutral setup_twoRules twoRuleUndefined rfl
    (fun _ => .inl himplication) fun hnot => absurd harch hnot
  obtain ⟨-, -, -, -, hequal⟩ := skipping_is_neutral setup_twoRuleSugeno twoRuleConstants rfl
    (fun hmamdani => absurd hmamdani harch')
    fun _ o out hout f hf _ => hfinite o (List.getElem?_eq_some_iff.1 hout).1 out hout f hf
  exact ⟨by decide +kernel, by decide +kernel, hvalues, by decide +kernel, hequal (.inl harch')⟩

end Engine

end FuzzyInference
