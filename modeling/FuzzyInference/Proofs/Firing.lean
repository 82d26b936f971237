import FuzzyInference.Proofs.Grammar
import FuzzyInference.Proofs.Protocol
import FuzzyInference.Proofs.Screened

/-!
# Aggregation, output by output

Aggregation is one fold of consequents over a whole engine, in which the consequents of all outputs
are mixed. Each of them changes one output, and what it adds depends on nothing that aggregation
changes elsewhere. So the fold falls apart: every output is folded with the consequents that name
it, and no others (`Engine.aggregateIf_eq`). This is so for every test on the strengths.

A `Firing` is a consequent that takes effect, reduced to the strength of its rule and the
membership function that it asserts. `Firing.ofConsequents` picks those of one output from a walk,
and `Firing.ofRules` from a list of rules; on an accepted stream the two are the same
(`Engine.Ready.firing_eq`).
-/

set_option autoImplicit false

namespace FuzzyInference

/-! ## Consequents that take effect -/

/-- What a consequent of a rule that fires asserts about its output. -/
structure Firing (α : Type) where
  strength : α
  reference : Reference

namespace Firing

variable {α : Type} [Scalar α]

/-- What a consequent asserts about output `o`, if the strength of its rule passes a test. -/
def ofAssertionIf? (test : α → Prop) [DecidablePred test] (strength : α) (o : Nat)
    (a : Assertion) : Option (Firing α) :=
  if test strength ∧ a.tag = o then some ⟨strength, a.reference⟩ else none

/-- What a consequent asserts about output `o` if its rule fires. -/
def ofAssertion? (strength : α) (o : Nat) (a : Assertion) : Option (Firing α) :=
  ofAssertionIf? (fun s => 0 < s) strength o a

/-- What visited consequents assert about output `o` with a strength that passes a test, in order. -/
def ofConsequentsIf (test : α → Prop) [DecidablePred test] (strengths : List α) (o : Nat)
    (cs : List Consequent) : List (Firing α) :=
  cs.filterMap fun c => ofAssertionIf? test (strengths[c.rule]?.getD 0) o c.assertion

/-- What the visited consequents of rules that fire assert about output `o`, in order. -/
def ofConsequents (strengths : List α) (o : Nat) (cs : List Consequent) : List (Firing α) :=
  ofConsequentsIf (fun s => 0 < s) strengths o cs

/-- What a rule asserts about output `o`, in order; nothing unless its strength is above 0. -/
def ofRule (o : Nat) (r : Rule) (strength : α) : List (Firing α) :=
  if 0 < strength then
    (r.consequents.filter fun a => a.tag = o).map fun a => ⟨strength, a.reference⟩
  else []

/-- What rules assert about output `o`, in order. The strengths are those of the rules. -/
def ofRules (strengths : List α) (o : Nat) (rules : List Rule) : List (Firing α) :=
  (rules.zip strengths).flatMap fun r => ofRule o r.1 r.2

/-- What rules assert, they assert with a strength of their own that is above 0. -/
theorem mem_ofRules {strengths : List α} {o : Nat} {rules : List Rule}
    {f : Firing α} (hf : f ∈ ofRules strengths o rules) :
    0 < f.strength ∧ ∃ i < rules.length, strengths[i]? = some f.strength := by
  rw [ofRules, List.mem_flatMap] at hf
  obtain ⟨rs, hrs, hf⟩ := hf
  rw [ofRule] at hf
  split at hf
  case isFalse => cases hf
  case isTrue hfires =>
    obtain ⟨a, -, rfl⟩ := List.mem_map.1 hf
    obtain ⟨i, hi⟩ := List.mem_iff_getElem?.1 hrs
    obtain ⟨hr, hs⟩ := List.getElem?_zip_eq_some.1 hi
    exact ⟨hfires, i, (List.getElem?_eq_some_iff.1 hr).1, hs⟩

theorem filterMap_ofAssertion? (strength : α) (o : Nat) (r : Rule) :
    r.consequents.filterMap (ofAssertion? strength o) = ofRule o r strength := by
  rw [ofRule]
  induction r.consequents with
  | nil => simp
  | cons a as ih =>
      rw [List.filterMap_cons, ih]
      by_cases hs : 0 < strength
      · by_cases ha : a.tag = o
        · simp [ofAssertion?, ofAssertionIf?, hs, ha]
        · simp [ofAssertion?, ofAssertionIf?, hs, ha]
      · simp [ofAssertion?, ofAssertionIf?, hs]

/-- Rules that have a slot each, numbered or paired with their slots. -/
theorem flatMap_zipIdx_eq {β : Type} {strengths : List α} (f : Rule → α → List β)
    {rules : List Rule} (h : rules.length ≤ strengths.length) :
    rules.zipIdx.flatMap (fun r => f r.1 (strengths[r.2]?.getD 0)) =
      (rules.zip strengths).flatMap fun r => f r.1 r.2 := by
  have hpairs : rules.zipIdx.map (fun r => (r.1, strengths[r.2]?.getD 0)) =
      rules.zip strengths := by
    refine List.ext_getElem (by simp [h]) fun i hi hi' => ?_
    have hlt : i < strengths.length := by
      rw [List.length_zip] at hi'
      omega
    simp [List.getElem?_eq_getElem hlt]
  rw [← hpairs, List.flatMap_map]

/-- Consequents that are those of numbered rules assert what the rules assert. -/
theorem ofConsequents_eq_ofRules {strengths : List α} {cs : List Consequent} {rules : List Rule}
    (hcs : cs.map (fun c => (c.rule, c.assertion)) =
      rules.zipIdx.flatMap fun r => r.1.consequents.map fun a => (r.2, a))
    (h : rules.length ≤ strengths.length) (o : Nat) :
    ofConsequents strengths o cs = ofRules strengths o rules := by
  have hmap : ofConsequents strengths o cs =
      (cs.map fun c => (c.rule, c.assertion)).filterMap fun c =>
        ofAssertion? (strengths[c.1]?.getD 0) o c.2 := by
    rw [List.filterMap_map]
    rfl
  rw [hmap, hcs, List.filterMap_flatMap]
  simp only [List.filterMap_map, Function.comp_def, filterMap_ofAssertion?]
  exact flatMap_zipIdx_eq (ofRule o) h

end Firing

/-! ## The consequents of rules -/

/-- The rule number and the assertion, if a consequent is read. -/
def Reading.consequent? (r : Reading) : Option (Nat × Assertion) :=
  match r.state with
  | .premise _ => none
  | .consequents => some (r.rule, r.assertion)

theorem PremiseStep.map_consequents (steps : List PremiseStep) :
    (steps.filterMap consequent?).map (fun c => (c.rule, c.assertion)) =
      (steps.map reading).filterMap Reading.consequent? := by
  rw [List.map_filterMap, List.filterMap_map]
  congr 1
  funext s
  cases hs : s.state with
  | premise joined => simp [consequent?, reading, Reading.consequent?, hs]
  | consequents => simp [consequent?, reading, Reading.consequent?, hs]

/-- The consequents among the clauses of a rule. -/
theorem Rule.filterMap_readings (i : Nat) (r : Rule) :
    (r.readings i).filterMap Reading.consequent? = r.consequents.map fun a => (i, a) := by
  have hpremise :
      (premiseReadings i r.antecedent r.joined).filterMap Reading.consequent? = [] := by
    rw [List.filterMap_eq_nil_iff]
    intro x hx
    rcases List.mem_cons.1 hx with rfl | hx
    · rfl
    · obtain ⟨j, -, rfl⟩ := List.mem_map.1 hx
      rfl
  rw [readings, List.filterMap_append, hpremise, List.nil_append, consequentReadings,
    List.filterMap_map]
  exact congrFun List.filterMap_eq_map' r.consequents

theorem Rule.filterMap_allReadings (rules : List Rule) :
    (Rule.allReadings rules).filterMap Reading.consequent? =
      rules.zipIdx.flatMap fun r => r.1.consequents.map fun a => (r.2, a) := by
  rw [allReadings, List.filterMap_flatMap]
  simp only [filterMap_readings]

/-- The membership function that a reference names. -/
def Reference.membership {α : Type} [Scalar α] (r : Reference) (memberships : List (Membership α)) :
    Membership α :=
  memberships[r.index]?.getD .blank

namespace Engine

variable {α : Type} [Scalar α]

/-! ## Changing outputs by their number -/

omit [Scalar α] in
theorem modify_eq_mapIdx {β : Type} (f : β → β) (o : Nat) (xs : List β) :
    xs.modify o f = xs.mapIdx fun i x => if i = o then f x else x := by
  refine List.ext_getElem? fun i => ?_
  rw [List.getElem?_modify, List.getElem?_mapIdx]
  by_cases hi : o = i
  · simp [hi]
  · simp [hi, Ne.symm hi]

/-- Changes every output, each according to its number. -/
def mapOutputsIdx (f : Nat → Output α → Output α) (e : Engine α) : Engine α :=
  { e with outputs := e.outputs.mapIdx f }

section MapOutputs

omit [Scalar α]

variable (f g : Nat → Output α → Output α) (e : Engine α)

theorem getElem?_mapOutputsIdx (o : Nat) :
    (e.mapOutputsIdx f).outputs[o]? = e.outputs[o]?.map (f o) := List.getElem?_mapIdx

variable {f g} in
/-- Only what is done to the outputs that are there matters. -/
theorem mapOutputsIdx_congr {e : Engine α}
    (h : ∀ o out, e.outputs[o]? = some out → f o out = g o out) :
    e.mapOutputsIdx f = e.mapOutputsIdx g := by
  have houtputs : e.outputs.mapIdx f = e.outputs.mapIdx g := by
    refine List.ext_getElem? fun o => ?_
    rw [List.getElem?_mapIdx, List.getElem?_mapIdx]
    cases hout : e.outputs[o]? with
    | none => rfl
    | some out => rw [Option.map_some, Option.map_some, h o out hout]
  rw [mapOutputsIdx, mapOutputsIdx, houtputs]

theorem mapOutputsIdx_mapOutputsIdx :
    (e.mapOutputsIdx f).mapOutputsIdx g = e.mapOutputsIdx fun o out => g o (f o out) := by
  simp only [mapOutputsIdx, List.mapIdx_mapIdx]
  rfl

theorem mapOutputsIdx_id : e.mapOutputsIdx (fun _ out => out) = e := by
  have houtputs : e.outputs.mapIdx (fun _ out => out) = e.outputs :=
    List.ext_getElem? fun o => by simp
  rw [mapOutputsIdx, houtputs]

theorem mapOutputs_eq (f : Output α → Output α) : e.mapOutputs f = e.mapOutputsIdx fun _ => f := by
  have houtputs : e.outputs.map f = e.outputs.mapIdx fun _ => f := by
    refine List.ext_getElem? fun o => ?_
    rw [List.getElem?_map, List.getElem?_mapIdx]
  rw [mapOutputs, mapOutputsIdx, houtputs]

theorem modifyOutput_eq (o : Nat) (f : Output α → Output α) :
    e.modifyOutput o f = e.mapOutputsIdx fun i out => if i = o then f out else out := by
  rw [modifyOutput, mapOutputsIdx, modify_eq_mapIdx]

theorem outputsOnly_mapOutputsIdx : OutputsOnly e (e.mapOutputsIdx f) :=
  .of_outputs e (List.length_mapIdx ..)

theorem consequences_mapOutputsIdx : (e.mapOutputsIdx f).consequences = e.consequences :=
  consequences_eq_of_script (outputsOnly_mapOutputsIdx f e).script

end MapOutputs

/-! ## Aggregation -/

/-- What the engine's consequents assert about output `o` with a strength that passes a test, in
order. -/
def firingIf (test : α → Prop) [DecidablePred test] (e : Engine α) (o : Nat) : List (Firing α) :=
  Firing.ofConsequentsIf test e.strengths o e.consequences.consequents

/-- What those of rules that fire assert. -/
def firing (e : Engine α) (o : Nat) : List (Firing α) := e.firingIf (fun s => 0 < s) o

theorem firing_eq_ofConsequents (e : Engine α) (o : Nat) :
    e.firing o = Firing.ofConsequents e.strengths o e.consequences.consequents := rfl

/-- Adds what is asserted about an output to it. -/
def contributeAll (e : Engine α) (fs : List (Firing α)) (out : Output α) : Output α :=
  fs.foldl
    (fun out f =>
      e.contribute (f.reference.membership e.outputMemberships) f.reference f.strength out)
    out

section Test

variable (test : α → Prop) [DecidablePred test] (only : Option Nat)

theorem firingIf_mapOutputsIdx (f : Nat → Output α → Output α) (e : Engine α) (o : Nat) :
    (e.mapOutputsIdx f).firingIf test o = e.firingIf test o := by
  rw [firingIf, firingIf, consequences_mapOutputsIdx]
  rfl

/-- A consequent changes the output that it names. -/
theorem applyConsequentIf_eq {e : Engine α} {c : Consequent}
    (hc : c.assertion.reference.index < e.outputMemberships.length) :
    applyConsequentIf test only e c = e.mapOutputsIdx fun o out =>
      if only.all (fun i => i = o) then
        e.contributeAll (Firing.ofConsequentsIf test e.strengths o [c]) out
      else out := by
  have hlookup := List.getElem?_eq_getElem hc
  simp only [applyConsequentIf]
  split
  · rename_i hfires
    rw [hlookup]
    simp only [modify_eq_mapIdx, mapOutputsIdx]
    congr 3
    funext o out
    by_cases ho : o = c.assertion.tag
    · subst ho
      simp [hfires.1, hfires.2, contributeAll, Firing.ofConsequentsIf, Firing.ofAssertionIf?,
        Reference.membership, hlookup]
    · have hnone : Firing.ofConsequentsIf test e.strengths o [c] = [] := by
        simp [Firing.ofConsequentsIf, Firing.ofAssertionIf?, Ne.symm ho]
      simp [ho, hnone, contributeAll]
  · rename_i hidle
    -- no output is changed: the strength fails the test, or the output that is named is left out
    have hsame : ∀ o out, (if only.all (fun i => i = o) then
        e.contributeAll (Firing.ofConsequentsIf test e.strengths o [c]) out else out) = out := by
      intro o out
      by_cases ho : only.all fun i => i = o
      · have hnone : Firing.ofConsequentsIf test e.strengths o [c] = [] := by
          simp only [Firing.ofConsequentsIf, List.filterMap_eq_nil_iff, List.mem_singleton,
            forall_eq]
          refine if_neg fun h => hidle ⟨h.1, ?_⟩
          rw [h.2]
          exact ho
        rw [if_pos ho, hnone]
        rfl
      · rw [if_neg ho]
    simp only [hsame]
    rw [mapOutputsIdx_id]

/-- Consequents fold into each output on its own. -/
theorem foldl_applyConsequentIf_eq {cs : List Consequent} {e : Engine α}
    (hcs : ∀ c ∈ cs, c.assertion.reference.index < e.outputMemberships.length) :
    cs.foldl (applyConsequentIf test only) e = e.mapOutputsIdx fun o out =>
      if only.all (fun i => i = o) then
        e.contributeAll (Firing.ofConsequentsIf test e.strengths o cs) out
      else out := by
  induction cs generalizing e with
  | nil =>
      have hnil : ∀ o out, (if only.all (fun i => i = o) then
          e.contributeAll (Firing.ofConsequentsIf test e.strengths o []) out else out) = out := by
        intro o out
        split <;> rfl
      simp only [List.foldl_nil, hnil]
      rw [mapOutputsIdx_id]
  | cons c cs ih =>
      rw [List.foldl_cons, applyConsequentIf_eq test only (hcs c List.mem_cons_self)]
      refine (ih (e := e.mapOutputsIdx _) fun c' hc' =>
        hcs c' (List.mem_cons_of_mem c hc')).trans ?_
      rw [mapOutputsIdx_mapOutputsIdx]
      congr 1
      funext o out
      split
      -- the lists of the first and of the other consequents are folded one after the other
      · show e.contributeAll (Firing.ofConsequentsIf test e.strengths o cs)
            (e.contributeAll (Firing.ofConsequentsIf test e.strengths o [c]) out) = _
        rw [contributeAll, contributeAll, ← List.foldl_append, Firing.ofConsequentsIf,
          Firing.ofConsequentsIf, ← List.filterMap_append]
        rfl
      · rfl

/-- If the walk over the consequents succeeds, aggregation does to each output what is asserted
about it, and to the output `only` alone if one is given. -/
theorem aggregateIf_eq {e : Engine α} (hok : e.consequences.outcome = .ok ()) :
    aggregateIf test only e =
      (e.mapOutputsIdx fun o out =>
        if only.all (fun i => i = o) then e.contributeAll (e.firingIf test o) out else out,
        .ok ()) := by
  refine Prod.ext ?_ (mapError_eq_ok_iff.2 hok)
  exact foldl_applyConsequentIf_eq test only fun c hc => (e.consequences_applies c hc).2.2

/-- The same after outputs were changed first. -/
theorem aggregateIf_mapOutputsIdx {e : Engine α} (hok : e.consequences.outcome = .ok ())
    (f : Nat → Output α → Output α) :
    aggregateIf test only (e.mapOutputsIdx f) =
      (e.mapOutputsIdx fun o out =>
        if only.all (fun i => i = o) then e.contributeAll (e.firingIf test o) (f o out)
        else f o out, .ok ()) := by
  rw [aggregateIf_eq test only (by rw [consequences_mapOutputsIdx]; exact hok),
    mapOutputsIdx_mapOutputsIdx]
  simp only [firingIf_mapOutputsIdx]
  rfl

end Test

/-! ## Accepted rules -/

/-- What an engine over a stream that spells rules asserts about an output is what the rules
assert. -/
theorem firing_of_spells {e : Engine α} {rules : List Rule} (hbound : e.Bound)
    (h : Spells e.width e.sizes e.ruleCount e.rules rules) (o : Nat) :
    e.firing o = Firing.ofRules e.strengths o rules := by
  have hok : e.premises.outcome = .ok () := (premiseWalk_ok_iff hbound.fit).2 ⟨rules, h⟩
  have hvisited : e.consequences.consequents =
      e.premises.steps.filterMap PremiseStep.consequent? := by
    rw [consequences, consequentWalk_eq_of_ok hok, Walk.consequents, PremiseStep.filterMap_visits]
    rfl
  have hreadings : e.premises.steps.map PremiseStep.reading = Rule.allReadings rules :=
    h.readings_eq hbound.fit
  have hslots : rules.length ≤ e.strengths.length := by
    rw [h.count]
    exact hbound.slots
  rw [firing_eq_ofConsequents, hvisited]
  refine Firing.ofConsequents_eq_ofRules ?_ hslots o
  rw [PremiseStep.map_consequents, hreadings, Rule.filterMap_allReadings]

/-- An engine at some time after its setup, whose last inference has accepted `rules` and stands. -/
structure Ready (e : Engine α) (rules : List Rule) : Prop where
  reached : ∃ (w : Width) (architecture : Architecture) (tables : Tables α) (stream : List Int)
    (n : Nat) (config : Config) (e₀ : Engine α) (cs : List (Command α)),
    setup w architecture tables stream n config = .ok e₀ ∧ e₀.run cs = e
  status : e.status = .succeeded
  spells : Spells e.width e.sizes e.ruleCount e.rules rules

omit [Scalar α] in
theorem confirmed_of_setup {w : Width} {architecture : Architecture} {tables : Tables α}
    {stream : List Int} {n : Nat} {config : Config} {e₀ : Engine α}
    (hsetup : setup w architecture tables stream n config = .ok e₀) : e₀.Confirmed := by
  obtain ⟨-, -, -, rfl⟩ := setup_ok hsetup
  intro hsucceeded
  cases hsucceeded

/-- Where an inference stands, the stream spells the rules that it has accepted. -/
theorem exists_ready {w : Width} {architecture : Architecture} {tables : Tables α}
    {stream : List Int} {n : Nat} {config : Config} {e₀ e : Engine α}
    (hsetup : setup w architecture tables stream n config = .ok e₀) (cs : List (Command α))
    (he : e₀.run cs = e) (hstatus : e.status = .succeeded) : ∃ rules, e.Ready rules := by
  have hconfirmed : e.Confirmed := by
    rw [← he]
    exact run_confirmed (confirmed_of_setup hsetup) cs
  obtain ⟨rules, hrules⟩ := exists_spells (hconfirmed hstatus).1
  exact ⟨rules, ⟨⟨w, architecture, tables, stream, n, config, e₀, cs, hsetup, he⟩, hstatus, hrules⟩⟩

namespace Ready

variable {e : Engine α} {rules : List Rule}

theorem bound (h : e.Ready rules) : e.Bound := by
  obtain ⟨w, architecture, tables, stream, n, config, e₀, cs, hsetup, rfl⟩ := h.reached
  exact run_bound (bound_of_setup hsetup) cs

theorem premises_ok (h : e.Ready rules) : e.premises.outcome = .ok () :=
  (premiseWalk_ok_iff h.bound.fit).2 ⟨rules, h.spells⟩

theorem outcome_eq (h : e.Ready rules) : e.consequences.outcome = .ok () := by
  rw [consequences, consequentWalk_eq_of_ok h.premises_ok]

/-- What the engine asserts about an output is what the rules assert. -/
theorem firing_eq (h : e.Ready rules) (o : Nat) :
    e.firing o = Firing.ofRules e.strengths o rules :=
  firing_of_spells h.bound h.spells o

/-- The consequents of the rules name outputs and membership functions that are there. -/
theorem consequent_within (h : e.Ready rules) {r : Rule} (hr : r ∈ rules) {a : Assertion}
    (ha : a ∈ r.consequents) :
    a.tag < e.outputs.length ∧ ∃ m, e.outputMemberships[a.reference.index]? = some m := by
  obtain ⟨htag, hindex⟩ := (h.spells.within r hr).2 a ha
  exact ⟨htag, _, List.getElem?_eq_getElem hindex⟩

end Ready

end Engine

end FuzzyInference
