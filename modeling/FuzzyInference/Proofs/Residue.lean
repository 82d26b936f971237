import FuzzyInference.Proofs.Cleared

/-!
# Nothing is left over between cycles

A cycle starts from tables in which earlier cycles have written. Two controllers with the same
settings evaluate alike all the same: every cell that a cycle reads is one that it has written
before.

Inference writes the slots of all rules or fails (`Engine.agree_of_cleared`). What defuzzification
leaves in an output depends on its range only (`Engine.Agree.crisp`): a method starts from a fresh
accumulator, and the first sample positions the output (`Output.traced_eq_of_range`).
-/

set_option autoImplicit false

namespace FuzzyInference

variable {α : Type} [Scalar α]

/-! ## Outputs -/

namespace Output

omit [Scalar α] in
/-- The output without the region that records its curve. -/
def bare (out : Output α) : Output α := { out with region := none }

variable (m : Method) (curve : Variable α → α) (k points : Nat) (out : Output α)

/-- Nothing that a sweep computes depends on the region. -/
theorem bare_sweep (left : Nat) :
    (out.sweep m curve points left k).bare = out.bare.sweep m curve points left k := by
  induction left generalizing k out with
  | zero => rfl
  | succ left ih => exact ih (k + 1) _

theorem bare_rescan (left : Nat) :
    (out.rescan curve points left k).bare = out.bare.rescan curve points left k := by
  induction left generalizing k out with
  | zero => rfl
  | succ left ih =>
      -- the sweep breaks off at the same sample, since this is decided by the accumulator
      have hreached : (out.bare.sampled curve k points).reached =
          (out.sampled curve k points).reached := rfl
      rw [rescan, rescan, hreached]
      split
      · rfl
      · exact ih (k + 1) _

theorem bare_traced : (out.traced m curve points).bare = out.bare.traced m curve points := by
  rw [traced, traced]
  split
  · rw [bare_rescan]
    exact congrArg (fun out : Output α => out.beginBisection.rescan curve points points 0)
      (bare_sweep m curve 0 points (out.reset m) points)
  · exact bare_sweep m curve 0 points (out.reset m) points

omit [Scalar α] in
/-- What the region does not hold. -/
theorem observed_of_bare {out out' : Output α} (h : out'.bare = out.bare) :
    out'.accumulator = out.accumulator ∧ out'.value = out.value ∧
      (out'.x, out'.y) = (out.x, out.y) := by
  have haccumulator : out'.bare.accumulator = out.bare.accumulator := by rw [h]
  have hvalue : out'.bare.value = out.bare.value := by rw [h]
  have hsample : (out'.bare.x, out'.bare.y) = (out.bare.x, out.bare.y) := by rw [h]
  exact ⟨haccumulator, hvalue, hsample⟩

variable {m curve points out}

/-- The sweeps of an output begin from its range. -/
theorem traced_eq_of_range {out' : Output α} (hrange : out'.range = out.range)
    (hpoints : 0 < points) :
    (out'.traced m curve points).bare = (out.traced m curve points).bare := by
  obtain ⟨points, rfl⟩ := Nat.exists_eq_add_one.2 hpoints
  obtain ⟨hlower, hupper⟩ := Prod.mk.inj hrange
  -- the accumulator is fresh, and the first sample writes the other cells
  have hinit : m.init out'.bare.toVariable = m.init out.bare.toVariable := by
    cases m <;> simp [Method.init, bare, hlower, hupper]
  have hfirst : (out'.bare.reset m).sampled curve 0 (points + 1) =
      (out.bare.reset m).sampled curve 0 (points + 1) := by
    simp only [sampled, beginSample, reset, hinit]
    simp only [bare, hlower, hupper]
  rw [bare_traced, bare_traced, traced, traced, sweep, sweep, hfirst]

end Output

/-! ## Engines that agree -/

namespace Firing

variable {memberships memberships' : List (Membership α)}
  (h : memberships'.map Membership.cleared = memberships.map Membership.cleared)

include h

theorem cleared_membership (r : Reference) :
    (r.membership memberships').cleared = (r.membership memberships).cleared := by
  unfold Reference.membership
  rcases getElem?_of_map_eq h r.index with ⟨hm, hm'⟩ | ⟨m, m', hm, hm', hcleared⟩
  · rw [hm, hm']
  · rw [hm, hm']
    exact hcleared

theorem law_eq_of_cleared (f : Firing α) : f.law memberships' = f.law memberships := by
  have hm := cleared_membership h f.reference
  have hshape := congrArg Membership.shape hm
  have hcoefficients := congrArg Membership.coefficients hm
  exact Prod.ext rfl (Prod.ext hshape hcoefficients)

theorem degree_eq_of_cleared (config : Config) (fs : List (Firing α)) :
    degree config memberships' fs = degree config memberships fs := by
  have himplied : ∀ (v : Variable α) (f : Firing α),
      f.implied config memberships' v = f.implied config memberships v := by
    intro v f
    rw [implied_eq, implied_eq, ← Membership.scaled_cleared, cleared_membership h f.reference,
      Membership.scaled_cleared]
  funext v
  simp only [degree, himplied]

end Firing

namespace Engine

/-- Two engines that agree after inference, in what it has left behind and in everything that
defuzzification reads. -/
structure Agree (e e' : Engine α) : Prop where
  script : e'.script = e.script
  architecture : e'.architecture = e.architecture
  config : e'.config = e.config
  inputs : e'.inputs = e.inputs
  inputMemberships : e'.inputMemberships = e.inputMemberships
  outputMemberships : e'.outputMemberships.map Membership.cleared =
    e.outputMemberships.map Membership.cleared
  outputs : e'.outputs.map Output.cleared = e.outputs.map Output.cleared
  strengths : e'.strengths = e.strengths

namespace Agree

variable {e e' : Engine α} (h : Agree e e')

include h

theorem firing (o : Nat) : e'.firing o = e.firing o := by
  rw [firing_eq_ofConsequents, firing_eq_ofConsequents, h.strengths, consequences_eq_of_script h.script]

theorem curve (o : Nat) : e'.curve o = e.curve o := by
  rw [curve_eq_degree, curve_eq_degree, h.firing, h.config,
    Firing.degree_eq_of_cleared h.outputMemberships]

/-- What defuzzification writes into an output depends on its range only. -/
theorem crisp (hfits : e.config.Fits e.architecture) (o : Nat) {out out' : Output α}
    (hrange : out'.range = out.range) :
    (e'.crisp o out').accumulator = (e.crisp o out).accumulator ∧
      (e'.crisp o out').value = (e.crisp o out).value ∧
      (e.architecture = .mamdani →
        ((e'.crisp o out').x, (e'.crisp o out').y) = ((e.crisp o out).x, (e.crisp o out).y)) := by
  obtain ⟨hlower, hupper⟩ := Prod.mk.inj hrange
  by_cases harch : e.architecture = .mamdani
  · have htraced : (out'.traced e.config.method (e.curve o) e.config.evalPoints).bare =
        (out.traced e.config.method (e.curve o) e.config.evalPoints).bare :=
      Output.traced_eq_of_range hrange hfits.points
    have hsettled : ((out'.traced e.config.method (e.curve o) e.config.evalPoints).settle
          e.config.method).bare =
        ((out.traced e.config.method (e.curve o) e.config.evalPoints).settle
          e.config.method).bare :=
      congrArg (Output.settle e.config.method) htraced
    rw [crisp_mamdani harch, crisp_mamdani (h.architecture.trans harch), h.config, h.curve]
    obtain ⟨haccumulator, hvalue, hsample⟩ := Output.observed_of_bare hsettled
    exact ⟨haccumulator, hvalue, fun _ => hsample⟩
  · have hmethod := Method.weighted_of_supports hfits.method harch
    obtain ⟨hsumWZ, hsumW⟩ := Firing.sums_eq_of_law out.toVariable out'.toVariable
      (List.map_congr_left fun f _ => Firing.law_eq_of_cleared h.outputMemberships f)
      (fun _ => h.inputs) hlower hupper
    rw [crisp_eq_sums harch hmethod,
      crisp_eq_sums (h.architecture.symm ▸ harch) (h.config.symm ▸ hmethod), h.firing,
      h.architecture, h.config, hsumWZ, hsumW]
    refine ⟨rfl, ?_, fun hmamdani => absurd hmamdani harch⟩
    simp only [Output.settle, hlower, hupper]

end Agree

/-! ## Inference -/

theorem script_cleared (e : Engine α) : e.cleared.script = e.script := by
  simp only [script, cleared, Tables.cleared, Tables.sizes, List.length_map]

/-- Where there are as many slots as rules, what the slots held is gone. -/
theorem stored_eq {e e' : Engine α} (hconfig : e'.config = e.config)
    (hmemberships : e'.inputMemberships = e.inputMemberships) (hweights : e'.weights = e.weights)
    {slots slots' : List α} {rules : List Rule} (h : slots.length = rules.length)
    (h' : slots'.length = rules.length) : e'.stored slots' rules = e.stored slots rules := by
  have hdegree : e'.antecedentDegree = e.antecedentDegree := by
    funext r
    rw [antecedentDegree, antecedentDegree, hmemberships]
  have hweight : e'.weight = e.weight := by
    funext i
    rw [weight, weight, hweights]
  rw [stored, stored, hconfig, hdegree, hweight, ← h, List.drop_length, h, ← h', List.drop_length]

/-- The degrees that fuzzification keeps are those of the confined inputs. -/
theorem fuzzify_inputMemberships {e e' : Engine α}
    (hmemberships : e'.inputMemberships.map Membership.cleared =
      e.inputMemberships.map Membership.cleared)
    (hinputs : e'.fuzzify.inputs = e.fuzzify.inputs) :
    e'.fuzzify.inputMemberships = e.fuzzify.inputMemberships := by
  have hcleared : ∀ e : Engine α, e.fuzzify.inputMemberships =
      (e.inputMemberships.map Membership.cleared).map (Membership.fuzzify e.fuzzify.inputs) := by
    intro e
    rw [List.map_map]
    rfl
  rw [hcleared, hcleared, hmemberships, hinputs]

/-- Inference with the same script over the same degrees comes to the same end, and if it succeeds
to the same strengths. -/
theorem inference_eq_of_script {e e' : Engine α} (hscript : e'.script = e.script)
    (hconfig : e'.config = e.config) (hmemberships : e'.inputMemberships = e.inputMemberships)
    (hweights : e'.weights = e.weights) (hbound : e.Bound)
    (hslots : e.strengths.length = e.ruleCount)
    (hslots' : e'.strengths.length = e.strengths.length) :
    e'.inference.2 = e.inference.2 ∧
      (e.inference.2 = .ok () → e'.inference.1.strengths = e.inference.1.strengths) := by
  constructor
  · obtain ⟨-, -, -, hresult⟩ := e.inference_eq
    obtain ⟨-, -, -, hresult'⟩ := e'.inference_eq
    rw [hresult, hresult', premises_eq_of_script hscript]
  · intro hok
    obtain ⟨rules, hrules⟩ := exists_spells ((inference_ok_iff e).1 hok)
    have hbound' : e'.Bound := hbound.of_eq hscript hslots' (Or.inl hweights)
    have hrules' : Spells e'.width e'.sizes e'.ruleCount e'.rules rules := by
      simp only [script, Script.mk.injEq] at hscript
      obtain ⟨hwidth, hsizes, hcount, hstream⟩ := hscript
      rwa [hwidth, hsizes, hcount, hstream]
    -- there is no slot behind those of the rules, in which an old strength could survive
    have hlength : e.strengths.length = rules.length := hslots.trans hrules.count.symm
    rw [(inference_spells hbound hrules).2, (inference_spells hbound' hrules').2]
    exact stored_eq hconfig hmemberships hweights hlength (hslots'.trans hlength)

/-- Fuzzification and inference lead engines with the same settings and the same confined inputs to
the same end, and to engines that agree if they succeed. -/
theorem agree_of_cleared {e e' : Engine α} (h : e'.cleared = e.cleared)
    (hinputs : e'.fuzzify.inputs = e.fuzzify.inputs) (hbound : e.Bound)
    (hslots : e.strengths.length = e.ruleCount) :
    e'.fuzzify.inference.2 = e.fuzzify.inference.2 ∧
      (e.fuzzify.inference.2 = .ok () → Agree e.fuzzify.inference.1 e'.fuzzify.inference.1) := by
  have hscript : e'.fuzzify.script = e.fuzzify.script := by
    rw [fuzzify_script, fuzzify_script, ← e'.script_cleared, h, e.script_cleared]
  have harchitecture : e'.cleared.architecture = e.cleared.architecture := by rw [h]
  have hconfig : e'.cleared.config = e.cleared.config := by rw [h]
  have hweights : e'.cleared.weights = e.cleared.weights := by rw [h]
  have hinputMemberships : e'.cleared.inputMemberships = e.cleared.inputMemberships := by rw [h]
  have houtputMemberships : e'.cleared.outputMemberships = e.cleared.outputMemberships := by rw [h]
  have houtputs : e'.cleared.outputs = e.cleared.outputs := by rw [h]
  have hlengths : e'.strengths.length = e.strengths.length := by
    have hstrengths : e'.cleared.strengths = e.cleared.strengths := by rw [h]
    simpa [cleared, Tables.cleared] using congrArg List.length hstrengths
  -- fuzzification has replaced the values and the degrees, so inference meets the same
  have hdegrees := fuzzify_inputMemberships hinputMemberships hinputs
  have hbound : e.fuzzify.Bound := hbound.of_eq (fuzzify_script e) rfl (Or.inl rfl)
  obtain ⟨hresult, hstrengths⟩ :=
    inference_eq_of_script hscript hconfig hdegrees hweights hbound hslots hlengths
  refine ⟨hresult, fun hok => ?_⟩
  have hstrengths := hstrengths hok
  obtain ⟨status, hengine, -⟩ := e.fuzzify.inference_eq
  obtain ⟨status', hengine', -⟩ := e'.fuzzify.inference_eq
  rw [hengine, hengine'] at hstrengths ⊢
  exact ⟨hscript, harchitecture, hconfig, hinputs, hdegrees, houtputMemberships, houtputs,
    hstrengths⟩

/-! ## Defuzzification -/

/-- What two runs of a cycle have left alike in the tables: input values and their degrees,
strengths, accumulators and crisp values, and in a Mamdani system the last samples. -/
structure SameWork (architecture : Architecture) (t t' : Tables α) : Prop where
  inputs : t'.inputs = t.inputs
  degrees : t'.inputMemberships.map (fun m => m.degree) = t.inputMemberships.map fun m => m.degree
  strengths : t'.strengths = t.strengths
  accumulators : t'.outputs.map (fun out => out.accumulator) =
    t.outputs.map fun out => out.accumulator
  values : t'.outputs.map (fun out => out.value) = t.outputs.map fun out => out.value
  samples : architecture = .mamdani →
    t'.outputs.map (fun out => (out.x, out.y)) = t.outputs.map fun out => (out.x, out.y)

namespace Agree

variable {e e' : Engine α} (h : Agree e e')

include h

/-- What is a function of an output's range after defuzzification is the same in both engines. -/
theorem map_crisp {β : Type} {f : Output α → β}
    (hf : ∀ o (out out' : Output α), out'.range = out.range →
      f (e'.crisp o out') = f (e.crisp o out)) :
    (e'.outputs.mapIdx e'.crisp).map f = (e.outputs.mapIdx e.crisp).map f := by
  refine List.ext_getElem? fun o => ?_
  rw [List.getElem?_map, List.getElem?_map, List.getElem?_mapIdx, List.getElem?_mapIdx]
  rcases getElem?_of_map_eq h.outputs o with ⟨hout, hout'⟩ | ⟨out, out', hout, hout', hcleared⟩
  · rw [hout, hout']
    rfl
  · rw [hout, hout']
    exact congrArg some (hf o out out' (Output.cleared_eq_iff.1 hcleared))

/-- Defuzzification leaves the same work in engines that agree. -/
theorem defuzzify (hfits : e.config.Fits e.architecture) (hok : e.consequences.outcome = .ok ())
    (hstatus : e.status = .succeeded) (hstatus' : e'.status = .succeeded) :
    e.defuzzify.2 = .ok () ∧ e'.defuzzify.2 = .ok () ∧
      SameWork e.architecture e.defuzzify.1.toTables e'.defuzzify.1.toTables := by
  have hok' : e'.consequences.outcome = .ok () := by rwa [consequences_eq_of_script h.script]
  rw [defuzzify_eq hstatus hok, defuzzify_eq hstatus' hok']
  refine ⟨rfl, rfl, h.inputs, congrArg _ h.inputMemberships, h.strengths, ?_, ?_, ?_⟩
  · exact h.map_crisp fun o out out' hrange => (h.crisp hfits o hrange).1
  · exact h.map_crisp fun o out out' hrange => (h.crisp hfits o hrange).2.1
  · exact fun harch => h.map_crisp fun o out out' hrange => (h.crisp hfits o hrange).2.2 harch

end Agree

/-- A cycle ends alike in engines with the same settings and the same confined inputs. -/
theorem cycled_alike {e e' : Engine α} (h : e'.cleared = e.cleared)
    (hinputs : e'.fuzzify.inputs = e.fuzzify.inputs) (hbound : e.Bound)
    (hslots : e.strengths.length = e.ruleCount) (hfits : e.config.Fits e.architecture) :
    e'.cycled.2 = e.cycled.2 ∧
      (e.cycled.2 = .ok () →
        SameWork e.architecture e.cycled.1.toTables e'.cycled.1.toTables) := by
  obtain ⟨hresult, hagree⟩ := agree_of_cleared h hinputs hbound hslots
  have hstatus := inference_status_iff e.fuzzify
  have hstatus' := inference_status_iff e'.fuzzify
  have hconfirmed := inference_confirmed e.fuzzify
  have hfits : e.fuzzify.inference.1.config.Fits e.fuzzify.inference.1.architecture :=
    perform_fits _ .inference hfits
  have harchitecture : e.fuzzify.inference.1.architecture = e.architecture :=
    perform_architecture e.fuzzify .inference
  rw [cycled, cycled]
  generalize e.fuzzify.inference = r at *
  generalize e'.fuzzify.inference = r' at *
  obtain ⟨f', result'⟩ := r'
  obtain rfl : result' = r.2 := hresult
  obtain ⟨f, err | u⟩ := r
  -- a failed inference ends the cycle, and the reason is the same
  · refine ⟨rfl, fun hok => ?_⟩
    cases hok
  · have hsucceeded := hstatus.2 rfl
    obtain ⟨hd, hd', hwork⟩ := (hagree rfl).defuzzify hfits (hconfirmed.consequences_ok hsucceeded)
      hsucceeded (hstatus'.2 rfl)
    exact ⟨hd'.trans hd.symm, fun _ => harchitecture ▸ hwork⟩

end Engine

/-! ## Ranges of inputs -/

namespace Engine

variable [Scalar.Lawful α]

theorem Setting.inputs_ranged {e e' : Engine α} (hsetting : Setting e e')
    (h : ∀ v ∈ e.inputs, v.lower < v.upper) : ∀ v ∈ e'.inputs, v.lower < v.upper := by
  cases hsetting with
  | inputRange i hrange => exact forall_mem_modify i h fun v _ => checkRange_ok hrange
  | input i value => exact forall_mem_modify i h h
  | _ => exact h

theorem perform_inputs_ranged (e : Engine α) (c : Command α)
    (h : ∀ v ∈ e.inputs, v.lower < v.upper) : ∀ v ∈ (e.perform c).1.inputs, v.lower < v.upper := by
  rcases perform_cases e c with rfl | rfl | rfl | ⟨-, -, hsetting⟩
  · intro v hv
    obtain ⟨v₀, hv₀, rfl⟩ := List.mem_map.1 hv
    exact h v₀ hv₀
  · obtain ⟨status, hengine, -⟩ := e.inference_eq
    show ∀ v ∈ e.inference.1.inputs, v.lower < v.upper
    rw [hengine]
    exact h
  · show ∀ v ∈ e.defuzzify.1.inputs, v.lower < v.upper
    rw [(outputsOnly_defuzzify e).eq]
    exact h
  · exact hsetting.inputs_ranged h

end Engine

/-- The range of every input of a controller is defined and not empty. -/
theorem Controller.Reachable.inputs_ranged [Scalar.Lawful α] {s : Controller α}
    (h : s.Reachable) : ∀ v ∈ s.tables.inputs, v.lower < v.upper := by
  obtain ⟨w, architecture, sizes, n, rules, config, s₀, rs, hbuild, rfl⟩ := h
  refine run_induction (P := fun s => ∀ v ∈ s.tables.inputs, v.lower < v.upper) ?_ ?_ rs
  · intro s r hs
    obtain ⟨values, hperform⟩ := s.perform_tables r
    have hassigned : ∀ v ∈ (s.assigned values).tables.inputs, v.lower < v.upper := by
      intro v hv
      obtain ⟨v₀, hv₀, hlower, hupper⟩ := Variable.exists_of_mem_assign hv
      rw [hlower, hupper]
      exact hs v₀ hv₀
    rcases hperform with htables | ⟨e, ⟨e₀, cs, hsetup, rfl⟩, htables⟩
    · rw [htables]
      exact hassigned
    · rw [htables]
      refine Engine.run_induction (P := fun e => ∀ v ∈ e.inputs, v.lower < v.upper)
        Engine.perform_inputs_ranged ?_ cs
      obtain ⟨-, -, -, rfl⟩ := Engine.setup_ok hsetup
      exact hassigned
  · obtain ⟨e, -, hs₀⟩ := exists_of_bind_ok hbuild
    cases hs₀
    intro v hv
    rw [List.eq_of_mem_replicate hv]
    exact Scalar.Lawful.neg_one_lt_one

/-- Confining values a second time changes nothing. -/
theorem Variable.sameConfined_clamps [Scalar.Lawful α] {vs : List (Variable α)} {xs : List α}
    (hvs : ∀ v ∈ vs, v.lower < v.upper) (h : vs.length ≤ xs.length) :
    SameConfined vs xs (clamps vs xs) := by
  refine ⟨h, by simp [clamps, h], List.ext_getElem? fun i => ?_⟩
  rw [clamps, clamps, List.getElem?_zipWith, List.getElem?_zipWith]
  cases hv : vs[i]? with
  | none => rfl
  | some v =>
      have hlt := hvs v (List.mem_of_getElem? hv)
      cases xs[i]? with
      | none => rfl
      | some x => exact congrArg some (Scalar.clamp_clamp hlt x)

namespace Controller

/-! ## Two evaluations -/

/-- Two calls that end alike: with the same result or error, and where they succeed with the same
work in the tables. -/
structure EndsAlike (c c' : Call α (List α)) : Prop where
  result : c'.2 = c.2
  work : ∀ outs, c.2 = .ok outs →
    Engine.SameWork c.1.architecture c.1.tables c'.1.tables

/-- Controllers with the same settings evaluate alike. -/
theorem evaluate_alike {s s' : Controller α} (hsettings : s'.cleared = s.cleared)
    {values values' : List α}
    (hvalues : Variable.SameConfined s.tables.inputs values values') :
    EndsAlike (s.evaluate values) (s'.evaluate values') := by
  have hassigned : (s'.assigned values').cleared = (s.assigned values).cleared := by
    rw [assigned_cleared, assigned_cleared, hsettings]
  rcases engine_of_cleared hassigned with
    ⟨err, hengine, hengine'⟩ | ⟨e, e', hengine, hengine', hcleared⟩
  · rw [evaluate_of_error hengine, evaluate_of_error hengine']
    refine ⟨rfl, fun outs hok => ?_⟩
    cases hok
  · have hranges : s'.cleared.tables.inputs = s.cleared.tables.inputs := by rw [hsettings]
    have hinputs : e'.fuzzify.inputs = e.fuzzify.inputs := by
      show e'.inputs.map _ = e.inputs.map _
      rw [engine_ok hengine, engine_ok hengine']
      exact Variable.map_confined_assign hranges hvalues
    have hlends := lends_engine hengine
    -- the controller has one rule for each of its slots
    have hslots : e.strengths.length = e.ruleCount := by
      rw [hlends.serves.ruleCount, engine_ok hengine]
    obtain ⟨hresult, hwork⟩ :=
      Engine.cycled_alike hcleared hinputs hlends.serves.bound hslots hlends.fits
    rw [hlends.architecture] at hwork
    rw [evaluate_of_engine hengine, evaluate_of_engine hengine', hresult]
    generalize e.cycled = c at hwork ⊢
    obtain ⟨f, err | u⟩ := c
    · refine ⟨rfl, fun outs hok => ?_⟩
      cases hok
    · exact ⟨congrArg Except.ok (hwork rfl).values, fun _ _ => hwork rfl⟩

/-- No residue between evaluations. Controllers with the same settings evaluate alike, whatever
their tables hold otherwise, on values that are equal once they are confined to the input ranges. So
an evaluation ends as it would after any others, itself included, whether those succeeded or failed,
and values beyond a range act as those at its ends. -/
theorem evaluate_no_residue {s s' : Controller α} (hsettings : s'.cleared = s.cleared)
    {values values' : List α}
    (hvalues : Variable.SameConfined s.tables.inputs values values') :
    EndsAlike (s.evaluate values) (s'.evaluate values') ∧
      (∀ earlier : List (List α), EndsAlike (s.evaluate values)
        ((s.run (earlier.map .evaluate)).evaluate values)) ∧
      ∀ [Scalar.Lawful α], s.Reachable → EndsAlike (s.evaluate values)
        (s.evaluate (Variable.clamps s.tables.inputs values)) := by
  refine ⟨evaluate_alike hsettings hvalues, fun earlier => ?_, fun hreachable => ?_⟩
  · exact evaluate_alike (s.run_evaluate_cleared earlier) ⟨hvalues.length, hvalues.length, rfl⟩
  · exact evaluate_alike rfl
      (Variable.sameConfined_clamps hreachable.inputs_ranged hvalues.length)

/-- A controller of the two rules as it is built, with the bisector over four samples. -/
def freshTwoRules : Controller Float :=
  ⟨.byte, .mamdani, { Config.mamdaniClassic with method := .bisector, evalPoints := 4 },
    .blank ⟨2, 2, 2, 2⟩ 2, Rule.stream .byte Engine.twoRules, none⟩

theorem build_twoRules :
    build .byte .mamdani ⟨2, 2, 2, 2⟩ 2 (Rule.stream .byte Engine.twoRules)
      { Config.mamdaniClassic with method := .bisector, evalPoints := 4 } = .ok freshTwoRules := rfl

/-- The controller with ranges, curves on both sides and weights. -/
def tunedTwoRules : Controller Float :=
  freshTwoRules.run
    [.session
        [.setupInput 0 0 10, .setupInput 1 0 10, .setupOutput 0 0 30, .setupOutput 1 (-1) 1,
          .setInputMembership 0 0 (.curve .triangular) [0, 5, 10] 1,
          .setInputMembership 1 1 (.curve .linearS) [2, 8] 0.5,
          .setOutputMembership 0 0 (.curve .triangular) [0, 10, 20] 1,
          .setOutputMembership 1 1 (.curve .linearZ) [-1, 1] 0.75],
      .setWeights [1, 0.5]]

theorem evaluate_no_residue_twoRules :
    (tunedTwoRules.evaluate [12, 7]).2.isOk = true ∧
      EndsAlike (tunedTwoRules.evaluate [12, 7])
        ((tunedTwoRules.evaluate [1, 2]).1.evaluate [10, 7]) ∧
      EndsAlike (tunedTwoRules.evaluate [12, 7])
        (tunedTwoRules.evaluate (Variable.clamps tunedTwoRules.tables.inputs [12, 7])) := by
  have hvalues : Variable.SameConfined tunedTwoRules.tables.inputs [12, 7] [10, 7] :=
    ⟨by decide +kernel, by decide +kernel, by decide +kernel⟩
  have hreachable : tunedTwoRules.Reachable :=
    ⟨_, _, _, _, _, _, freshTwoRules, _, build_twoRules, rfl⟩
  obtain ⟨hother, -, hclamped⟩ :=
    evaluate_no_residue (tunedTwoRules.evaluate_cleared [1, 2]) hvalues
  exact ⟨by decide +kernel, hother, hclamped hreachable⟩

end Controller

end FuzzyInference
