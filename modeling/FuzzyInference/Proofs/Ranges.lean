import FuzzyInference.Proofs.Double
import FuzzyInference.Proofs.Sessions
import FuzzyInference.Proofs.Strength
import FuzzyInference.Proofs.Weighted

/-!
# Degrees and values stay in range

Undefined and infinite numbers can come in anywhere: as inputs, heights, weights, coefficients, or
from a custom shape. They do not come out. Strengths are confined by the operators and multiplied by
a confined weight, sampled degrees are confined by the aggregation, and crisp values by the range
of their output.

Two invariants carry this over histories. `Graded` says that the strengths of a successful inference
lie between 0 and 1, and `Ranged` that the range of every output is defined and not empty. Only one
setting changes a range, and it checks the new one. `Output.Reachable` names the outputs that can be
had at all, through any engines and tables.
-/

set_option autoImplicit false

namespace FuzzyInference

variable {α : Type} [Scalar α]

/-- Operators fold degrees into a degree, whatever the other operands are. -/
theorem within_foldl_apply [Scalar.Lawful α] {β : Type} (op : β → Operator) (x : β → α)
    (l : List β) {y : α} (hy : Scalar.Within 0 1 y) :
    Scalar.Within 0 1 (l.foldl (fun y b => (op b).apply y (x b)) y) := by
  induction l generalizing y with
  | nil => exact hy
  | cons b l ih => exact ih ((op b).within_apply y (x b))

theorem Rule.within_strength [Scalar.Lawful α] (config : Config) (degree : Reference → α)
    (r : Rule) : Scalar.Within 0 1 (r.strength config degree) :=
  within_foldl_apply (fun j : Connective × Assertion => j.1.operator config)
    (fun j => degree j.2.reference) r.joined
    (Operator.sum.within_apply 0 _)

theorem Firing.within_degree [Scalar.Lawful α] (config : Config) (memberships : List (Membership α))
    (fs : List (Firing α)) (v : Variable α) :
    Scalar.Within 0 1 (Firing.degree config memberships fs v) :=
  within_foldl_apply (fun _ => config.aggregation) (fun f => f.implied config memberships v) fs
    Scalar.within_zero

namespace Engine

/-! ## Strengths -/

theorem within_weight [Scalar.Lawful α] (e : Engine α) (i : Nat) :
    Scalar.Within 0 1 (e.weight i) := by
  rw [weight]
  cases e.weights.bind fun ws => ws[i]? with
  | none => exact Scalar.within_one
  | some x => exact Scalar.within_unit x

/-- Inference over a stream that spells rules succeeds and stores the strength of each of them. -/
theorem inference_spells {e : Engine α} (hbound : e.Bound) {rules : List Rule}
    (h : Spells e.width e.sizes e.ruleCount e.rules rules) :
    e.inference.2 = .ok () ∧ e.inference.1.strengths = e.stored e.strengths rules := by
  obtain ⟨items, rest, steps, hreads, hwalk⟩ := h.exists_reads hbound.fit
  have hpremises : e.premises = ⟨steps, e.ruleCount, .ok ()⟩ := hwalk
  rw [inference_ok_iff, inference_strengths, hpremises]
  exact ⟨rfl, congrArg Composition.strengths (hreads.foldl_compose e hbound.slots)⟩

/-- If the status is `succeeded`, the strength of every rule is a degree. -/
def Graded (e : Engine α) : Prop :=
  e.status = .succeeded → ∀ i, i < e.ruleCount → ∃ s, e.strengths[i]? = some s ∧ Scalar.Within 0 1 s

theorem Graded.of_eq {e e' : Engine α} (h : e.Graded) (hscript : e'.script = e.script)
    (hstrengths : e'.strengths = e.strengths) (hstatus : e'.status = e.status) : e'.Graded := by
  have hcount : e'.ruleCount = e.ruleCount := congrArg Script.ruleCount hscript
  unfold Graded
  rw [hcount, hstrengths, hstatus]
  exact h

section Laws

variable [Scalar.Lawful α]

theorem inference_graded {e : Engine α} (hbound : e.Bound) : e.inference.1.Graded := by
  intro hsucceeded i hi
  have hok : e.premises.outcome = .ok () :=
    (inference_ok_iff e).1 ((inference_status_iff e).1 hsucceeded)
  obtain ⟨rules, hrules⟩ := exists_spells hok
  have hcount : e.inference.1.ruleCount = e.ruleCount :=
    congrArg Script.ruleCount (inference_script e)
  have hlt : i < rules.length := by rwa [hrules.count, ← hcount]
  rw [(inference_spells hbound hrules).2,
    getElem?_stored_of_getElem? e e.strengths (List.getElem?_eq_getElem hlt)]
  exact ⟨_, rfl, Scalar.Lawful.within_mul (Rule.within_strength ..) (e.within_weight i)⟩

theorem perform_graded (e : Engine α) (c : Command α) (hbound : e.Bound) (h : e.Graded) :
    (e.perform c).1.Graded := by
  rcases perform_cases e c with rfl | rfl | rfl | ⟨-, -, hsetting⟩
  · intro hsucceeded
    cases hsucceeded
  · exact inference_graded hbound
  · have hframe := outputsOnly_defuzzify e
    have hstrengths : e.defuzzify.1.strengths = e.strengths := by rw [hframe.eq]
    have hstatus : e.defuzzify.1.status = e.status := by rw [hframe.eq]
    exact h.of_eq hframe.script hstrengths hstatus
  · have hkeeps := hsetting.keeps
    exact h.of_eq hkeeps.script hkeeps.strengths hkeeps.status

end Laws

/-! ## Ranges of outputs -/

theorem range_contributeAll (e : Engine α) (fs : List (Firing α)) (out : Output α) :
    (e.contributeAll fs out).range = out.range := by
  induction fs generalizing out with
  | nil => rfl
  | cons f fs ih =>
      refine (ih _).trans ?_
      unfold contribute
      cases e.architecture <;> rfl

theorem range_crisp (e : Engine α) (o : Nat) (out : Output α) :
    (e.crisp o out).range = out.range := by
  by_cases harch : e.architecture = .mamdani
  · rw [crisp_mamdani harch, Output.range_settle, Output.traced]
    split
    · exact (Output.range_rescan ..).trans (Output.range_sweep ..)
    · exact Output.range_sweep ..
  · rw [crisp_weighted harch, Output.range_settle]
    exact range_contributeAll ..

/-- The range of every output is defined and not empty. -/
def Ranged (e : Engine α) : Prop := ∀ out ∈ e.outputs, out.lower < out.upper

omit [Scalar α] in
theorem forall_mem_modify {β : Type} {P : β → Prop} {l : List β} {f : β → β} (o : Nat)
    (h : ∀ x ∈ l, P x) (hf : ∀ x ∈ l, P (f x)) : ∀ x ∈ l.modify o f, P x := by
  intro x hx
  rw [modify_eq_mapIdx, List.mem_mapIdx] at hx
  obtain ⟨i, hi, rfl⟩ := hx
  split
  · exact hf _ (List.getElem_mem hi)
  · exact h _ (List.getElem_mem hi)

theorem defuzzify_ranged {e : Engine α} (hconfirmed : e.Confirmed) (h : e.Ranged) :
    e.defuzzify.1.Ranged := by
  by_cases hstatus : e.status = .succeeded
  · rw [defuzzify_eq hstatus (hconfirmed.consequences_ok hstatus)]
    intro out hout
    obtain ⟨o, ho, rfl⟩ := List.mem_mapIdx.1 hout
    obtain ⟨hlower, hupper⟩ := Prod.mk.inj (e.range_crisp o e.outputs[o])
    rw [hlower, hupper]
    exact h _ (List.getElem_mem ho)
  · rw [defuzzify_refused hstatus]
    exact h

section Laws

variable [Scalar.Lawful α]

theorem checkRange_ok {lower upper : α} (h : checkRange lower upper = .ok ()) :
    lower < upper := by
  unfold checkRange at h
  split at h
  · cases h
  · rename_i hnot
    obtain ⟨hlower, hnot⟩ := not_or.1 hnot
    obtain ⟨hupper, hnot⟩ := not_or.1 hnot
    exact Scalar.lt_of_not_le hlower hupper hnot

theorem Setting.ranged {e e' : Engine α} (hsetting : Setting e e') (h : e.Ranged) :
    e'.Ranged := by
  cases hsetting with
  | outputRange o hrange => exact forall_mem_modify o h fun out _ => checkRange_ok hrange
  | region o _ => exact forall_mem_modify o h h
  | _ => exact h

theorem perform_ranged (e : Engine α) (c : Command α) (hconfirmed : e.Confirmed)
    (h : e.Ranged) : (e.perform c).1.Ranged := by
  rcases perform_cases e c with rfl | rfl | rfl | ⟨-, -, hsetting⟩
  · exact h
  · obtain ⟨status, hengine, -⟩ := e.inference_eq
    show e.inference.1.Ranged
    rw [hengine]
    exact h
  · exact defuzzify_ranged hconfirmed h
  · exact hsetting.ranged h

end Laws

end Engine

/-! ## Outputs that can be had -/

/-- An output that is new, or that some engine has left behind which was set up over such
outputs. Nothing is said about the other tables. -/
inductive Output.Reachable : Output α → Prop where
  | blank : Output.Reachable .blank
  | engine {w : Width} {architecture : Architecture} {tables : Tables α} {stream : List Int}
      {n : Nat} {config : Config} {e₀ : Engine α} {out : Output α}
      (htables : ∀ out ∈ tables.outputs, Output.Reachable out)
      (hsetup : Engine.setup w architecture tables stream n config = .ok e₀)
      (cs : List (Command α)) (hout : out ∈ (e₀.run cs).outputs) : Output.Reachable out

namespace Engine

variable [Scalar.Lawful α] {w : Width} {architecture : Architecture} {tables : Tables α}
  {stream : List Int} {n : Nat} {config : Config} {e₀ : Engine α}

theorem run_ranged (hsetup : setup w architecture tables stream n config = .ok e₀)
    (htables : ∀ out ∈ tables.outputs, out.lower < out.upper) (cs : List (Command α)) :
    (e₀.run cs).Ranged := by
  have hrun := run_induction (P := fun e => e.Confirmed ∧ e.Ranged)
    (fun e c h => ⟨perform_confirmed e c h.1, perform_ranged e c h.1 h.2⟩)
    (e := e₀) ⟨confirmed_of_setup hsetup, ?_⟩ cs
  · exact hrun.2
  · obtain ⟨-, -, -, rfl⟩ := setup_ok hsetup
    exact htables

theorem run_graded (hsetup : setup w architecture tables stream n config = .ok e₀)
    (cs : List (Command α)) : (e₀.run cs).Graded := by
  have hrun := run_induction (P := fun e => e.Bound ∧ e.Graded)
    (fun e c h => ⟨perform_bound e c h.1, perform_graded e c h.1 h.2⟩)
    (e := e₀) ⟨bound_of_setup hsetup, ?_⟩ cs
  · exact hrun.2
  · obtain ⟨-, -, -, rfl⟩ := setup_ok hsetup
    intro hsucceeded
    cases hsucceeded

theorem Ready.graded {e : Engine α} {rules : List Rule} (h : e.Ready rules) : e.Graded := by
  obtain ⟨w, architecture, tables, stream, n, config, e₀, cs, hsetup, rfl⟩ := h.reached
  exact run_graded hsetup cs

end Engine

/-- Every output that can be had has a range that is defined and not empty. -/
theorem Output.Reachable.lower_lt_upper [Scalar.Lawful α] {out : Output α} (h : out.Reachable) :
    out.lower < out.upper := by
  induction h with
  | blank => exact Scalar.Lawful.neg_one_lt_one
  | engine htables hsetup cs hout ih => exact Engine.run_ranged hsetup ih cs _ hout

/-- The outputs of a controller are outputs that can be had. -/
theorem Controller.Reachable.outputs {s : Controller α} (h : s.Reachable) :
    ∀ out ∈ s.tables.outputs, out.Reachable := by
  obtain ⟨w, architecture, sizes, n, rules, config, s₀, rs, hbuild, rfl⟩ := h
  refine run_induction (P := fun s => ∀ out ∈ s.tables.outputs, out.Reachable) ?_ ?_ rs
  · intro s r hs
    obtain ⟨values, hperform⟩ := s.perform_tables r
    have hassigned : ∀ out ∈ (s.assigned values).tables.outputs, out.Reachable := hs
    rcases hperform with htables | ⟨e, ⟨e₀, cs, hsetup, rfl⟩, htables⟩
    · rw [htables]
      exact hassigned
    · rw [htables]
      exact fun out hout => .engine hassigned hsetup cs hout
  · obtain ⟨e, -, hs₀⟩ := exists_of_bind_ok hbuild
    cases hs₀
    intro out hout
    rw [List.eq_of_mem_replicate hout]
    exact .blank

namespace Engine

/-! ## A cycle -/

/-- What an engine computes in a cycle is in range: strengths and sampled degrees are degrees, and
every output has a value in its range. -/
structure InRange (e : Engine α) : Prop where
  strengths : ∀ i, i < e.ruleCount → ∃ s, e.strengths[i]? = some s ∧ Scalar.Within 0 1 s
  samples : e.architecture = .mamdani → ∀ k, k < e.config.evalPoints →
    ∃ s, e.atSample k = (s, .ok ()) ∧ ∀ out ∈ s.outputs, Scalar.Within 0 1 out.y
  resamples : e.architecture = .mamdani → ∀ o, o < e.outputs.length → ∀ k s, Halves e o k s →
    ∃ s' out, aggregate (some o) (s.modifyOutput o (Output.beginSample k e.config.evalPoints)) =
        (s', .ok ()) ∧ s'.outputs[o]? = some out ∧ Scalar.Within 0 1 out.y
  values : ∀ out ∈ e.defuzzify.1.outputs, out.lower < out.upper ∧
    Scalar.Within out.lower out.upper out.value

variable [Scalar.Lawful α]

theorem Ready.inRange {e : Engine α} {rules : List Rule} (h : e.Ready rules)
    (hgraded : e.Graded) (hranged : e.Ranged) : e.InRange := by
  refine ⟨hgraded h.status, ?_, ?_, ?_⟩
  · intro harch k hk
    refine ⟨_, h.atSample_eq harch k, fun out' hout' => ?_⟩
    obtain ⟨o, ho, rfl⟩ := List.mem_mapIdx.1 hout'
    exact Firing.within_degree ..
  · intro harch o ho k s hs
    obtain ⟨s', hs', ⟨out', hout', -, hy⟩, -⟩ :=
      h.resample_spec harch hs (List.getElem?_eq_getElem ho)
    refine ⟨s', out', hs', hout', ?_⟩
    rw [hy]
    exact Firing.within_degree ..
  · rw [defuzzify_eq h.status h.outcome_eq]
    intro out' hout'
    obtain ⟨o, ho, rfl⟩ := List.mem_mapIdx.1 hout'
    obtain ⟨hlower, hupper⟩ := Prod.mk.inj (e.range_crisp o e.outputs[o])
    have hrange : (e.crisp o e.outputs[o]).lower < (e.crisp o e.outputs[o]).upper := by
      rw [hlower, hupper]
      exact hranged _ (List.getElem_mem ho)
    exact ⟨hrange, Scalar.within_clamp hrange _⟩

theorem inRange_run {w : Width} {architecture : Architecture} {tables : Tables α}
    {stream : List Int} {n : Nat} {config : Config} {e₀ e : Engine α}
    (hsetup : setup w architecture tables stream n config = .ok e₀)
    (htables : ∀ out ∈ tables.outputs, out.Reachable) (cs : List (Command α))
    (he : e₀.run cs = e) (hok : e.defuzzify.2 = .ok ()) : e.InRange := by
  obtain ⟨rules, h⟩ := exists_ready hsetup cs he (status_of_defuzzify_ok hok)
  subst he
  exact h.inRange (run_graded hsetup cs)
    (run_ranged hsetup (fun out hout => (htables out hout).lower_lt_upper) cs)

/-- Whatever numbers an engine is given, over outputs that can be had: where defuzzification
succeeds, what the cycle computes is in range. The same holds of every evaluation of a controller
that succeeds, and every output that can be had has a range that is defined and not empty. -/
theorem cycle_in_range {w : Width} {architecture : Architecture} {tables : Tables α}
    {stream : List Int} {n : Nat} {config : Config} {e₀ e : Engine α}
    (hsetup : setup w architecture tables stream n config = .ok e₀)
    (htables : ∀ out ∈ tables.outputs, out.Reachable) (cs : List (Command α))
    (he : e₀.run cs = e) (hok : e.defuzzify.2 = .ok ()) :
    e.InRange ∧
      (∀ out : Output α, out.Reachable →
        ¬ Scalar.IsNaN out.lower ∧ ¬ Scalar.IsNaN out.upper ∧ out.lower < out.upper) ∧
      ∀ s : Controller α, s.Reachable → ∀ values outs, (s.evaluate values).2 = .ok outs →
        ∃ e' : Engine α, e'.InRange ∧ e'.architecture = s.architecture ∧
          e'.ruleCount = s.tables.strengths.length ∧
          (s.evaluate values).1.tables = e'.defuzzify.1.toTables ∧
          outs = e'.defuzzify.1.outputs.map fun out => out.value := by
  refine ⟨inRange_run hsetup htables cs he hok, ?_, ?_⟩
  · intro out hout
    have hlt := hout.lower_lt_upper
    exact ⟨(Scalar.defined_of_lt hlt).1, (Scalar.defined_of_lt hlt).2, hlt⟩
  · intro s hs values outs hevaluate
    obtain ⟨e', hengine, hinference, hdefuzzify, hs', houts⟩ := Controller.evaluate_ok hevaluate
    -- the engine of the evaluation is one that was set up over the outputs of the controller
    have hlends := (Controller.lends_engine hengine).run [.fuzzify, .inference]
    refine ⟨e'.fuzzify.inference.1, ?_, hlends.architecture, hlends.serves.ruleCount, ?_, houts⟩
    · obtain ⟨e₁, cs', hsetup', hrun⟩ := hlends
      exact inRange_run hsetup' hs.outputs cs' hrun hdefuzzify
    · rw [hs']

theorem reachable_twoRules : ∀ out ∈ twoRuleTables.outputs, out.Reachable := by
  intro out hout
  rw [List.eq_of_mem_replicate (show out ∈ List.replicate 2 .blank from hout)]
  exact .blank

theorem cycle_in_range_twoRules :
    (twoRuleEngine.run twoRuleCommands).defuzzify.2 = .ok () ∧
      (twoRuleEngine.run twoRuleCommands).InRange := by
  have hok : (twoRuleEngine.run twoRuleCommands).defuzzify.2 = .ok () :=
    (run_confirmed (confirmed_of_setup setup_twoRules) _).defuzzify_ok status_twoRules
  exact ⟨hok, (cycle_in_range setup_twoRules reachable_twoRules twoRuleCommands rfl hok).1⟩

end Engine

end FuzzyInference
