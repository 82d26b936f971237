import FuzzyInference.Controller
import FuzzyInference.Proofs.ConsequentRun

/-!
# When defuzzification is valid

`Stands` says of a history that its last inference succeeded and that no fuzzification came after
it. `status_run_iff` shows that the status of an engine records exactly this, by an induction over
the history that splits off its first command (`stands_cons`).

Defuzzification looks at the status only. That it cannot fail once it has begun needs an invariant
(`Confirmed`): an engine whose status is `succeeded` has a stream that the premise walk accepts, and
on such a stream the consequent walk succeeds. Every command keeps the script, so no setting can
break it.
-/

set_option autoImplicit false

namespace FuzzyInference

namespace Engine

variable {α : Type}

/-! ## The last inference of a history -/

section Arithmetic

variable [Scalar α]

/-- Commands that neither infer nor fuzzify. -/
def Quiet (cs : List (Command α)) : Prop := ∀ c ∈ cs, c ≠ .inference ∧ c ≠ .fuzzify

/-- The last inference of the history succeeded, and no fuzzification came after it. -/
def Stands (e : Engine α) (cs : List (Command α)) : Prop :=
  ∃ before after, cs = before ++ .inference :: after ∧ Quiet after ∧
    (e.run before).inference.2 = .ok ()

omit [Scalar α] in
theorem quiet_nil : Quiet ([] : List (Command α)) := fun _ hc => absurd hc List.not_mem_nil

omit [Scalar α] in
theorem quiet_cons (c : Command α) (cs : List (Command α)) :
    Quiet (c :: cs) ↔ (c ≠ .inference ∧ c ≠ .fuzzify) ∧ Quiet cs := List.forall_mem_cons

theorem not_stands_nil (e : Engine α) : ¬ Stands e [] := by
  rintro ⟨before, after, hcs, -⟩
  simp at hcs

/-- The inference that stands is the first command or a later one. -/
theorem stands_cons (e : Engine α) (c : Command α) (cs : List (Command α)) :
    Stands e (c :: cs) ↔
      Stands (e.perform c).1 cs ∨ (c = .inference ∧ Quiet cs ∧ e.inference.2 = .ok ()) := by
  constructor
  · rintro ⟨before, after, hcs, hquiet, hok⟩
    cases before with
    | nil =>
        obtain ⟨hc, rfl⟩ := List.cons.inj hcs
        exact Or.inr ⟨hc, hquiet, hok⟩
    | cons b before =>
        obtain ⟨rfl, rfl⟩ := List.cons.inj hcs
        exact Or.inl ⟨before, after, rfl, hquiet, hok⟩
  · rintro (⟨before, after, rfl, hquiet, hok⟩ | ⟨rfl, hquiet, hok⟩)
    · exact ⟨c :: before, after, rfl, hquiet, hok⟩
    · exact ⟨[], cs, rfl, hquiet, hok⟩

/-- The status records whether an inference stands, of the history or from before it. -/
theorem status_run_iff (e : Engine α) (cs : List (Command α)) :
    (e.run cs).status = .succeeded ↔ Stands e cs ∨ (e.status = .succeeded ∧ Quiet cs) := by
  induction cs generalizing e with
  | nil => simp [run, not_stands_nil, quiet_nil]
  | cons c cs ih =>
      rw [run, ih, stands_cons, quiet_cons]
      rcases perform_cases e c with rfl | rfl | rfl | ⟨hf, hi, hsetting⟩
      -- fuzzification forgets what was, and so does every inference
      · have hstatus : (e.perform .fuzzify).1.status = .notRun := rfl
        simp [hstatus]
      · have hstatus : (e.perform .inference).1.status = .succeeded ↔ e.inference.2 = .ok () :=
          inference_status_iff e
        rw [hstatus]
        simp [and_comm]
      -- the other commands keep the status
      · have hstatus : (e.perform .defuzzify).1.status = e.status := by
          show e.defuzzify.1.status = e.status
          rw [(outputsOnly_defuzzify e).eq]
        rw [hstatus]
        simp
      · rw [hsetting.keeps.status]
        simp [hf, hi]

/-! ## A status that can be relied on -/

/-- If the status is `succeeded`, the walk over the premises accepts the stream, and all rules are
complete. -/
def Confirmed (e : Engine α) : Prop :=
  e.status = .succeeded → e.premises.outcome = .ok () ∧ e.completed = e.ruleCount

omit [Scalar α] in
/-- Where the script and what inference has left behind are the same, nothing changes. -/
theorem Confirmed.of_eq {e e' : Engine α} (h : e.Confirmed) (hscript : e'.script = e.script)
    (hcompleted : e'.completed = e.completed) (hstatus : e'.status = e.status) :
    e'.Confirmed := by
  intro hsucceeded
  obtain ⟨hok, hcount⟩ := h (hstatus ▸ hsucceeded)
  refine ⟨by rw [premises_eq_of_script hscript, hok], ?_⟩
  rw [hcompleted, hcount]
  exact congrArg Script.ruleCount hscript.symm

theorem inference_confirmed (e : Engine α) : e.inference.1.Confirmed := by
  intro hsucceeded
  have hok : e.premises.outcome = .ok () :=
    (inference_ok_iff e).1 ((inference_status_iff e).1 hsucceeded)
  obtain ⟨items, q, left, -, -, -, hcompleted⟩ := premiseWalk_ok hok
  have hscript := inference_script e
  refine ⟨by rw [premises_eq_of_script hscript, hok], ?_⟩
  rw [inference_completed]
  exact hcompleted.trans (congrArg Script.ruleCount hscript.symm)

theorem perform_confirmed (e : Engine α) (c : Command α) (h : e.Confirmed) :
    (e.perform c).1.Confirmed := by
  rcases perform_cases e c with rfl | rfl | rfl | ⟨-, -, hsetting⟩
  · intro hsucceeded
    cases hsucceeded
  · exact inference_confirmed e
  · have hframe := outputsOnly_defuzzify e
    have hcompleted : e.defuzzify.1.completed = e.completed := by rw [hframe.eq]
    have hstatus : e.defuzzify.1.status = e.status := by rw [hframe.eq]
    exact h.of_eq hframe.script hcompleted hstatus
  · have hkeeps := hsetting.keeps
    exact h.of_eq hkeeps.script hkeeps.completed hkeeps.status

theorem run_confirmed {e : Engine α} (h : e.Confirmed) (cs : List (Command α)) :
    (e.run cs).Confirmed :=
  run_induction perform_confirmed h cs

omit [Scalar α] in
/-- The walk over the consequents accepts what the walk over the premises has accepted. -/
theorem Confirmed.consequences_ok {e : Engine α} (h : e.Confirmed)
    (hstatus : e.status = .succeeded) : e.consequences.outcome = .ok () := by
  rw [consequences, consequentWalk_eq_of_ok (h hstatus).1]

/-- Once defuzzification has begun it does not fail. -/
theorem Confirmed.defuzzify_ok {e : Engine α} (h : e.Confirmed) (hstatus : e.status = .succeeded) :
    e.defuzzify.2 = .ok () :=
  (folds_defuzzify hstatus).ok (h.consequences_ok hstatus)

theorem Confirmed.defuzzify_ok_iff {e : Engine α} (h : e.Confirmed) :
    e.defuzzify.2 = .ok () ↔ e.status = .succeeded := by
  constructor
  · intro hok
    by_cases hstatus : e.status = .succeeded
    · exact hstatus
    · rw [defuzzify_refused hstatus] at hok
      cases hok
  · exact h.defuzzify_ok

/-! ## A whole cycle -/

/-- A cycle that fails has failed before it touched an output. -/
theorem runUntilError_outputs {e : Engine α} {err : EngineError α}
    (h : (e.runUntilError [.fuzzify, .inference, .defuzzify]).2 = .error err) :
    (e.runUntilError [.fuzzify, .inference, .defuzzify]).1.outputs = e.outputs := by
  have houtputs : e.fuzzify.inference.1.outputs = e.outputs := by
    obtain ⟨status, hengine, -⟩ := e.fuzzify.inference_eq
    rw [hengine]
    rfl
  have hconfirmed := inference_confirmed e.fuzzify
  have hstatus := inference_status_iff e.fuzzify
  simp only [runUntilError, perform] at h ⊢
  rcases hinference : e.fuzzify.inference with ⟨e', result⟩
  rw [hinference] at houtputs hconfirmed hstatus
  simp only [hinference] at h ⊢
  cases result with
  | error err' => exact houtputs
  | ok u =>
      -- after a successful inference the cycle succeeds, against the hypothesis
      have hok : e'.defuzzify.2 = .ok () := hconfirmed.defuzzify_ok (hstatus.2 rfl)
      rcases hdefuzzify : e'.defuzzify with ⟨e'', result'⟩
      rw [hdefuzzify] at hok
      have hresult : result' = .ok () := hok
      simp only [hdefuzzify, hresult] at h
      cases h

end Arithmetic

end Engine

namespace Controller

variable {α : Type}

/-- The engine of a controller works on the controller's tables. -/
theorem engine_ok {s : Controller α} {e : Engine α} (h : s.engine = .ok e) :
    e.toTables = s.tables := by
  obtain ⟨e₀, hsetup, h⟩ := exists_of_bind_ok h
  obtain ⟨-, -, -, rfl⟩ := Engine.setup_ok hsetup
  cases hweights : s.weights with
  | none =>
      simp only [hweights] at h
      cases h
      rfl
  | some ws =>
      simp only [hweights] at h
      obtain ⟨-, rfl⟩ := Engine.setWeights_ok h
      rfl

/-- An evaluation that fails leaves all outputs as they were. -/
theorem evaluate_error_outputs [Scalar α] {s : Controller α} {values : List α}
    {err : EngineError α} (h : (s.evaluate values).2 = .error err) :
    (s.evaluate values).1.tables.outputs = s.tables.outputs := by
  unfold evaluate session at h ⊢
  dsimp only at h ⊢
  generalize hassigned : ({ s with tables := { s.tables with
    inputs := Variable.assign s.tables.inputs values } } : Controller α) = assigned at h ⊢
  have houtputs : assigned.tables.outputs = s.tables.outputs := by rw [← hassigned]
  cases hengine : assigned.engine with
  | error err' => exact houtputs
  | ok e =>
      have hlent : e.outputs = s.tables.outputs := by
        rw [engine_ok hengine, houtputs]
      rcases hrun : e.runUntilError [.fuzzify, .inference, .defuzzify] with ⟨e', result⟩
      simp only [hengine, hrun] at h ⊢
      cases result with
      | error err' =>
          have hcycle : (e.runUntilError [.fuzzify, .inference, .defuzzify]).2 = .error err' := by
            rw [hrun]
          have hkept := Engine.runUntilError_outputs hcycle
          rw [hrun] at hkept
          exact hkept.trans hlent
      | ok u => cases h

end Controller

/-! ## The protocol -/

namespace Engine

variable {α : Type} [Scalar α]

/-- After any history since setup, defuzzification succeeds exactly if an inference stands, and is
refused without any change otherwise. It cannot fail midway, and none of the consequents that it
visits misses a slot or a table entry. A status `succeeded` means that all rules are complete, and
an evaluation that fails leaves all outputs as they were. -/
theorem defuzzify_ok_iff_stands {w : Width} {architecture : Architecture} {tables : Tables α}
    {stream : List Int} {n : Nat} {config : Config} {e₀ e : Engine α}
    (hsetup : setup w architecture tables stream n config = .ok e₀) (cs : List (Command α))
    (he : e₀.run cs = e) :
    (e.defuzzify.2 = .ok () ↔ Stands e₀ cs) ∧
      (¬ Stands e₀ cs → e.defuzzify = (e, .error .inferenceNotValid)) ∧
      (∀ c ∈ e.consequences.consequents, c.rule < e.strengths.length ∧
        c.assertion.tag < e.outputs.length ∧
        c.assertion.reference.index < e.outputMemberships.length) ∧
      (e.status = .succeeded → e.completed = e.ruleCount) ∧
      ∀ (s : Controller α) (values : List α) (err : EngineError α),
        (s.evaluate values).2 = .error err →
          (s.evaluate values).1.tables.outputs = s.tables.outputs := by
  subst he
  have hnotRun : e₀.status = .notRun := by
    obtain ⟨-, -, -, rfl⟩ := setup_ok hsetup
    rfl
  have hstatus : (e₀.run cs).status = .succeeded ↔ Stands e₀ cs := by
    rw [status_run_iff, hnotRun]
    simp
  have hconfirmed : (e₀.run cs).Confirmed := by
    refine run_confirmed ?_ cs
    intro hsucceeded
    rw [hnotRun] at hsucceeded
    cases hsucceeded
  refine ⟨hconfirmed.defuzzify_ok_iff.trans hstatus, ?_, ?_, ?_, ?_⟩
  · intro hnot
    exact defuzzify_refused fun hsucceeded => hnot (hstatus.1 hsucceeded)
  · intro c hc
    obtain ⟨hrule, htag, hindex⟩ := consequences_applies _ c hc
    exact ⟨Nat.lt_of_lt_of_le hrule (serves_run hsetup cs).bound.slots, htag, hindex⟩
  · intro hsucceeded
    exact (hconfirmed hsucceeded).2
  · intro s values err h
    exact Controller.evaluate_error_outputs h

/-- An inference and a setting later, defuzzification succeeds. -/
theorem defuzzify_ok_iff_stands_twoRules :
    (twoRuleEngine.run [.inference, .setEvalPoints 5]).defuzzify.2 = .ok () :=
  (defuzzify_ok_iff_stands setup_twoRules [.inference, .setEvalPoints 5] rfl).1.2
    ⟨[], [.setEvalPoints 5], rfl, by simp [Quiet], inference_twoRules⟩

end Engine

end FuzzyInference
