import FuzzyInference.Proofs.Lending
import FuzzyInference.Proofs.Residue

/-!
# One engine that lives on

A controller sets up a new engine for every call and keeps of it what it is asked to keep. The other
way to use the library is to set up one engine and to work with it for good. This file shows that
nothing is lost on the way through the controller: after configurations that succeed, changes of
the weights and evaluations, the two hold the same tables and the same settings and answer alike
(`Controller.refines_longLived`).

The relation between the two is an equation. An engine that lived on still knows of its last
inference, which an engine that is set up anew does not. Without that knowledge (`Engine.renewed`)
it is the engine that the controller would set up next (`Controller.fresh`). Every call keeps this
equation (`Controller.Change.renewed`), since settings do not look at what is known of an inference,
and a cycle begins by forgetting it.
-/

set_option autoImplicit false

namespace FuzzyInference

variable {α : Type}

/-- A call that is meant to last: a configuration by settings that succeeds, a change of the
weights, or an evaluation. -/
def Request.Lasting : Request α → Prop
  | .configure cs (.ok ()) => ∀ c ∈ cs, c.Configures
  | .setWeights _ | .evaluate _ => True
  | _ => False

/-- What an engine that lives on has to do for such a call. -/
def Request.commands : Request α → List (Command α)
  | .configure cs _ => cs
  | .setWeights ws => [.setWeights ws]
  | .evaluate values => Engine.cycle values
  | .setConfig _ | .session _ => []

namespace Engine

/-- The engine with the same tables and settings and nothing known of an inference. -/
def renewed (e : Engine α) : Engine α := { e with completed := 0, status := .notRun }

/-- The engine with values written to its inputs. -/
def assigned (e : Engine α) (values : List α) : Engine α :=
  { e with inputs := Variable.assign e.inputs values }

variable [Scalar α]

/-- The crisp values after a cycle on the given input values, or why it failed. -/
def answer (e : Engine α) (values : List α) : Except (EngineError α) (List α) :=
  (e.runUntilError (cycle values)).2.map fun _ =>
    (e.runUntilError (cycle values)).1.outputs.map fun out => out.value

/-! ## Settings and cycles -/

theorem perform_renewed (e : Engine α) {c : Command α} (hc : c.Configures) :
    e.renewed.perform c = ((e.perform c).1.renewed, (e.perform c).2) := by
  have hrenewed : ∀ e : Engine α,
      e.renewed = e.withRest { e.rest with completed := 0, status := .notRun } := fun _ => rfl
  rw [hrenewed, hrenewed, perform_rest e hc]
  exact e.perform_withRest _ hc

theorem run_renewed (e : Engine α) {cs : List (Command α)} (hcs : ∀ c ∈ cs, c.Configures) :
    e.renewed.run cs = (e.run cs).renewed := by
  induction cs generalizing e with
  | nil => rfl
  | cons c cs ih =>
      obtain ⟨hc, hcs⟩ := List.forall_mem_cons.1 hcs
      rw [run, run, perform_renewed e hc]
      exact ih _ hcs

/-- A cycle does not look at what is known of an earlier one. -/
theorem cycled_renewed (e : Engine α) : e.renewed.cycled = e.cycled := rfl

/-- A value goes into the variable at its place. -/
theorem perform_setInput {e : Engine α} {before after : List (Variable α)} {v : Variable α}
    (h : e.inputs = before ++ v :: after) (x : α) :
    e.perform (.setInput before.length x) =
      ({ e with inputs := before ++ { v with value := x } :: after }, .ok ()) := by
  have hslot : slot (α := α) .input (before.length : Int) e.inputs.length = .ok before.length := by
    have hrange : 0 ≤ (before.length : Int) ∧ (before.length : Int) < e.inputs.length := by
      rw [h, List.length_append, List.length_cons]
      omega
    rw [slot, if_pos hrange]
    rfl
  have hmodify : (e.inputs.modify before.length fun v => { v with value := x }) =
      before ++ { v with value := x } :: after := by
    rw [h]
    exact List.modifyTailIdx_add (List.modifyHead _) 0 before (v :: after)
  show e.settled (slot .input (before.length : Int) e.inputs.length >>= _) = _
  rw [hslot, ← hmodify]
  rfl

/-- The values that a cycle begins with go into the inputs, one after the other. -/
theorem run_assign (cs : List (Command α)) {e : Engine α} {before vs : List (Variable α)}
    {xs : List α} (h : e.inputs = before ++ vs) (hlength : xs.length ≤ vs.length) :
    e.run ((xs.zipIdx before.length).map (fun v => .setInput v.2 v.1) ++ cs) =
        ({ e with inputs := before ++ Variable.assign vs xs } : Engine α).run cs ∧
      e.runUntilError ((xs.zipIdx before.length).map (fun v => .setInput v.2 v.1) ++ cs) =
        ({ e with inputs := before ++ Variable.assign vs xs } : Engine α).runUntilError cs := by
  induction xs generalizing e before vs with
  | nil =>
      have hassign : Variable.assign vs ([] : List α) = vs := by cases vs <;> rfl
      rw [hassign, ← h]
      exact ⟨rfl, rfl⟩
  | cons x xs ih =>
      cases vs with
      | nil => cases hlength
      | cons v vs =>
          -- the variable that was written joins those before it
          have hjoined : ({ e with inputs := before ++ { v with value := x } :: vs } :
              Engine α).inputs = (before ++ [{ v with value := x }]) ++ vs := by
            rw [List.append_assoc]
            rfl
          have hnext := ih hjoined (Nat.le_of_succ_le_succ hlength)
          rw [List.length_append, List.append_assoc] at hnext
          rw [List.zipIdx_cons, List.map_cons, List.cons_append, run, runUntilError,
            perform_setInput h x]
          exact hnext

/-- The cycle on input values is that of the engine with the values in its inputs. -/
theorem run_cycle {e : Engine α} {values : List α} (h : values.length = e.inputs.length) :
    e.run (cycle values) = (e.assigned values).cycled.1 ∧
      e.runUntilError (cycle values) = (e.assigned values).cycled := by
  have hinputs : e.inputs = [] ++ e.inputs := rfl
  obtain ⟨hrun, hrunUntilError⟩ :=
    run_assign [.fuzzify, .inference, .defuzzify] hinputs (Nat.le_of_eq h)
  exact ⟨hrun.trans (run_cycled _), hrunUntilError.trans (runUntilError_cycle _)⟩

end Engine

namespace Controller

variable [Scalar α]

/-! ## The next engine -/

/-- After a configuration that is kept the next engine is the one that was configured. -/
theorem fresh_configured (s : Controller α) {cs : List (Command α)}
    (hcs : ∀ c ∈ cs, c.Configures) :
    ({ s with
      tables := (s.fresh.run cs).toTables, config := (s.fresh.run cs).config } :
        Controller α).fresh = s.fresh.run cs := by
  have hrest := s.fresh.run_rest hcs
  have harch := s.fresh.run_architecture cs
  have hslots := s.fresh.run_slots cs
  generalize s.fresh.run cs = f at hrest harch hslots ⊢
  obtain ⟨tables, w, architecture, config, rules, weights, n, completed, status⟩ := f
  simp only [Engine.rest, fresh, Engine.Rest.mk.injEq] at hrest harch hslots
  obtain ⟨rfl, rfl, rfl, rfl, rfl, rfl⟩ := hrest
  subst harch
  rw [fresh]
  dsimp only
  rw [hslots]

/-- After an evaluation the next engine is the one that carried out the cycle, but for what it knows
of it. -/
theorem fresh_evaluated (s : Controller α) (values : List α) :
    ({ s with tables := (s.assigned values).fresh.cycled.1.toTables } : Controller α).fresh =
      (s.assigned values).fresh.cycled.1.renewed := by
  have hslots : (s.assigned values).fresh.cycled.1.strengths.length =
      s.tables.strengths.length := by
    rw [← Engine.run_cycled]
    exact Engine.run_slots _ _
  rw [fresh, Engine.renewed, Engine.cycled_eq]
  dsimp only
  rw [hslots]
  rfl

/-! ## The simulation -/

variable {s s' : Controller α} {r : Request α} {e : Engine α}

omit [Scalar α] in
/-- The inputs of the two are the same, and so the values of a cycle go to the same places. -/
theorem inputs_of_renewed (h : e.renewed = s.fresh) : e.inputs = s.tables.inputs :=
  congrArg (fun e => e.inputs) h

theorem cycled_of_renewed (h : e.renewed = s.fresh) (values : List α) :
    (e.assigned values).cycled = (s.assigned values).fresh.cycled := by
  have hassigned : (e.assigned values).renewed = (s.assigned values).fresh := by
    show { e.renewed with inputs := Variable.assign e.inputs values } = _
    rw [h, inputs_of_renewed h]
    rfl
  rw [← Engine.cycled_renewed, hassigned]

/-- A call and its commands keep the two together. -/
theorem Change.renewed (hchange : Change s r s') (hr : r.Lasting) (hsized : r.Sized s.script)
    (h : e.renewed = s.fresh) : (e.run r.commands).renewed = s'.fresh := by
  cases hchange with
  | refused _ | config _ | dropped _ _ | session _ => exact hr.elim
  | weights ws =>
      -- there is a weight for every rule, so the engine that lived on accepts them too
      have hcount : e.ruleCount = s.tables.strengths.length :=
        congrArg Engine.ruleCount h
      have hlength : ¬ ws.length < e.ruleCount := by
        rw [hcount]
        exact Nat.not_lt.2 (Nat.le_of_eq hsized.symm)
      have hperform : e.run [.setWeights ws] = { e with weights := some ws } := by
        show (e.settled (if ws.length < e.ruleCount then _ else _)).1 = _
        rw [if_neg hlength]
        rfl
      have hrenewed : ({ e with weights := some ws } : Engine α).renewed =
          { e.renewed with weights := some ws } := rfl
      rw [Request.commands, hperform, hrenewed, h]
      rfl
  | configured cs =>
      -- both carry out the same settings, one of them knowing of an inference
      rw [fresh_configured s hr, ← h]
      exact (e.run_renewed hr).symm
  | evaluated values =>
      have hlength : values.length = e.inputs.length := by
        rw [inputs_of_renewed h]
        exact hsized
      rw [fresh_evaluated, Request.commands, (Engine.run_cycle hlength).1, cycled_of_renewed h]

/-- Calls and their commands keep the two together. -/
theorem Lendable.run_renewed {rs : List (Request α)} (h : s.Lendable)
    (hrs : ∀ r ∈ rs, r.Lasting ∧ r.Sized s.script) (he : e.renewed = s.fresh) :
    (e.run (rs.flatMap Request.commands)).renewed = (s.run rs).fresh := by
  induction rs generalizing s e with
  | nil => exact he
  | cons r rs ih =>
      obtain ⟨⟨hlasting, hsized⟩, hrs⟩ := List.forall_mem_cons.1 hrs
      have hchange := h.change_perform r
      rw [List.flatMap_cons, Engine.run_append]
      apply ih (hchange.lendable h hsized)
      · intro r' hr'
        rw [hchange.script]
        exact hrs r' hr'
      · exact hchange.renewed hlasting hsized he

/-- An evaluation answers as the cycle of an engine that lived on. -/
theorem Lendable.evaluate_eq_answer (h : s.Lendable) (he : e.renewed = s.fresh)
    {values : List α} (hvalues : values.length = s.tables.inputs.length) :
    (s.evaluate values).2 = e.answer values := by
  have hlength : values.length = e.inputs.length := by rw [inputs_of_renewed he, hvalues]
  rw [evaluate_of_engine (h.assigned values).engine_eq, Engine.answer,
    (Engine.run_cycle hlength).2, cycled_of_renewed he]

/-- Settings end alike. -/
theorem Lendable.perform_eq (h : s.Lendable) (he : e.renewed = s.fresh) {c : Command α}
    (hc : c.Configures) : ∃ f, s.engine = .ok f ∧ (f.perform c).2 = (e.perform c).2 := by
  refine ⟨s.fresh, h.engine_eq, ?_⟩
  rw [← he, Engine.perform_renewed e hc]

/-- A controller is built where an engine can be set up over new tables, and fails for the same
reason. From then on it answers as that engine, if both are asked for the same: for configurations
by settings, changes of the weights and evaluations. At any time the tables with all strengths, the
configuration and the weights are the same, a setting ends alike on both, and an evaluation gives
the same outputs or fails alike. -/
theorem refines_longLived (w : Width) (architecture : Architecture) (sizes : Sizes) (n : Nat)
    (rules : List Int) (config : Config) :
    (∀ err : EngineError α, build w architecture sizes n rules config = .error err ↔
      Engine.setup w architecture (.blank sizes n) rules n config = .error err) ∧
    ∀ s₀ : Controller α, build w architecture sizes n rules config = .ok s₀ →
      ∃ e₀, Engine.setup w architecture (.blank sizes n) rules n config = .ok e₀ ∧
        ∀ rs : List (Request α), (∀ r ∈ rs, r.Lasting ∧ r.Sized s₀.script) →
          ∀ s e, s₀.run rs = s → e₀.run (rs.flatMap Request.commands) = e →
            (s.tables = e.toTables ∧ s.config = e.config ∧ s.weights = e.weights) ∧
            (∀ c : Command α, c.Configures →
              ∃ f, s.engine = .ok f ∧ (f.perform c).2 = (e.perform c).2) ∧
            ∀ values, values.length = sizes.inputs →
              (s.evaluate values).2 = e.answer values := by
  have hcount : (Tables.blank sizes n : Tables α).strengths.length = n := List.length_replicate
  have hbuild : build w architecture sizes n rules config =
      (Engine.setup w architecture (.blank sizes n) rules n config).map fun _ =>
        (⟨w, architecture, config, .blank sizes n, rules, none⟩ : Controller α) := by
    unfold build engine
    dsimp only
    rw [hcount]
    cases Engine.setup w architecture (Tables.blank sizes n : Tables α) rules n config <;> rfl
  constructor
  · intro err
    rw [hbuild]
    cases Engine.setup w architecture (Tables.blank sizes n : Tables α) rules n config with
    | error err' =>
        show (Except.error err' : Except (EngineError α) (Controller α)) = .error err ↔
          (Except.error err' : Except (EngineError α) (Engine α)) = .error err
        rw [Except.error.injEq, Except.error.injEq]
    | ok e => exact ⟨nofun, nofun⟩
  · intro s₀ hs₀
    obtain ⟨hfields, hlendable, hscript⟩ := lendable_of_build hs₀
    have hfresh : Engine.setup w architecture (.blank sizes n) rules n config =
        .ok s₀.fresh := by
      have hengine := hlendable.engine_eq
      rw [hfields] at hengine ⊢
      unfold engine at hengine
      dsimp only at hengine
      rw [hcount] at hengine
      obtain ⟨e, hsetup, he⟩ := exists_of_bind_ok hengine
      rw [hsetup]
      exact he
    refine ⟨s₀.fresh, hfresh, ?_⟩
    rintro rs hrs s e rfl rfl
    have hsized : ∀ r ∈ rs, r.Sized s₀.script := fun r hr => (hrs r hr).2
    have hlater := hlendable.lendable_run hsized
    have htogether := hlendable.run_renewed hrs (e := s₀.fresh) rfl
    refine ⟨⟨?_, ?_, ?_⟩, ?_, ?_⟩
    · exact (congrArg Engine.toTables htogether).symm
    · exact (congrArg Engine.config htogether).symm
    · exact (congrArg Engine.weights htogether).symm
    · intro c hc
      exact hlater.perform_eq htogether hc
    · intro values hvalues
      apply hlater.evaluate_eq_answer htogether
      rw [hvalues]
      have hscript' := (hlendable.script_run hsized).trans hscript
      exact (congrArg (fun p => p.sizes.inputs) hscript').symm

/-- Calls on the two rules that are meant to last: ranges, curves and a method, weights, an
evaluation, and another configuration with a value for an input. -/
def lastingRequests : List (Request Float) :=
  [.configure
      [.setupInput 0 0 10, .setupOutput 0 0 30,
        .setInputMembership 0 0 (.curve .triangular) [0, 5, 10] 1,
        .setOutputMembership 0 0 (.curve .triangular) [0, 10, 20] 1, .setMethod .centroid]
      (.ok ()),
    .setWeights [1, 0.5], .evaluate [3, 0], .configure [.setEvalPoints 7, .setInput 1 2] (.ok ())]

theorem refines_longLived_twoRules :
    (∀ r ∈ lastingRequests, r.Lasting ∧ r.Sized freshTwoRules.script) ∧
      ((freshTwoRules.run lastingRequests).evaluate [5, 1]).2 =
        (freshTwoRules.fresh.run (lastingRequests.flatMap Request.commands)).answer [5, 1] := by
  have hrs : ∀ r ∈ lastingRequests, r.Lasting ∧ r.Sized freshTwoRules.script := by
    simp [lastingRequests, Request.Lasting, Request.Sized, Command.Configures, freshTwoRules,
      script, Tables.blank, Tables.sizes]
  obtain ⟨e₀, hsetup, hrefines⟩ := (refines_longLived .byte .mamdani ⟨2, 2, 2, 2⟩ 2 _ _).2
    freshTwoRules build_twoRules
  have he₀ : e₀ = freshTwoRules.fresh := by
    cases hsetup
    rfl
  subst he₀
  obtain ⟨-, -, hevaluate⟩ := hrefines lastingRequests hrs _ _ rfl rfl
  exact ⟨hrs, hevaluate [5, 1] rfl⟩

end Controller

end FuzzyInference
