import FuzzyInference.Proofs.Lending

/-!
# What a refused setting leaves behind

A setting that is refused changes nothing (`Engine.perform_refused`). Settings that are made one
after the other up to the first that is refused leave what the ones in front of it did
(`Engine.runUntilError_refused`), and nothing takes that back. A controller whose configuration
stops in this way keeps its own configuration and weights, and is where a session of the settings in
front would have left it: ranges, membership functions and regions that were set are set. It is as
before only if these settings touched no table, as parameters do not (`Engine.run_tunes`).
-/

set_option autoImplicit false

namespace FuzzyInference

variable {α : Type}

namespace Command

/-- Whether the command is a setting, and no stage of a cycle. -/
def Sets : Command α → Prop
  | fuzzify | inference | defuzzify => False
  | _ => True

/-- Whether the command sets a parameter of the engine, or its weights, and no entry of a table. -/
def Tunes : Command α → Prop
  | setOperator .. | setMethod _ | setEvalPoints _ | setWeights _ => True
  | _ => False

end Command

variable [Scalar α]

namespace Engine

variable {e : Engine α} {c : Command α} {err : EngineError α}

omit [Scalar α] in
theorem settled_refused {result : Except (EngineError α) (Engine α)}
    (h : (e.settled result).2 = .error err) : (e.settled result).1 = e := by
  cases result with
  | error err' => rfl
  | ok changed => cases h

/-- A setting that is refused changes nothing. -/
theorem perform_refused (hc : c.Sets) (h : (e.perform c).2 = .error err) :
    (e.perform c).1 = e := by
  cases c with
  | fuzzify => exact hc.elim
  | inference => exact hc.elim
  | defuzzify => exact hc.elim
  | _ => exact settled_refused h

omit [Scalar α] in
theorem settled_toTables {result : Except (EngineError α) (Engine α)}
    (h : ∀ e', result = .ok e' → e'.toTables = e.toTables) :
    (e.settled result).1.toTables = e.toTables :=
  settled_elim (P := fun e' => e'.toTables = e.toTables) rfl h

theorem perform_tunes (e : Engine α) (hc : c.Tunes) : (e.perform c).1.toTables = e.toTables := by
  cases c with
  | setOperator role op =>
      refine settled_toTables fun e' h => ?_
      obtain ⟨-, rfl⟩ := setOperator_ok h
      rfl
  | setMethod m =>
      refine settled_toTables fun e' h => ?_
      obtain ⟨-, rfl⟩ := setMethod_ok h
      rfl
  | setEvalPoints points =>
      refine settled_toTables fun e' h => ?_
      obtain ⟨-, -, rfl⟩ := setEvalPoints_ok h
      rfl
  | setWeights ws =>
      refine settled_toTables fun e' h => ?_
      obtain ⟨-, rfl⟩ := setWeights_ok h
      rfl
  | _ => exact hc.elim

theorem run_tunes (e : Engine α) {cs : List (Command α)} (hcs : ∀ c ∈ cs, c.Tunes) :
    (e.run cs).toTables = e.toTables := by
  induction cs generalizing e with
  | nil => rfl
  | cons c cs ih =>
      have htables := perform_tunes e (hcs c List.mem_cons_self)
      exact (ih (e.perform c).1 fun c' hc' => hcs c' (List.mem_cons_of_mem c hc')).trans htables

/-- Where settings stop at one that is refused, those in front of it were made. -/
theorem runUntilError_refused {cs : List (Command α)} (hcs : ∀ c ∈ cs, c.Sets)
    (h : (e.runUntilError cs).2 = .error err) :
    ∃ made c left, cs = made ++ c :: left ∧ e.runUntilError made = (e.run made, .ok ()) ∧
      ((e.run made).perform c).2 = .error err ∧ (e.runUntilError cs).1 = e.run made := by
  induction cs generalizing e with
  | nil => cases h
  | cons c cs ih =>
      have hc := hcs c List.mem_cons_self
      rcases hperform : e.perform c with ⟨e', err' | u⟩
      -- the first setting is refused: nothing stands in front of it
      · simp only [runUntilError, hperform] at h ⊢
        refine ⟨[], c, cs, rfl, rfl, ?_, ?_⟩
        · rw [run, hperform]
          exact h
        · have hrefused : (e.perform c).2 = .error err' := by rw [hperform]
          have hsame := perform_refused hc hrefused
          rw [hperform] at hsame
          exact hsame
      -- the first setting is made, and the rest begins where it ends
      · simp only [runUntilError, hperform] at h ⊢
        obtain ⟨made, c', left, rfl, hmade, hrefused, hleft⟩ :=
          ih (fun c' hc' => hcs c' (List.mem_cons_of_mem c hc')) h
        have hrun : e.run (c :: made) = e'.run made := by rw [run, hperform]
        refine ⟨c :: made, c', left, rfl, ?_, ?_, ?_⟩
        · simp only [runUntilError, hperform, hrun]
          exact hmade
        · rwa [hrun]
        · rwa [hrun]

end Engine

namespace Controller

omit [Scalar α] in
theorem setConfig_refused {s : Controller α} {config : Config} {err : EngineError α}
    (h : (s.setConfig config).2 = .error err) : (s.setConfig config).1 = s := by
  unfold setConfig at h ⊢
  cases hcheck : config.check (α := α) s.architecture with
  | error err' => rfl
  | ok u =>
      rw [hcheck] at h
      cases h

omit [Scalar α] in
/-- A configuration on an engine ends as the work ends, and keeps the configuration if it
succeeds. -/
theorem configure_of_engine {s : Controller α} {e : Engine α} (hengine : s.engine = .ok e)
    (work : Engine α → Engine.Outcome α) :
    s.configure work = match work e with
      | (e', .ok ()) => ({ s with tables := e'.toTables, config := e'.config }, .ok ())
      | (e', .error err) => ({ s with tables := e'.toTables }, .error err) := by
  unfold configure session
  rw [hengine]
  dsimp only
  rcases work e with ⟨e', err | u⟩ <;> rfl

/-- A setting that is refused leaves the engine as it was, and a configuration that is refused
leaves the controller as it was. A configuration made of settings that stops at the first that is
refused leaves the controller with its own configuration and weights, where a session of the
settings in front would have left it, which is where it was if these set only parameters. -/
theorem failed_configuration_keeps (s : Controller α) :
    (∀ (e : Engine α) (c : Command α) (err : EngineError α), c.Sets →
        (e.perform c).2 = .error err → (e.perform c).1 = e) ∧
      (∀ config err, (s.setConfig config).2 = .error err → (s.setConfig config).1 = s) ∧
      ∀ cs err, (∀ c ∈ cs, c.Sets) → (s.configure fun e => e.runUntilError cs).2 = .error err →
        (s.engine = .error err ∧ (s.configure fun e => e.runUntilError cs).1 = s) ∨
          ∃ e made c left, s.engine = .ok e ∧ cs = made ++ c :: left ∧
            e.runUntilError made = (e.run made, .ok ()) ∧
            ((e.run made).perform c).2 = .error err ∧
            (s.configure fun e => e.runUntilError cs).1 =
              { s with tables := (e.run made).toTables } ∧
            (s.configure fun e => e.runUntilError cs).1 = s.perform (.session made) ∧
            ((∀ c ∈ made, c.Tunes) → (s.configure fun e => e.runUntilError cs).1 = s) := by
  refine ⟨fun e c err => Engine.perform_refused, fun config err => setConfig_refused, ?_⟩
  intro cs err hcs h
  cases hengine : s.engine with
  | error err' =>
      have hconfigure : (s.configure fun e => e.runUntilError cs) = (s, .error err') := by
        unfold configure session
        rw [hengine]
      rw [hconfigure] at h ⊢
      exact Or.inl ⟨congrArg _ (Except.error.inj h), rfl⟩
  | ok e =>
      rw [configure_of_engine hengine] at h ⊢
      rcases hwork : e.runUntilError cs with ⟨e', err' | u⟩
      · simp only [hwork] at h ⊢
        have hstopped : (e.runUntilError cs).2 = .error err := by rw [hwork]; exact h
        obtain ⟨made, c, left, rfl, hmade, hrefused, hleft⟩ :=
          Engine.runUntilError_refused hcs hstopped
        rw [hwork] at hleft
        obtain rfl : e' = e.run made := hleft
        refine Or.inr ⟨e, made, c, left, rfl, rfl, hmade, hrefused, rfl, ?_, ?_⟩
        · show _ = (s.session fun e => (e.run made, ())).1
          rw [session, hengine]
        · intro htunes
          rw [Engine.run_tunes e htunes, engine_ok hengine]
      · simp only [hwork] at h
        cases h

/-- A system of one rule, whose output is constant. -/
def constantRule : Rule := ⟨⟨0, ⟨0, false⟩⟩, [], ⟨0, ⟨0, false⟩⟩, []⟩

/-- A controller of this rule as it is built. -/
def freshConstant : Controller Float :=
  ⟨.byte, .sugeno, .sugenoWeightedAverage, .blank ⟨1, 1, 1, 1⟩ 1, Rule.stream .byte [constantRule],
    none⟩

theorem build_constant :
    build .byte .sugeno ⟨1, 1, 1, 1⟩ 1 (Rule.stream .byte [constantRule]) .sugenoWeightedAverage =
      .ok freshConstant := rfl

/-- The controller with the constant 30 and a range that ends at 10. -/
def setConstant : Controller Float :=
  freshConstant.run
    [.session [.setupOutput 0 0 10, .setInputMembership 0 0 .constant [1] 1,
      .setOutputMembership 0 0 .constant [30] 1]]

/-- A wider range, and a number of evaluation points that is refused. -/
def wideRange : List (Command Float) := [.setupOutput 0 0 40, .setEvalPoints 0]

theorem configure_wideRange :
    ∃ err, (setConstant.configure fun e => e.runUntilError wideRange).2 = .error err := by
  have hfails :
      (setConstant.configure fun e => e.runUntilError wideRange).2.isOk = false := by
    decide +kernel
  cases hresult : (setConstant.configure fun e => e.runUntilError wideRange).2 with
  | error err => exact ⟨err, rfl⟩
  | ok u =>
      rw [hresult] at hfails
      cases hfails

theorem failed_configuration_keeps_constant :
    (∃ err, (setConstant.fresh.perform (.setEvalPoints 0)).2 = .error err ∧
        (setConstant.fresh.perform (.setEvalPoints 0)).1 = setConstant.fresh) ∧
      (∃ err, (setConstant.setConfig .mamdaniClassic).2 = .error err ∧
        (setConstant.setConfig .mamdaniClassic).1 = setConstant) ∧
      ∃ e made c left, setConstant.engine = .ok e ∧ wideRange = made ++ c :: left ∧
        (setConstant.configure fun e => e.runUntilError wideRange).1 =
          { setConstant with tables := (e.run made).toTables } := by
  obtain ⟨hperform, hconfig, hconfigure⟩ := failed_configuration_keeps setConstant
  obtain ⟨err, hresult⟩ := configure_wideRange
  refine ⟨⟨_, rfl, hperform _ _ _ trivial rfl⟩, ⟨_, rfl, hconfig _ _ rfl⟩, ?_⟩
  have hsets : ∀ c ∈ wideRange, c.Sets := by
    simp [wideRange, Command.Sets]
  rcases hconfigure wideRange err hsets hresult with ⟨hengine, -⟩ | hkept
  · have hlent : (setConstant.engine).isOk = true := by decide +kernel
    rw [hengine] at hlent
    cases hlent
  · obtain ⟨e, made, c, left, hengine, hsplit, -, -, hleft, -⟩ := hkept
    exact ⟨e, made, c, left, hengine, hsplit, hleft⟩

/-- The range that was set in front of the refused setting stays, and shows in evaluations. -/
theorem failed_configuration_widens :
    setConstant.Reachable ∧
      (∃ err, (setConstant.configure fun e => e.runUntilError wideRange).2 = .error err) ∧
      (∀ out ∈ setConstant.tables.outputs, out.upper ≤ 10) ∧
      (∃ out ∈ (setConstant.configure fun e => e.runUntilError wideRange).1.tables.outputs,
        10 < out.upper) ∧
      (∃ outs ∈ (setConstant.evaluate [0.5]).2.toOption, ∀ z ∈ outs, z ≤ 10) ∧
      ∃ outs ∈ ((setConstant.configure fun e => e.runUntilError wideRange).1.evaluate
        [0.5]).2.toOption, ∃ z ∈ outs, 10 < z :=
  ⟨⟨_, _, _, _, _, _, freshConstant, _, build_constant, rfl⟩, configure_wideRange,
    by decide +kernel, by decide +kernel, by decide +kernel, by decide +kernel⟩

end Controller

end FuzzyInference
