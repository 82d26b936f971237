import FuzzyInference.Proofs.Configuration
import FuzzyInference.Proofs.Protocol

/-!
# Histories of a controller

A controller sets up a new engine for every call and lends it its tables. `Request` lists the calls
that can change a controller, and `Controller.run` carries out a list of them. Calls that work with
an engine are given as the commands that the engine carries out.

`Lends` names the engines that can be at work on the tables of a controller. Whatever is
requested, it changes the tables by writing input values, or as such an engine does
(`perform_tables`). What holds of the tables after every history of engines therefore holds after
every history of controllers.
-/

set_option autoImplicit false

namespace FuzzyInference

/-- A call on a controller that can change it. -/
inductive Request (α : Type) where
  | setConfig (config : Config)
  | setWeights (weights : List α)
  /-- Carries out commands on an engine and asks to keep its configuration, or fails. -/
  | configure (commands : List (Command α)) (result : Except (EngineError α) Unit)
  | session (commands : List (Command α))
  | evaluate (values : List α)

namespace Engine

variable {α : Type} [Scalar α]

theorem run_append (e : Engine α) (cs cs' : List (Command α)) :
    e.run (cs ++ cs') = (e.run cs).run cs' := by
  induction cs generalizing e with
  | nil => rfl
  | cons c cs ih => exact ih (e.perform c).1

/-- A cycle: it fails where inference fails, and otherwise ends as defuzzification does. -/
def cycled (e : Engine α) : Outcome α := Outcome.andThen e.fuzzify.inference defuzzify

theorem runUntilError_cycle (e : Engine α) :
    e.runUntilError [.fuzzify, .inference, .defuzzify] = e.cycled := by
  rw [cycled]
  simp only [runUntilError, perform]
  rcases e.fuzzify.inference with ⟨e', result⟩
  cases result with
  | error err => rfl
  | ok u =>
      rcases hdefuzzify : e'.defuzzify with ⟨e'', result'⟩
      cases result' with
      | error err => simp [hdefuzzify, Outcome.andThen]
      | ok u' => simp [hdefuzzify, Outcome.andThen]

/-- A cycle that is cut short is where the stages lead one after the other: after an inference that
fails, defuzzification is refused. -/
theorem run_cycled (e : Engine α) : e.run [.fuzzify, .inference, .defuzzify] = e.cycled.1 := by
  show e.fuzzify.inference.1.defuzzify.1 = e.cycled.1
  have hstatus := inference_status_iff e.fuzzify
  rw [cycled]
  generalize e.fuzzify.inference = r at hstatus ⊢
  obtain ⟨e', err | u⟩ := r
  · have hfailed : e'.status ≠ .succeeded := by
      intro hsucceeded
      cases hstatus.1 hsucceeded
    rw [defuzzify_refused hfailed]
    rfl
  · rfl

/-- A cycle changes the tables and what is known of the last inference. -/
theorem cycled_eq (e : Engine α) :
    e.cycled.1 = { e with
      toTables := e.cycled.1.toTables, completed := e.cycled.1.completed,
      status := e.cycled.1.status } := by
  have hinference : e.fuzzify.inference.1 = { e with
      toTables := e.fuzzify.inference.1.toTables, completed := e.fuzzify.inference.1.completed,
      status := e.fuzzify.inference.1.status } := by
    obtain ⟨status, hengine, -⟩ := e.fuzzify.inference_eq
    rw [hengine]
    rfl
  rw [cycled]
  generalize e.fuzzify.inference = r at hinference ⊢
  obtain ⟨e', err | u⟩ := r
  · exact hinference
  · show e'.defuzzify.1 = { e with
      toTables := e'.defuzzify.1.toTables, completed := e'.defuzzify.1.completed,
      status := e'.defuzzify.1.status }
    have hengine : e' = { e with
      toTables := e'.toTables, completed := e'.completed, status := e'.status } := hinference
    rw [(outputsOnly_defuzzify e').eq, hengine]

end Engine

namespace Controller

variable {α : Type} [Scalar α]

/-- Carries out a request. -/
def perform (s : Controller α) : Request α → Controller α
  | .setConfig config => (s.setConfig config).1
  | .setWeights weights => s.setWeights weights
  | .configure cs result => (s.configure fun e => (e.run cs, result)).1
  | .session cs => (s.session fun e => (e.run cs, ())).1
  | .evaluate values => (s.evaluate values).1

/-- Carries out requests one after the other. -/
def run (s : Controller α) : List (Request α) → Controller α
  | [] => s
  | r :: rs => run (s.perform r) rs

/-- A controller at some time after it was built. -/
def Reachable (s : Controller α) : Prop :=
  ∃ (w : Width) (architecture : Architecture) (sizes : Sizes) (n : Nat) (rules : List Int)
    (config : Config) (s₀ : Controller α) (rs : List (Request α)),
    build w architecture sizes n rules config = .ok s₀ ∧ s₀.run rs = s

/-- What every request preserves, every history preserves. -/
theorem run_induction {P : Controller α → Prop} (hstep : ∀ s r, P s → P (s.perform r))
    {s : Controller α} (h : P s) (rs : List (Request α)) : P (s.run rs) := by
  induction rs generalizing s with
  | nil => exact h
  | cons r rs ih => exact ih (hstep s r h)

/-! ## Engines of a controller -/

/-- The controller with values written to its inputs. -/
def assigned (s : Controller α) (values : List α) : Controller α :=
  { s with tables := { s.tables with inputs := Variable.assign s.tables.inputs values } }

omit [Scalar α] in
theorem assigned_nil (s : Controller α) : s.assigned [] = s := by
  have hassign : Variable.assign s.tables.inputs ([] : List α) = s.tables.inputs := by
    cases s.tables.inputs <;> rfl
  rw [assigned, hassign]

/-- An engine that can be at work on the tables of the controller. -/
def Lends (s : Controller α) (e : Engine α) : Prop :=
  ∃ (e₀ : Engine α) (cs : List (Command α)),
    Engine.setup s.width s.architecture s.tables s.rules s.tables.strengths.length s.config =
      .ok e₀ ∧ e₀.run cs = e

theorem lends_engine {s : Controller α} {e : Engine α} (h : s.engine = .ok e) : s.Lends e := by
  obtain ⟨e₀, hsetup, h⟩ := exists_of_bind_ok h
  cases hweights : s.weights with
  | none =>
      simp only [hweights] at h
      exact ⟨e₀, [], hsetup, Except.ok.inj h⟩
  | some ws =>
      simp only [hweights] at h
      refine ⟨e₀, [.setWeights ws], hsetup, ?_⟩
      show (e₀.settled (e₀.setWeights ws)).1 = e
      rw [h]
      rfl

theorem Lends.run {s : Controller α} {e : Engine α} (h : s.Lends e) (cs : List (Command α)) :
    s.Lends (e.run cs) := by
  obtain ⟨e₀, before, hsetup, rfl⟩ := h
  exact ⟨e₀, before ++ cs, hsetup, Engine.run_append e₀ before cs⟩

theorem Lends.serves {s : Controller α} {e : Engine α} (h : s.Lends e) :
    e.Serves s.width s.tables.sizes s.tables.strengths.length s.rules := by
  obtain ⟨e₀, cs, hsetup, rfl⟩ := h
  exact Engine.serves_run hsetup cs

theorem Lends.fits {s : Controller α} {e : Engine α} (h : s.Lends e) :
    e.config.Fits e.architecture := by
  obtain ⟨e₀, cs, hsetup, rfl⟩ := h
  exact Engine.run_fits hsetup cs

theorem Lends.architecture {s : Controller α} {e : Engine α} (h : s.Lends e) :
    e.architecture = s.architecture := by
  obtain ⟨e₀, cs, hsetup, rfl⟩ := h
  rw [Engine.run_architecture]
  obtain ⟨-, -, -, rfl⟩ := Engine.setup_ok hsetup
  rfl

/-! ## Evaluation -/

theorem evaluate_of_error {s : Controller α} {values : List α} {err : EngineError α}
    (h : (s.assigned values).engine = .error err) :
    s.evaluate values = (s.assigned values, .error err) := by
  rw [assigned] at h
  simp only [evaluate, session, h, assigned]

/-- An evaluation sets up an engine over the given input values and has it carry out a cycle. -/
theorem evaluate_of_engine {s : Controller α} {values : List α} {e : Engine α}
    (h : (s.assigned values).engine = .ok e) :
    s.evaluate values =
      ({ s with tables := e.cycled.1.toTables },
        e.cycled.2.map fun _ => e.cycled.1.outputs.map fun out => out.value) := by
  rw [assigned] at h
  simp only [evaluate, session, h, Engine.runUntilError_cycle]
  rcases e.cycled with ⟨e', err | u⟩ <;> rfl

/-- What a successful evaluation has done. -/
theorem evaluate_ok {s : Controller α} {values outs : List α}
    (h : (s.evaluate values).2 = .ok outs) :
    ∃ e, (s.assigned values).engine = .ok e ∧ e.fuzzify.inference.2 = .ok () ∧
      e.fuzzify.inference.1.defuzzify.2 = .ok () ∧
      (s.evaluate values).1 = { s with tables := e.fuzzify.inference.1.defuzzify.1.toTables } ∧
      outs = e.fuzzify.inference.1.defuzzify.1.outputs.map fun out => out.value := by
  cases hengine : (s.assigned values).engine with
  | error err =>
      rw [evaluate_of_error hengine] at h
      cases h
  | ok e =>
      rw [evaluate_of_engine hengine] at h ⊢
      cases hresult : e.cycled.2 with
      | error err =>
          rw [hresult] at h
          cases h
      | ok u =>
          obtain ⟨hinference, hcycled⟩ := Engine.Outcome.andThen_ok hresult
          rw [hresult] at h
          rw [Engine.cycled, hcycled] at hresult
          refine ⟨e, rfl, hinference, hresult, ?_, ?_⟩
          · rw [Engine.cycled, hcycled]
          · rw [← hcycled]
            exact (Except.ok.inj h).symm

/-! ## One request -/

/-- A session leaves the tables that its engine leaves, if one can be set up. -/
theorem session_tables {β : Type} (s : Controller α) (cs : List (Command α))
    (result : Engine α → β) :
    (s.session fun e => (e.run cs, result (e.run cs))).1.tables = s.tables ∨
      ∃ e, s.Lends e ∧
        (s.session fun e => (e.run cs, result (e.run cs))).1.tables = e.toTables := by
  rw [session]
  cases hengine : s.engine with
  | error err => exact Or.inl rfl
  | ok e => exact Or.inr ⟨e.run cs, (lends_engine hengine).run cs, rfl⟩

omit [Scalar α] in
/-- The tables after a configuration are those after its session. -/
theorem configure_tables (s : Controller α) (work : Engine α → Engine.Outcome α) :
    (s.configure work).1.tables =
      (s.session fun e => ((work e).1, (work e).1.config, (work e).2)).1.tables := by
  unfold configure session
  cases s.engine with
  | error err => rfl
  | ok e =>
      dsimp only
      rcases work e with ⟨e', err | u⟩ <;> rfl

/-- A request changes the tables by writing input values, or as an engine does that is at work on
them then. -/
theorem perform_tables (s : Controller α) (r : Request α) :
    ∃ values, (s.perform r).tables = (s.assigned values).tables ∨
      ∃ e, (s.assigned values).Lends e ∧ (s.perform r).tables = e.toTables := by
  cases r with
  | setConfig config =>
      refine ⟨[], Or.inl ?_⟩
      rw [assigned_nil]
      show (s.setConfig config).1.tables = s.tables
      unfold setConfig
      cases config.check s.architecture <;> rfl
  | setWeights weights =>
      refine ⟨[], Or.inl ?_⟩
      rw [assigned_nil]
      rfl
  | configure cs result =>
      refine ⟨[], ?_⟩
      rw [assigned_nil]
      show (s.configure fun e => (e.run cs, result)).1.tables = s.tables ∨
        ∃ e, s.Lends e ∧ (s.configure fun e => (e.run cs, result)).1.tables = e.toTables
      rw [configure_tables]
      exact s.session_tables cs fun e => (e.config, result)
  | session cs =>
      refine ⟨[], ?_⟩
      rw [assigned_nil]
      exact s.session_tables cs fun _ => ()
  | evaluate values =>
      refine ⟨values, ?_⟩
      show (s.evaluate values).1.tables = _ ∨ ∃ e, _ ∧ (s.evaluate values).1.tables = _
      cases hengine : (s.assigned values).engine with
      | error err =>
          rw [evaluate_of_error hengine]
          exact Or.inl rfl
      | ok e =>
          refine Or.inr ⟨_, (lends_engine hengine).run [.fuzzify, .inference, .defuzzify], ?_⟩
          rw [evaluate_of_engine hengine, e.run_cycled]

end Controller

end FuzzyInference
