import FuzzyInference.Proofs.Frame
import FuzzyInference.Proofs.Items

/-!
# Histories of an engine

A history is a list of commands carried out one after the other, whether they fail or not.
`perform_cases` says what one command can do: it is one of the three stages of a cycle, or a
setting. `Setting` lists the changes that settings can make. None of them touches what the last
inference has left behind (`Setting.keeps`). `run_induction` carries what one command preserves over
a whole history.

Two invariants are derived from that. The script of an engine never changes (`run_script`), and what
setup checked stays true (`Bound`).
-/

set_option autoImplicit false

namespace FuzzyInference.Engine

variable {α : Type}

/-! ## Settings -/

section Arithmetic

variable [Scalar α]

/-- What a setting can do to an engine: nothing, if it is refused, or the change that it asks for,
after the check of its arguments. -/
inductive Setting (e : Engine α) : Engine α → Prop where
  | refused : Setting e e
  | inputRange (i : Nat) {lower upper : α} (hrange : checkRange lower upper = .ok ()) :
      Setting e { e with inputs := e.inputs.modify i fun v => { v with lower, upper } }
  | outputRange (o : Nat) {lower upper : α} (hrange : checkRange lower upper = .ok ()) :
      Setting e { e with outputs := e.outputs.modify o fun out => { out with lower, upper } }
  | inputMembership (m : Nat) {i : Nat} {tag : Int} {shape : Shape α} {coefficients : List α}
      {height : α} (hslot : slot (α := α) .input tag e.inputs.length = .ok i)
      (hshape : e.checkShape .input shape coefficients = .ok ()) :
      Setting e { e with
        inputMemberships := e.inputMemberships.set m (.attached i shape coefficients height) }
  | outputMembership (m : Nat) {o : Nat} {tag : Int} {shape : Shape α} {coefficients : List α}
      {height : α} (hslot : slot (α := α) .output tag e.outputs.length = .ok o)
      (hshape : e.checkShape .output shape coefficients = .ok ()) :
      Setting e { e with
        outputMemberships := e.outputMemberships.set m (.attached o shape coefficients height) }
  | operator {role : Role} {op : Operator} (haccepts : role.accepts op = true) :
      Setting e { e with config := e.config.bind op role }
  | method {m : Method} (hsupports : m.supports e.architecture = true) :
      Setting e { e with config := { e.config with method := m } }
  | evalPoints {points : Nat} (hpoints : 0 < points)
      (hregions : (e.outputs.filterMap Output.region).forM (checkRegion points) = .ok ()) :
      Setting e { e with config := { e.config with evalPoints := points } }
  | weights {ws : List α} (hlength : e.ruleCount ≤ ws.length) :
      Setting e { e with weights := some ws }
  | region (o : Nat) {r : Region α} (hregion : checkRegion e.config.evalPoints r = .ok ()) :
      Setting e { e with outputs := e.outputs.modify o fun out => { out with region := some r } }
  | input (i : Nat) (value : α) :
      Setting e { e with inputs := e.inputs.modify i fun v => { v with value } }

omit [Scalar α] in
/-- What holds of an engine and of what a setting makes of it holds after the setting. -/
theorem settled_elim {P : Engine α → Prop} {e : Engine α}
    {result : Except (EngineError α) (Engine α)} (hrefused : P e)
    (hset : ∀ e', result = .ok e' → P e') : P (e.settled result).1 := by
  cases result with
  | error err => exact hrefused
  | ok e' => exact hset e' rfl

theorem setting_settled {e : Engine α} {result : Except (EngineError α) (Engine α)}
    (h : ∀ e', result = .ok e' → Setting e e') : Setting e (e.settled result).1 :=
  settled_elim .refused h

/-- A command that is no stage of a cycle is a setting. -/
theorem setting_perform (e : Engine α) (c : Command α) (hf : c ≠ .fuzzify) (hi : c ≠ .inference)
    (hd : c ≠ .defuzzify) : Setting e (e.perform c).1 := by
  cases c with
  | fuzzify => exact absurd rfl hf
  | inference => exact absurd rfl hi
  | defuzzify => exact absurd rfl hd
  | setupInput tag lower upper =>
      refine setting_settled fun e' h => ?_
      obtain ⟨i, -, hrange, rfl⟩ := setupInput_ok h
      exact .inputRange i hrange
  | setupOutput tag lower upper =>
      refine setting_settled fun e' h => ?_
      obtain ⟨o, -, hrange, rfl⟩ := setupOutput_ok h
      exact .outputRange o hrange
  | setInputMembership input tag shape coefficients height =>
      refine setting_settled fun e' h => ?_
      obtain ⟨i, m, hslot, -, hshape, rfl⟩ := setInputMembership_ok h
      exact .inputMembership m hslot hshape
  | setOutputMembership output tag shape coefficients height =>
      refine setting_settled fun e' h => ?_
      obtain ⟨o, m, hslot, -, hshape, rfl⟩ := setOutputMembership_ok h
      exact .outputMembership m hslot hshape
  | setOperator role op =>
      refine setting_settled fun e' h => ?_
      obtain ⟨haccepts, rfl⟩ := setOperator_ok h
      exact .operator haccepts
  | setMethod m =>
      refine setting_settled fun e' h => ?_
      obtain ⟨hsupports, rfl⟩ := setMethod_ok h
      exact .method hsupports
  | setEvalPoints points =>
      refine setting_settled fun e' h => ?_
      obtain ⟨hpoints, hregions, rfl⟩ := setEvalPoints_ok h
      exact .evalPoints hpoints hregions
  | setWeights weights =>
      refine setting_settled fun e' h => ?_
      obtain ⟨hlength, rfl⟩ := setWeights_ok h
      exact .weights hlength
  | storeRegion output region =>
      refine setting_settled fun e' h => ?_
      obtain ⟨o, -, hregion, rfl⟩ := storeRegion_ok h
      exact .region o hregion
  | setInput tag value =>
      refine setting_settled fun e' h => ?_
      obtain ⟨i, -, rfl⟩ := setInput_ok h
      exact .input i value

/-- What a command can be: a stage of a cycle, or a setting. -/
theorem perform_cases (e : Engine α) (c : Command α) :
    c = .fuzzify ∨ c = .inference ∨ c = .defuzzify ∨
      (c ≠ .fuzzify ∧ c ≠ .inference ∧ Setting e (e.perform c).1) := by
  by_cases hf : c = .fuzzify
  · exact Or.inl hf
  by_cases hi : c = .inference
  · exact Or.inr (Or.inl hi)
  by_cases hd : c = .defuzzify
  · exact Or.inr (Or.inr (Or.inl hd))
  · exact Or.inr (Or.inr (Or.inr ⟨hf, hi, setting_perform e c hf hi hd⟩))

/-- What a setting keeps. Weights are replaced by others of a sufficient number only. -/
structure Keeps (e e' : Engine α) : Prop where
  script : e'.script = e.script
  architecture : e'.architecture = e.architecture
  strengths : e'.strengths = e.strengths
  completed : e'.completed = e.completed
  status : e'.status = e.status
  weights : e'.weights = e.weights ∨ ∃ ws, e'.weights = some ws ∧ e.ruleCount ≤ ws.length

omit [Scalar α] in
/-- A setting that changes tables entry by entry keeps what it has to. -/
theorem Keeps.of_tables (e : Engine α) {inputs : List (Variable α)} {outputs : List (Output α)}
    {ins outs : List (Membership α)} (config : Config) (hi : inputs.length = e.inputs.length)
    (ho : outputs.length = e.outputs.length) (him : ins.length = e.inputMemberships.length)
    (hom : outs.length = e.outputMemberships.length) :
    Keeps e { e with
      inputs, outputs, inputMemberships := ins, outputMemberships := outs, config } := by
  refine ⟨?_, rfl, rfl, rfl, rfl, Or.inl rfl⟩
  simp only [Engine.script, Tables.sizes, hi, ho, him, hom]

theorem Setting.keeps {e e' : Engine α} (h : Setting e e') : Keeps e e' := by
  cases h with
  | refused => exact ⟨rfl, rfl, rfl, rfl, rfl, Or.inl rfl⟩
  | inputRange i _ => exact .of_tables e e.config (List.length_modify ..) rfl rfl rfl
  | outputRange o _ => exact .of_tables e e.config rfl (List.length_modify ..) rfl rfl
  | inputMembership m _ _ => exact .of_tables e e.config rfl rfl (List.length_set ..) rfl
  | outputMembership m _ _ => exact .of_tables e e.config rfl rfl rfl (List.length_set ..)
  | operator _ => exact .of_tables e _ rfl rfl rfl rfl
  | method _ => exact .of_tables e _ rfl rfl rfl rfl
  | evalPoints _ _ => exact .of_tables e _ rfl rfl rfl rfl
  -- weights are the one thing outside the tables and the configuration that a setting replaces
  | weights hlength => exact ⟨rfl, rfl, rfl, rfl, rfl, Or.inr ⟨_, rfl, hlength⟩⟩
  | region o _ => exact .of_tables e e.config rfl (List.length_modify ..) rfl rfl
  | input i value => exact .of_tables e e.config (List.length_modify ..) rfl rfl rfl

/-! ## Stages -/

theorem fuzzify_script (e : Engine α) : e.fuzzify.script = e.script := by
  simp [script, fuzzify, Tables.sizes]

/-- What inference leaves behind: strengths, the number of completed rules, and whether the walk
over the premises succeeded. -/
theorem inference_eq (e : Engine α) :
    ∃ status, e.inference.1 = { e with
        strengths := (e.premises.steps.foldl e.compose ⟨0, e.strengths⟩).strengths,
        completed := e.premises.completed, status } ∧
      (status = .succeeded ↔ e.premises.outcome = .ok ()) ∧
      e.inference.2 = e.premises.outcome.mapError .walk := by
  unfold inference
  dsimp only
  cases ho : e.premises.outcome with
  | ok u => exact ⟨.succeeded, rfl, by simp, rfl⟩
  | error fault => exact ⟨.failed, rfl, by simp, rfl⟩

theorem inference_ok_iff (e : Engine α) :
    e.inference.2 = .ok () ↔ e.premises.outcome = .ok () := by
  obtain ⟨-, -, -, hresult⟩ := e.inference_eq
  rw [hresult]
  exact mapError_eq_ok_iff

theorem inference_status_iff (e : Engine α) :
    e.inference.1.status = .succeeded ↔ e.inference.2 = .ok () := by
  obtain ⟨status, hengine, hstatus, -⟩ := e.inference_eq
  rw [inference_ok_iff, hengine]
  exact hstatus

theorem inference_script (e : Engine α) : e.inference.1.script = e.script := by
  obtain ⟨status, hengine, -⟩ := e.inference_eq
  rw [hengine]
  rfl

theorem inference_completed (e : Engine α) : e.inference.1.completed = e.premises.completed := by
  obtain ⟨status, hengine, -⟩ := e.inference_eq
  rw [hengine]

theorem inference_strengths (e : Engine α) :
    e.inference.1.strengths = (e.premises.steps.foldl e.compose ⟨0, e.strengths⟩).strengths := by
  obtain ⟨status, hengine, -⟩ := e.inference_eq
  rw [hengine]

theorem length_foldl_compose (e : Engine α) (steps : List PremiseStep) (c : Composition α) :
    (steps.foldl e.compose c).strengths.length = c.strengths.length := by
  induction steps generalizing c with
  | nil => rfl
  | cons s steps ih =>
      rw [List.foldl_cons, ih, compose]
      cases s.effect with
      | compose joined => rfl
      | proceed => rfl
      | closeRule => exact List.length_set ..

theorem length_inference_strengths (e : Engine α) :
    e.inference.1.strengths.length = e.strengths.length := by
  rw [inference_strengths, length_foldl_compose]

/-! ## Whole histories -/

/-- What every command preserves, every history preserves. -/
theorem run_induction {P : Engine α → Prop} (hstep : ∀ e c, P e → P (e.perform c).1)
    {e : Engine α} (h : P e) (cs : List (Command α)) : P (e.run cs) := by
  induction cs generalizing e with
  | nil => exact h
  | cons c cs ih => exact ih (hstep e c h)

theorem perform_script (e : Engine α) (c : Command α) : (e.perform c).1.script = e.script := by
  rcases perform_cases e c with rfl | rfl | rfl | ⟨-, -, hsetting⟩
  · exact fuzzify_script e
  · exact inference_script e
  · exact (outputsOnly_defuzzify e).script
  · exact hsetting.keeps.script

/-- No history changes the script. -/
theorem run_script (e : Engine α) (cs : List (Command α)) : (e.run cs).script = e.script :=
  run_induction (P := fun e' => e'.script = e.script)
    (fun e' c h => (perform_script e' c).trans h) rfl cs

/-- What setup has checked. -/
structure Bound (e : Engine α) : Prop where
  fit : e.sizes.Fit e.width
  slots : e.ruleCount ≤ e.strengths.length
  weights : ∀ ws, e.weights = some ws → e.ruleCount ≤ ws.length

omit [Scalar α] in
theorem bound_of_setup {w : Width} {architecture : Architecture} {tables : Tables α}
    {rules : List Int} {ruleCount : Nat} {config : Config} {e : Engine α}
    (h : setup w architecture tables rules ruleCount config = .ok e) : e.Bound := by
  obtain ⟨⟨hi, ho, him, hom⟩, ⟨-, -, hslots⟩, -, rfl⟩ := setup_ok h
  refine ⟨⟨hi.2, ho.2, him.2, hom.2⟩, hslots, ?_⟩
  intro ws hws
  cases hws

omit [Scalar α] in
theorem script_of_setup {w : Width} {architecture : Architecture} {tables : Tables α}
    {rules : List Int} {ruleCount : Nat} {config : Config} {e : Engine α}
    (h : setup w architecture tables rules ruleCount config = .ok e) :
    e.script = ⟨w, tables.sizes, ruleCount, rules⟩ := by
  obtain ⟨-, -, -, rfl⟩ := setup_ok h
  rfl

omit [Scalar α] in
/-- A change that keeps the script, the number of slots and the weights keeps what setup checked. -/
theorem Bound.of_eq {e e' : Engine α} (h : e.Bound) (hscript : e'.script = e.script)
    (hslots : e'.strengths.length = e.strengths.length)
    (hweights : e'.weights = e.weights ∨ ∃ ws, e'.weights = some ws ∧ e.ruleCount ≤ ws.length) :
    e'.Bound := by
  simp only [script, Script.mk.injEq] at hscript
  obtain ⟨hw, hs, hn, -⟩ := hscript
  refine ⟨by rw [hw, hs]; exact h.fit, by rw [hn, hslots]; exact h.slots, ?_⟩
  intro ws hws
  rw [hn]
  rcases hweights with heq | ⟨ws', hws', hlen⟩
  · exact h.weights ws (heq ▸ hws)
  · rw [hws'] at hws
    cases hws
    exact hlen

theorem perform_bound (e : Engine α) (c : Command α) (h : e.Bound) : (e.perform c).1.Bound := by
  rcases perform_cases e c with rfl | rfl | rfl | ⟨-, -, hsetting⟩
  · exact h.of_eq (fuzzify_script e) rfl (Or.inl rfl)
  · refine h.of_eq (inference_script e) (length_inference_strengths e) (Or.inl ?_)
    obtain ⟨status, hengine, -⟩ := e.inference_eq
    show e.inference.1.weights = e.weights
    rw [hengine]
  · have hframe := outputsOnly_defuzzify e
    have hslots : e.defuzzify.1.strengths = e.strengths := by rw [hframe.eq]
    have hweights : e.defuzzify.1.weights = e.weights := by rw [hframe.eq]
    exact h.of_eq hframe.script (congrArg List.length hslots) (Or.inl hweights)
  · have hkeeps := hsetting.keeps
    exact h.of_eq hkeeps.script (congrArg List.length hkeeps.strengths) hkeeps.weights

theorem run_bound {e : Engine α} (h : e.Bound) (cs : List (Command α)) : (e.run cs).Bound :=
  run_induction perform_bound h cs

/-- An engine that was set up for this script, whatever happened to it since. -/
structure Serves (w : Width) (sizes : Sizes) (n : Nat) (stream : List Int) (e : Engine α) :
    Prop where
  width : e.width = w
  sizes : e.sizes = sizes
  ruleCount : e.ruleCount = n
  rules : e.rules = stream
  bound : e.Bound

/-- What setup has checked holds at any time after it. -/
theorem serves_run {w : Width} {architecture : Architecture} {tables : Tables α}
    {stream : List Int} {n : Nat} {config : Config} {e₀ : Engine α}
    (hsetup : setup w architecture tables stream n config = .ok e₀) (cs : List (Command α)) :
    (e₀.run cs).Serves w tables.sizes n stream := by
  have hscript := (run_script e₀ cs).trans (script_of_setup hsetup)
  simp only [script, Script.mk.injEq] at hscript
  obtain ⟨hw, hsizes, hn, hrules⟩ := hscript
  exact ⟨hw, hsizes, hn, hrules, run_bound (bound_of_setup hsetup) cs⟩

namespace Serves

variable {w : Width} {sizes : Sizes} {n : Nat} {stream : List Int} {e : Engine α}

omit [Scalar α]

theorem fit (h : e.Serves w sizes n stream) : sizes.Fit w := by
  have hfit := h.bound.fit
  rwa [h.width, h.sizes] at hfit

theorem slots (h : e.Serves w sizes n stream) : n ≤ e.strengths.length :=
  h.ruleCount ▸ h.bound.slots

theorem premises_eq (h : e.Serves w sizes n stream) :
    e.premises = premiseWalk w sizes n stream := by
  rw [premises, h.width, h.sizes, h.ruleCount, h.rules]

end Serves

end Arithmetic

/-! ## A small system

Two rules over two inputs and two outputs, with a negated reference, both connectives, several
consequents and one slot more than there are rules. It serves to show that the hypotheses of the
theorems about histories can be met. -/

/-- The two rules. -/
def twoRules : List Rule :=
  [⟨⟨0, ⟨0, false⟩⟩, [(.or, ⟨1, ⟨1, true⟩⟩), (.and, ⟨0, ⟨1, false⟩⟩)], ⟨0, ⟨0, false⟩⟩,
      [⟨1, ⟨1, true⟩⟩]⟩,
    ⟨⟨1, ⟨0, true⟩⟩, [], ⟨1, ⟨0, false⟩⟩, []⟩]

/-- The tables of the two rules. -/
def twoRuleTables : Tables Float := .blank ⟨2, 2, 2, 2⟩ 3

/-- The engine of the two rules. -/
def twoRuleEngine : Engine Float :=
  { twoRuleTables with
    width := .byte, architecture := .mamdani, config := .mamdaniClassic,
    rules := Rule.stream .byte twoRules, weights := none, ruleCount := 2, completed := 0,
    status := .notRun }

theorem setup_twoRules :
    setup .byte .mamdani twoRuleTables (Rule.stream .byte twoRules) 2 .mamdaniClassic =
      .ok twoRuleEngine := rfl

theorem inference_twoRules : twoRuleEngine.inference.2 = .ok () := rfl

/-- A session with the two rules: ranges, curves on both sides, the bisector over four samples, and
one inference. -/
def twoRuleCommands : List (Command Float) :=
  [.setupInput 0 0 10, .setupInput 1 0 10, .setupOutput 0 0 30, .setupOutput 1 (-1) 1,
    .setInputMembership 0 0 (.curve .triangular) [0, 5, 10] 1,
    .setInputMembership 1 1 (.curve .linearS) [2, 8] 0.5,
    .setOutputMembership 0 0 (.curve .triangular) [0, 10, 20] 1,
    .setOutputMembership 1 1 (.curve .linearZ) [-1, 1] 0.75,
    .setMethod .bisector, .setEvalPoints 4, .setInput 0 3, .setInput 1 7, .fuzzify, .inference]

theorem status_twoRules : (twoRuleEngine.run twoRuleCommands).status = .succeeded := by
  decide +kernel

end FuzzyInference.Engine
