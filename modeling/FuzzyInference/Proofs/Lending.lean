import FuzzyInference.Proofs.Sessions

/-!
# The engine of a controller

A controller sets up an engine anew for every call. `Controller.fresh` writes that engine down from
the fields of the controller, and `Controller.Lendable` says when the setup succeeds
(`engine_eq_ok_iff`). A controller that was built is lendable and stays so: `Change` lists what a
call can do to it, one case for each kind of call, and no change leads out of the lendable
controllers (`Change.lendable`) or touches the script. `Lendable.run_induction` carries what the
changes preserve over whole histories.
-/

set_option autoImplicit false

namespace FuzzyInference

/-- What setup asks of a script: tables that are neither empty nor larger than the stream can name,
a stream, and a rule. -/
structure Script.Accepted (p : Script) : Prop where
  fit : p.sizes.Fit p.width
  inputs : 0 < p.sizes.inputs
  outputs : 0 < p.sizes.outputs
  inputMemberships : 0 < p.sizes.inputMemberships
  outputMemberships : 0 < p.sizes.outputMemberships
  rules : p.rules ≠ []
  ruleCount : 0 < p.ruleCount

namespace Engine

variable {α : Type}

theorem checkTable_of_le {table : Table} {actual limit : Nat} (hpos : 0 < actual)
    (hle : actual ≤ limit) : checkTable (α := α) table actual limit = .ok () := by
  rw [checkTable, if_neg (Nat.pos_iff_ne_zero.1 hpos), if_neg (Nat.not_lt.2 hle)]

/-- Setup binds exactly the scripts that it accepts, if there is a slot for every rule and the
configuration fits the architecture. -/
theorem setup_eq_ok_iff {w : Width} {architecture : Architecture} {tables : Tables α}
    {rules : List Int} {n : Nat} {config : Config} {e : Engine α} :
    setup w architecture tables rules n config = .ok e ↔
      Script.Accepted ⟨w, tables.sizes, n, rules⟩ ∧ n ≤ tables.strengths.length ∧
        config.Fits architecture ∧
        e = { tables with
          width := w, architecture, config, rules, weights := none, ruleCount := n, completed := 0,
          status := .notRun } := by
  constructor
  · intro h
    obtain ⟨⟨hi, ho, him, hom⟩, ⟨hrules, hn, hslots⟩, hcheck, he⟩ := setup_ok h
    exact ⟨⟨⟨hi.2, ho.2, him.2, hom.2⟩, hi.1, ho.1, him.1, hom.1, hrules, hn⟩, hslots,
      Config.check_eq_ok_iff.1 hcheck, he⟩
  · rintro ⟨⟨⟨hi, ho, him, hom⟩, hi', ho', him', hom', hrules, hn⟩, hslots, hfits, rfl⟩
    have hnot : ¬ (rules = [] ∨ n = 0) := by
      rintro (hempty | hzero)
      · exact hrules hempty
      · exact Nat.pos_iff_ne_zero.1 hn hzero
    have hinputs : checkTable (α := α) .inputs tables.inputs.length w.maxTags = .ok () :=
      checkTable_of_le hi' hi
    have houtputs : checkTable (α := α) .outputs tables.outputs.length w.maxTags = .ok () :=
      checkTable_of_le ho' ho
    have hins : checkTable (α := α) .inputMemberships tables.inputMemberships.length
        w.maxReference = .ok () := checkTable_of_le him' him
    have houts : checkTable (α := α) .outputMemberships tables.outputMemberships.length
        w.maxReference = .ok () := checkTable_of_le hom' hom
    have hcheck : config.check (α := α) architecture = .ok () := Config.check_eq_ok_iff.2 hfits
    unfold setup
    simp only [hinputs, houtputs, hins, houts, if_neg hnot, if_neg (Nat.not_lt.2 hslots), hcheck]
    rfl

variable [Scalar α]

/-! ## What no command changes -/

theorem perform_slots (e : Engine α) (c : Command α) :
    (e.perform c).1.strengths.length = e.strengths.length := by
  rcases perform_cases e c with rfl | rfl | rfl | ⟨-, -, hsetting⟩
  · rfl
  · exact length_inference_strengths e
  · show e.defuzzify.1.strengths.length = e.strengths.length
    rw [(outputsOnly_defuzzify e).eq]
  · rw [hsetting.keeps.strengths]

theorem run_slots (e : Engine α) (cs : List (Command α)) :
    (e.run cs).strengths.length = e.strengths.length :=
  run_induction (P := fun e' => e'.strengths.length = e.strengths.length)
    (fun e' c h => (perform_slots e' c).trans h) rfl cs

end Engine

/-- Lists that are as long as the tables that they are for. -/
def Request.Sized {α : Type} (p : Script) : Request α → Prop
  | .setWeights weights => weights.length = p.ruleCount
  | .evaluate values => values.length = p.sizes.inputs
  | _ => True

namespace Controller

variable {α : Type}

/-- What the walks of the controller's engines depend on. -/
def script (s : Controller α) : Script :=
  ⟨s.width, s.tables.sizes, s.tables.strengths.length, s.rules⟩

/-- The engine that the controller sets up, if it can. -/
def fresh (s : Controller α) : Engine α :=
  { s.tables with
    width := s.width, architecture := s.architecture, config := s.config, rules := s.rules,
    weights := s.weights, ruleCount := s.tables.strengths.length, completed := 0,
    status := .notRun }

/-- A controller that can set up an engine. -/
structure Lendable (s : Controller α) : Prop where
  script : s.script.Accepted
  config : s.config.Fits s.architecture
  weights : ∀ ws, s.weights = some ws → s.tables.strengths.length ≤ ws.length

theorem engine_eq_ok_iff {s : Controller α} {e : Engine α} :
    s.engine = .ok e ↔ s.Lendable ∧ e = s.fresh := by
  unfold engine
  constructor
  · intro h
    obtain ⟨e₀, hsetup, h⟩ := exists_of_bind_ok h
    obtain ⟨hscript, -, hfits, rfl⟩ := Engine.setup_eq_ok_iff.1 hsetup
    cases hweights : s.weights with
    | none =>
        simp only [hweights] at h
        refine ⟨⟨hscript, hfits, ?_⟩, ?_⟩
        · intro ws hws
          rw [hweights] at hws
          cases hws
        · rw [fresh, hweights]
          exact (Except.ok.inj h).symm
    | some ws =>
        simp only [hweights] at h
        obtain ⟨hlength, rfl⟩ := Engine.setWeights_ok h
        refine ⟨⟨hscript, hfits, ?_⟩, ?_⟩
        · intro ws' hws'
          rw [hweights] at hws'
          cases hws'
          exact hlength
        · rw [fresh, hweights]
  · rintro ⟨h, rfl⟩
    have hsetup := Engine.setup_eq_ok_iff.2 ⟨h.script, Nat.le_refl _, h.config, rfl⟩
    cases hweights : s.weights with
    | none =>
        rw [hsetup, fresh, hweights]
        rfl
    | some ws =>
        have hlength := h.weights ws hweights
        rw [hsetup, fresh, hweights]
        exact if_neg (Nat.not_lt.2 hlength)

theorem Lendable.engine_eq {s : Controller α} (h : s.Lendable) : s.engine = .ok s.fresh :=
  engine_eq_ok_iff.2 ⟨h, rfl⟩

theorem Lendable.of_script {s s' : Controller α} (h : s.Lendable) (hscript : s'.script = s.script)
    (hconfig : s'.config.Fits s'.architecture)
    (hweights : ∀ ws, s'.weights = some ws → s.tables.strengths.length ≤ ws.length) :
    s'.Lendable := by
  refine ⟨by rw [hscript]; exact h.script, hconfig, ?_⟩
  intro ws hws
  rw [show s'.tables.strengths.length = s.tables.strengths.length from
    congrArg Script.ruleCount hscript]
  exact hweights ws hws

section Assign

theorem script_assigned (s : Controller α) (values : List α) :
    (s.assigned values).script = s.script := by
  have hlength : (Variable.assign s.tables.inputs values).length = s.tables.inputs.length := by
    generalize s.tables.inputs = vs
    induction vs generalizing values with
    | nil => cases values <;> rfl
    | cons v vs ih =>
        cases values with
        | nil => rfl
        | cons x xs => exact congrArg (· + 1) (ih xs)
  simp only [script, assigned, Tables.sizes, hlength]

theorem Lendable.assigned {s : Controller α} (h : s.Lendable) (values : List α) :
    (s.assigned values).Lendable :=
  h.of_script (s.script_assigned values) h.config h.weights

end Assign

variable [Scalar α]

theorem script_fresh_run (s : Controller α) (cs : List (Command α)) :
    (s.fresh.run cs).script = s.script := Engine.run_script s.fresh cs

/-- The tables that the controller's engine leaves behind are as long as they were. -/
theorem script_of_run (s : Controller α) (cs : List (Command α)) :
    ({ s with tables := (s.fresh.run cs).toTables } : Controller α).script = s.script := by
  have hsizes : (s.fresh.run cs).sizes = s.tables.sizes :=
    congrArg Script.sizes (s.script_fresh_run cs)
  have hslots : (s.fresh.run cs).strengths.length = s.tables.strengths.length :=
    Engine.run_slots s.fresh cs
  simp only [script, hsizes, hslots]

theorem Lendable.fits_run {s : Controller α} (h : s.Lendable) (cs : List (Command α)) :
    (s.fresh.run cs).config.Fits s.architecture := by
  have hfits := Engine.run_induction (P := fun e => e.config.Fits e.architecture)
    Engine.perform_fits (e := s.fresh) h.config cs
  rwa [Engine.run_architecture] at hfits

/-! ## One call -/

/-- What a call does to a controller that can set up an engine. -/
inductive Change (s : Controller α) : Request α → Controller α → Prop where
  /-- A configuration that does not fit is refused. -/
  | refused {config : Config} (hcheck : ¬ config.Fits s.architecture) :
      Change s (.setConfig config) s
  | config {config : Config} (hfits : config.Fits s.architecture) :
      Change s (.setConfig config) { s with config }
  | weights (ws : List α) : Change s (.setWeights ws) { s with weights := some ws }
  /-- A configuration that succeeds keeps tables and configuration. -/
  | configured (cs : List (Command α)) :
      Change s (.configure cs (.ok ()))
        { s with tables := (s.fresh.run cs).toTables, config := (s.fresh.run cs).config }
  /-- A configuration that fails keeps the tables only. -/
  | dropped (cs : List (Command α)) (err : EngineError α) :
      Change s (.configure cs (.error err)) { s with tables := (s.fresh.run cs).toTables }
  | session (cs : List (Command α)) :
      Change s (.session cs) { s with tables := (s.fresh.run cs).toTables }
  /-- An evaluation writes the inputs and keeps what a cycle does to the tables, even if it fails. -/
  | evaluated (values : List α) :
      Change s (.evaluate values)
        { s with tables := (s.assigned values).fresh.cycled.1.toTables }

theorem Lendable.change_perform {s : Controller α} (h : s.Lendable) (r : Request α) :
    Change s r (s.perform r) := by
  cases r with
  | setConfig config =>
      show Change s (.setConfig config) (s.setConfig config).1
      unfold setConfig
      cases hcheck : config.check (α := α) s.architecture with
      | ok u => exact .config (Config.check_eq_ok_iff.1 hcheck)
      | error err =>
          apply Change.refused
          intro hfits
          rw [Config.check_eq_ok_iff.2 hfits] at hcheck
          cases hcheck
  | setWeights ws => exact .weights ws
  | configure cs result =>
      have hperform : s.perform (.configure cs result) =
          (s.configure fun e => (e.run cs, result)).1 := rfl
      rw [hperform, configure, session, h.engine_eq]
      cases result with
      | ok u => exact .configured cs
      | error err => exact .dropped cs err
  | session cs =>
      have hperform : s.perform (.session cs) = (s.session fun e => (e.run cs, ())).1 := rfl
      rw [hperform, session, h.engine_eq]
      exact .session cs
  | evaluate values =>
      have hperform : s.perform (.evaluate values) = (s.evaluate values).1 := rfl
      rw [hperform, evaluate_of_engine (h.assigned values).engine_eq]
      exact .evaluated values

variable {s s' : Controller α} {r : Request α}

theorem Change.script (hchange : Change s r s') : s'.script = s.script := by
  cases hchange with
  | refused _ => rfl
  | config _ => rfl
  | weights ws => rfl
  | configured cs => exact s.script_of_run cs
  | dropped cs err => exact s.script_of_run cs
  | session cs => exact s.script_of_run cs
  | evaluated values =>
      rw [← Engine.run_cycled]
      exact ((s.assigned values).script_of_run _).trans (s.script_assigned values)

theorem Change.architecture (hchange : Change s r s') : s'.architecture = s.architecture := by
  cases hchange <;> rfl

/-- No call on lists of the right lengths leads out of the lendable controllers. -/
theorem Change.lendable (hchange : Change s r s') (h : s.Lendable) (hr : r.Sized s.script) :
    s'.Lendable := by
  refine h.of_script hchange.script ?_ ?_
  · cases hchange with
    | config hfits => exact hfits
    | configured cs => exact h.fits_run cs
    | _ => exact h.config
  · cases hchange with
    | weights ws =>
        intro ws' hws'
        cases hws'
        exact Nat.le_of_eq hr.symm
    | _ => exact h.weights

/-! ## Whole histories -/

/-- What every change preserves, every history preserves. -/
theorem Lendable.run_induction {P : Controller α → Prop}
    (hstep : ∀ s r s', s.Lendable → Change s r s' → P s → P s') {rs : List (Request α)}
    (h : s.Lendable) (hrs : ∀ r ∈ rs, r.Sized s.script) (hP : P s) :
    (s.run rs).Lendable ∧ P (s.run rs) := by
  induction rs generalizing s with
  | nil => exact ⟨h, hP⟩
  | cons r rs ih =>
      have hchange := h.change_perform r
      refine ih (hchange.lendable h (hrs r List.mem_cons_self)) ?_ (hstep s r _ h hchange hP)
      intro r' hr'
      rw [hchange.script]
      exact hrs r' (List.mem_cons_of_mem r hr')

theorem Lendable.lendable_run {rs : List (Request α)} (h : s.Lendable)
    (hrs : ∀ r ∈ rs, r.Sized s.script) : (s.run rs).Lendable :=
  (h.run_induction (P := fun _ => True) (fun _ _ _ _ _ _ => trivial) hrs trivial).1

theorem Lendable.script_run {rs : List (Request α)} (h : s.Lendable)
    (hrs : ∀ r ∈ rs, r.Sized s.script) : (s.run rs).script = s.script :=
  (h.run_induction (P := fun s' => s'.script = s.script)
    (fun _ _ _ _ hchange heq => hchange.script.trans heq) hrs rfl).2

theorem Lendable.architecture_run {rs : List (Request α)} (h : s.Lendable)
    (hrs : ∀ r ∈ rs, r.Sized s.script) : (s.run rs).architecture = s.architecture :=
  (h.run_induction (P := fun s' => s'.architecture = s.architecture)
    (fun _ _ _ _ hchange heq => hchange.architecture.trans heq) hrs rfl).2

/-- A controller that was built can set up an engine. -/
theorem lendable_of_build {w : Width} {architecture : Architecture} {sizes : Sizes} {n : Nat}
    {rules : List Int} {config : Config}
    (hbuild : build w architecture sizes n rules config = .ok s) :
    s = ⟨w, architecture, config, .blank sizes n, rules, none⟩ ∧ s.Lendable ∧
      s.script = ⟨w, sizes, n, rules⟩ := by
  obtain ⟨e, hengine, hs⟩ := exists_of_bind_ok hbuild
  obtain rfl := Except.ok.inj hs
  refine ⟨rfl, (engine_eq_ok_iff.1 hengine).1, ?_⟩
  simp only [script, Tables.blank, Tables.sizes, List.length_replicate]

end Controller

end FuzzyInference
