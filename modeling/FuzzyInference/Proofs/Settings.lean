import FuzzyInference.Engine.Command

/-!
# What an accepted setting did

Every setting of an engine checks its arguments and then changes one thing. Each theorem below
inverts one setting: if it was accepted, its checks passed, and the engine is the old one with that
one change. Later files use these equations and never open a setting again.

`setup_ok` does the same for setup.

The settings that make up a configuration look at the tables, the architecture and the configuration
only. `Engine.Rest` is everything else, and `perform_withRest` says that they neither read nor write
it.
-/

set_option autoImplicit false

namespace FuzzyInference

/-- A sequence of two computations succeeds when both do. -/
theorem exists_of_bind_ok {ε β γ : Type} {x : Except ε β} {f : β → Except ε γ} {c : γ}
    (h : (x >>= f) = .ok c) : ∃ b, x = .ok b ∧ f b = .ok c := by
  cases x with
  | error err => cases h
  | ok b => exact ⟨b, rfl, h⟩

/-- Two sequences that begin alike differ as their continuations do. -/
theorem bind_eq_map {ε β γ δ : Type} {x : Except ε β} {f : β → Except ε γ} {f' : β → Except ε δ}
    {g : γ → δ} (h : ∀ b, f' b = (f b).map g) : (x >>= f') = (x >>= f).map g := by
  cases x with
  | error err => rfl
  | ok b => exact h b

theorem mapError_eq_ok_iff {ε ε' β : Type} {x : Except ε β} {f : ε → ε'} {b : β} :
    x.mapError f = .ok b ↔ x = .ok b := by
  cases x with
  | error err => exact ⟨nofun, nofun⟩
  | ok a =>
      show (Except.ok a : Except ε' β) = .ok b ↔ (Except.ok a : Except ε β) = .ok b
      rw [Except.ok.injEq, Except.ok.injEq]

/-- A list of checks succeeds when each of them does. -/
theorem forM_eq_ok_iff {ε β : Type} {check : β → Except ε Unit} {l : List β} :
    l.forM check = .ok () ↔ ∀ x ∈ l, check x = .ok () := by
  induction l with
  | nil => exact ⟨fun _ _ h => absurd h List.not_mem_nil, fun _ => rfl⟩
  | cons x l ih =>
      rw [List.forall_mem_cons, ← ih]
      constructor
      · intro h
        obtain ⟨_, hx, h⟩ := exists_of_bind_ok h
        exact ⟨hx, h⟩
      · rintro ⟨hx, h⟩
        show (check x >>= fun _ => l.forM check) = .ok ()
        rw [hx]
        exact h

namespace Engine

variable {α : Type}

/-! ## Setup -/

theorem checkTable_ok {table : Table} {actual limit : Nat}
    (h : checkTable (α := α) table actual limit = .ok ()) : 0 < actual ∧ actual ≤ limit := by
  unfold checkTable at h
  split at h
  · cases h
  · split at h
    · cases h
    · omega

/-- What setup promises of the engine that it binds. -/
theorem setup_ok {w : Width} {architecture : Architecture} {tables : Tables α} {rules : List Int}
    {ruleCount : Nat} {config : Config} {e : Engine α}
    (h : setup w architecture tables rules ruleCount config = .ok e) :
    ((0 < tables.inputs.length ∧ tables.inputs.length ≤ w.maxTags) ∧
      (0 < tables.outputs.length ∧ tables.outputs.length ≤ w.maxTags) ∧
      (0 < tables.inputMemberships.length ∧ tables.inputMemberships.length ≤ w.maxReference) ∧
      (0 < tables.outputMemberships.length ∧
        tables.outputMemberships.length ≤ w.maxReference)) ∧
    (rules ≠ [] ∧ 0 < ruleCount ∧ ruleCount ≤ tables.strengths.length) ∧
    config.check (α := α) architecture = .ok () ∧
    e = { tables with
      width := w, architecture, config, rules, weights := none, ruleCount, completed := 0,
      status := .notRun } := by
  obtain ⟨_, h1, h⟩ := exists_of_bind_ok h
  obtain ⟨_, h2, h⟩ := exists_of_bind_ok h
  obtain ⟨_, h3, h⟩ := exists_of_bind_ok h
  obtain ⟨_, h4, h⟩ := exists_of_bind_ok h
  refine ⟨⟨checkTable_ok h1, checkTable_ok h2, checkTable_ok h3, checkTable_ok h4⟩, ?_⟩
  dsimp only at h
  by_cases hrules : rules = [] ∨ ruleCount = 0
  · rw [if_pos hrules] at h
    cases h
  · rw [if_neg hrules] at h
    by_cases hslots : tables.strengths.length < ruleCount
    · simp only [if_pos hslots] at h
      cases h
    · simp only [if_neg hslots] at h
      obtain ⟨_, hconfig, h⟩ := exists_of_bind_ok h
      have hempty : rules ≠ [] := fun he => hrules (Or.inl he)
      have hcount : ruleCount ≠ 0 := fun hz => hrules (Or.inr hz)
      exact ⟨⟨hempty, Nat.pos_of_ne_zero hcount, Nat.not_lt.1 hslots⟩, hconfig,
        (Except.ok.inj h).symm⟩

/-- The checks of setup. They look at no entry of a table and at no item of the stream. -/
def checkSetup (w : Width) (architecture : Architecture) (sizes : Sizes) (slots : Nat)
    (rules : List Int) (ruleCount : Nat) (config : Config) : Except (EngineError α) Unit := do
  checkTable .inputs sizes.inputs w.maxTags
  checkTable .outputs sizes.outputs w.maxTags
  checkTable .inputMemberships sizes.inputMemberships w.maxReference
  checkTable .outputMemberships sizes.outputMemberships w.maxReference
  if rules = [] ∨ ruleCount = 0 then throw (.emptyTable .rules)
  if slots < ruleCount then throw (.strengthsTooShort ruleCount slots)
  config.check architecture

/-- Setup checks, and then binds. -/
theorem setup_eq (w : Width) (architecture : Architecture) (tables : Tables α) (rules : List Int)
    (ruleCount : Nat) (config : Config) :
    setup w architecture tables rules ruleCount config =
      (checkSetup w architecture tables.sizes tables.strengths.length rules ruleCount config).map
        fun _ => { tables with
          width := w, architecture, config, rules, weights := none, ruleCount, completed := 0,
          status := .notRun } := by
  unfold setup checkSetup
  refine bind_eq_map fun _ => bind_eq_map fun _ => bind_eq_map fun _ => bind_eq_map fun _ => ?_
  dsimp only
  by_cases hrules : rules = [] ∨ ruleCount = 0
  · simp only [if_pos hrules]
    rfl
  by_cases hslots : tables.strengths.length < ruleCount
  · simp only [if_neg hrules, if_pos hslots]
    rfl
  simp only [if_neg hrules, if_neg hslots]
  cases config.check (α := α) architecture <;> rfl

/-! ## Settings -/

variable {e e' : Engine α}

theorem setOperator_ok {role : Role} {op : Operator} (h : e.setOperator role op = .ok e') :
    role.accepts op = true ∧ e' = { e with config := e.config.bind op role } := by
  obtain ⟨config, hc, h⟩ := exists_of_bind_ok h
  unfold Config.withOperator at hc
  split at hc
  · rename_i haccepts
    rw [← Except.ok.inj hc] at h
    exact ⟨haccepts, (Except.ok.inj h).symm⟩
  · cases hc

theorem setMethod_ok {m : Method} (h : e.setMethod m = .ok e') :
    m.supports e.architecture = true ∧ e' = { e with config := { e.config with method := m } } := by
  unfold setMethod at h
  split at h
  · rename_i hsupports
    exact ⟨hsupports, (Except.ok.inj h).symm⟩
  · cases h

theorem setEvalPoints_ok {points : Nat} (h : e.setEvalPoints points = .ok e') :
    0 < points ∧ (e.outputs.filterMap Output.region).forM (checkRegion points) = .ok () ∧
      e' = { e with config := { e.config with evalPoints := points } } := by
  unfold setEvalPoints at h
  dsimp only at h
  by_cases hp : points = 0
  · rw [if_pos hp] at h
    cases h
  · rw [if_neg hp] at h
    obtain ⟨_, hr, h⟩ := exists_of_bind_ok h
    exact ⟨Nat.pos_of_ne_zero hp, hr, (Except.ok.inj h).symm⟩

theorem setWeights_ok {weights : List α} (h : e.setWeights weights = .ok e') :
    e.ruleCount ≤ weights.length ∧ e' = { e with weights := some weights } := by
  unfold setWeights at h
  split at h
  · cases h
  · rename_i hlen
    exact ⟨Nat.not_lt.1 hlen, (Except.ok.inj h).symm⟩

theorem storeRegion_ok {tag : Int} {region : Region α} (h : e.storeRegion tag region = .ok e') :
    ∃ o, slot (α := α) .output tag e.outputs.length = .ok o ∧
      checkRegion e.config.evalPoints region = .ok () ∧
      e' = { e with
        outputs := e.outputs.modify o fun out => { out with region := some region } } := by
  obtain ⟨o, ho, h⟩ := exists_of_bind_ok h
  obtain ⟨_, hr, h⟩ := exists_of_bind_ok h
  exact ⟨o, ho, hr, (Except.ok.inj h).symm⟩

theorem setInput_ok {tag : Int} {value : α} (h : e.setInput tag value = .ok e') :
    ∃ i, slot (α := α) .input tag e.inputs.length = .ok i ∧
      e' = { e with inputs := e.inputs.modify i fun v => { v with value } } := by
  obtain ⟨i, hi, h⟩ := exists_of_bind_ok h
  exact ⟨i, hi, (Except.ok.inj h).symm⟩

section Arithmetic

variable [Scalar α]

theorem setupInput_ok {tag : Int} {lower upper : α} (h : e.setupInput tag lower upper = .ok e') :
    ∃ i, slot (α := α) .input tag e.inputs.length = .ok i ∧ checkRange lower upper = .ok () ∧
      e' = { e with inputs := e.inputs.modify i fun v => { v with lower, upper } } := by
  obtain ⟨i, hi, h⟩ := exists_of_bind_ok h
  obtain ⟨_, hr, h⟩ := exists_of_bind_ok h
  exact ⟨i, hi, hr, (Except.ok.inj h).symm⟩

theorem setupOutput_ok {tag : Int} {lower upper : α} (h : e.setupOutput tag lower upper = .ok e') :
    ∃ o, slot (α := α) .output tag e.outputs.length = .ok o ∧ checkRange lower upper = .ok () ∧
      e' = { e with outputs := e.outputs.modify o fun out => { out with lower, upper } } := by
  obtain ⟨o, ho, h⟩ := exists_of_bind_ok h
  obtain ⟨_, hr, h⟩ := exists_of_bind_ok h
  exact ⟨o, ho, hr, (Except.ok.inj h).symm⟩

theorem setInputMembership_ok {input tag : Int} {shape : Shape α} {coefficients : List α}
    {height : α} (h : e.setInputMembership input tag shape coefficients height = .ok e') :
    ∃ i m, slot (α := α) .input input e.inputs.length = .ok i ∧
      membershipSlot (α := α) tag e.inputMemberships.length = .ok m ∧
      e.checkShape .input shape coefficients = .ok () ∧
      e' = { e with
        inputMemberships := e.inputMemberships.set m (.attached i shape coefficients height) } := by
  obtain ⟨i, hi, h⟩ := exists_of_bind_ok h
  obtain ⟨m, hm, h⟩ := exists_of_bind_ok h
  obtain ⟨_, hs, h⟩ := exists_of_bind_ok h
  exact ⟨i, m, hi, hm, hs, (Except.ok.inj h).symm⟩

theorem setOutputMembership_ok {output tag : Int} {shape : Shape α} {coefficients : List α}
    {height : α} (h : e.setOutputMembership output tag shape coefficients height = .ok e') :
    ∃ o m, slot (α := α) .output output e.outputs.length = .ok o ∧
      membershipSlot (α := α) tag e.outputMemberships.length = .ok m ∧
      e.checkShape .output shape coefficients = .ok () ∧
      e' = { e with
        outputMemberships :=
          e.outputMemberships.set m (.attached o shape coefficients height) } := by
  obtain ⟨o, ho, h⟩ := exists_of_bind_ok h
  obtain ⟨m, hm, h⟩ := exists_of_bind_ok h
  obtain ⟨_, hs, h⟩ := exists_of_bind_ok h
  exact ⟨o, m, ho, hm, hs, (Except.ok.inj h).symm⟩

end Arithmetic

end Engine

/-! ## What settings do not look at -/

/-- A setting that is a part of a configuration: any but that of the weights. -/
def Command.Configures {α : Type} : Command α → Prop
  | .setWeights _ | .fuzzify | .inference | .defuzzify => False
  | _ => True

namespace Engine

variable {α : Type}

/-- What an engine has beside its tables, its architecture and its configuration. -/
structure Rest (α : Type) where
  width : Width
  rules : List Int
  weights : Option (List α)
  ruleCount : Nat
  completed : Nat
  status : Status

/-- What the engine has beside tables, architecture and configuration. -/
def rest (e : Engine α) : Rest α :=
  ⟨e.width, e.rules, e.weights, e.ruleCount, e.completed, e.status⟩

/-- The engine with another rest. -/
def withRest (e : Engine α) (r : Rest α) : Engine α :=
  { e with
    width := r.width, rules := r.rules, weights := r.weights, ruleCount := r.ruleCount,
    completed := r.completed, status := r.status }

/-- The engine with another rest and other slots for strengths. -/
def swapped (e : Engine α) (r : Rest α) (slots : List α) : Engine α :=
  { e.withRest r with strengths := slots }

theorem swapped_outputs (e : Engine α) (r : Rest α) (slots : List α) :
    (e.swapped r slots).outputs = e.outputs := rfl

theorem settled_swapped {e : Engine α} {r : Rest α} {slots : List α}
    {result result' : Except (EngineError α) (Engine α)}
    (h : result' = result.map fun e' => e'.swapped r slots) :
    (e.swapped r slots).settled result' =
      ((e.settled result).1.swapped r slots, (e.settled result).2) := by
  subst h
  cases result <;> rfl

variable [Scalar α]

/-- A setting of a configuration neither reads the rest or the strengths nor writes them. -/
theorem perform_swapped (e : Engine α) (r : Rest α) (slots : List α) {c : Command α}
    (hc : c.Configures) :
    (e.swapped r slots).perform c = ((e.perform c).1.swapped r slots, (e.perform c).2) := by
  cases c with
  | setWeights _ | fuzzify | inference | defuzzify => exact hc.elim
  | setupInput tag lower upper =>
      apply settled_swapped
      exact bind_eq_map fun _ => bind_eq_map fun _ => rfl
  | setupOutput tag lower upper =>
      apply settled_swapped
      exact bind_eq_map fun _ => bind_eq_map fun _ => rfl
  | setInputMembership input tag shape coefficients height =>
      apply settled_swapped
      exact bind_eq_map fun _ => bind_eq_map fun _ => bind_eq_map fun _ => rfl
  | setOutputMembership output tag shape coefficients height =>
      apply settled_swapped
      exact bind_eq_map fun _ => bind_eq_map fun _ => bind_eq_map fun _ => rfl
  | setOperator role op =>
      apply settled_swapped
      exact bind_eq_map fun _ => rfl
  | setMethod m =>
      apply settled_swapped
      show (if m.supports e.architecture then _ else _) = _
      unfold setMethod
      cases m.supports e.architecture <;> rfl
  | setEvalPoints points =>
      apply settled_swapped
      unfold setEvalPoints
      by_cases hpoints : points = 0
      · rw [if_pos hpoints, if_pos hpoints]
        rfl
      · rw [if_neg hpoints, if_neg hpoints]
        exact bind_eq_map fun _ => rfl
  | storeRegion output region =>
      apply settled_swapped
      exact bind_eq_map fun _ => bind_eq_map fun _ => rfl
  | setInput tag value =>
      apply settled_swapped
      exact bind_eq_map fun _ => rfl

theorem perform_strengths (e : Engine α) {c : Command α} (hc : c.Configures) :
    (e.perform c).1.strengths = e.strengths := by
  have hperform : (e.perform c).1 = (e.perform c).1.swapped e.rest e.strengths :=
    congrArg Prod.fst (e.perform_swapped e.rest e.strengths hc)
  rw [hperform]
  rfl

theorem perform_withRest (e : Engine α) (r : Rest α) {c : Command α} (hc : c.Configures) :
    (e.withRest r).perform c = ((e.perform c).1.withRest r, (e.perform c).2) := by
  have hover : (e.perform c).1.withRest r = (e.perform c).1.swapped r e.strengths := by
    rw [← e.perform_strengths hc]
    rfl
  rw [hover]
  exact e.perform_swapped r e.strengths hc

theorem perform_rest (e : Engine α) {c : Command α} (hc : c.Configures) :
    (e.perform c).1.rest = e.rest := by
  have hperform : (e.perform c).1 = (e.perform c).1.withRest e.rest :=
    congrArg Prod.fst (e.perform_withRest e.rest hc)
  rw [hperform]
  rfl

theorem run_withRest (e : Engine α) (r : Rest α) {cs : List (Command α)}
    (hcs : ∀ c ∈ cs, c.Configures) : (e.withRest r).run cs = (e.run cs).withRest r := by
  induction cs generalizing e with
  | nil => rfl
  | cons c cs ih =>
      obtain ⟨hc, hcs⟩ := List.forall_mem_cons.1 hcs
      rw [run, run, perform_withRest e r hc, ih _ hcs]

theorem run_rest (e : Engine α) {cs : List (Command α)} (hcs : ∀ c ∈ cs, c.Configures) :
    (e.run cs).rest = e.rest := by
  have hrun : e.run cs = (e.run cs).withRest e.rest := e.run_withRest e.rest hcs
  rw [hrun]
  rfl

end Engine

end FuzzyInference
