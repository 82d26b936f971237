import FuzzyInference.Proofs.Ranges

/-!
# What cycles leave alone

A cycle writes into the tables: values, degrees, strengths, samples, accumulators and regions.
`Tables.cleared` erases all of that and keeps what was set up. Two controllers with the same
settings are equal once they are cleared (`Controller.cleared`), and the engines that they set up
differ in their tables only (`Controller.engine_cleared`).

No evaluation changes the settings, whether it succeeds or fails (`Controller.evaluate_cleared`).
-/

set_option autoImplicit false

namespace FuzzyInference

variable {α : Type} [Scalar α]

/-! ## What was set up -/

omit [Scalar α] in
/-- The variable without its value. -/
def Variable.cleared (v : Variable α) : Variable α := { v with value := v.lower }

/-- The membership function without the degree that it keeps. -/
def Membership.cleared (m : Membership α) : Membership α := { m with degree := 0 }

/-- The output with nothing but its range. -/
def Output.cleared (out : Output α) : Output α :=
  { out.toVariable.cleared with x := 0, y := 0, accumulator := .idle, region := none }

/-- The tables without what cycles have written. -/
def Tables.cleared (t : Tables α) : Tables α where
  inputs := t.inputs.map Variable.cleared
  outputs := t.outputs.map Output.cleared
  inputMemberships := t.inputMemberships.map Membership.cleared
  outputMemberships := t.outputMemberships.map Membership.cleared
  strengths := List.replicate t.strengths.length 0

/-- The engine over cleared tables. -/
def Engine.cleared (e : Engine α) : Engine α := { e with toTables := e.toTables.cleared }

/-- The controller with cleared tables. -/
def Controller.cleared (s : Controller α) : Controller α := { s with tables := s.tables.cleared }

omit [Scalar α] in
/-- Tables that agree once they are cleared have entries at the same places, which agree. -/
theorem getElem?_of_map_eq {β γ : Type} {f : β → γ} {l l' : List β} (h : l'.map f = l.map f)
    (i : Nat) :
    (l[i]? = none ∧ l'[i]? = none) ∨ ∃ x x', l[i]? = some x ∧ l'[i]? = some x' ∧ f x' = f x := by
  have hget : l'[i]?.map f = l[i]?.map f := by
    rw [← List.getElem?_map, ← List.getElem?_map, h]
  cases hx : l[i]? with
  | none =>
      rw [hx, Option.map_none, Option.map_eq_none_iff] at hget
      exact Or.inl ⟨rfl, hget⟩
  | some x =>
      rw [hx, Option.map_some, Option.map_eq_some_iff] at hget
      obtain ⟨x', hx', hf⟩ := hget
      exact Or.inr ⟨x, x', rfl, hx', hf⟩

theorem Membership.scaled_cleared (m : Membership α) (v : Variable α) :
    m.cleared.scaled v = m.scaled v := rfl

omit [Scalar α] in
/-- Of a variable only the range is left. -/
theorem Variable.cleared_eq_iff {v v' : Variable α} :
    v'.cleared = v.cleared ↔ v'.lower = v.lower ∧ v'.upper = v.upper := by
  simp only [cleared, mk.injEq]
  exact ⟨fun h => ⟨h.1, h.2.1⟩, fun h => ⟨h.1, h.2, h.1⟩⟩

/-- Of an output only the range is left. -/
theorem Output.cleared_eq_iff {out out' : Output α} :
    out'.cleared = out.cleared ↔ out'.range = out.range := by
  constructor
  · intro h
    have hlower : out'.lower = out.lower := congrArg (fun out => out.lower) h
    have hupper : out'.upper = out.upper := congrArg (fun out => out.upper) h
    rw [range, range, hlower, hupper]
  · intro h
    obtain ⟨hlower, hupper⟩ := Prod.mk.inj h
    simp only [cleared, Variable.cleared, hlower, hupper]

namespace Engine

theorem setup_cleared (w : Width) (architecture : Architecture) (t : Tables α)
    (rules : List Int) (n : Nat) (config : Config) :
    setup w architecture t.cleared rules n config =
      (setup w architecture t rules n config).map cleared := by
  have hsizes : t.cleared.sizes = t.sizes := by
    simp only [Tables.sizes, Tables.cleared, List.length_map]
  have hslots : t.cleared.strengths.length = t.strengths.length := List.length_replicate
  rw [setup_eq, setup_eq, hsizes, hslots]
  cases checkSetup (α := α) w architecture t.sizes t.strengths.length rules n config <;> rfl

theorem setWeights_cleared (e : Engine α) (ws : List α) :
    e.cleared.setWeights ws = (e.setWeights ws).map cleared := by
  unfold setWeights
  show (if ws.length < e.ruleCount then _ else _) = _
  split <;> rfl

end Engine

/-- Whether an engine can be set up, and what it is but for the tables, does not depend on what
cycles have written. -/
theorem Controller.engine_cleared (s : Controller α) :
    s.cleared.engine = s.engine.map Engine.cleared := by
  have hsetup := Engine.setup_cleared s.width s.architecture s.tables s.rules
    s.tables.strengths.length s.config
  have hcount : s.cleared.tables.strengths.length = s.tables.strengths.length :=
    List.length_replicate
  have hweights : s.cleared.weights = s.weights := rfl
  unfold engine
  rw [hcount, hweights, show s.cleared.tables = s.tables.cleared from rfl]
  show Engine.setup s.width s.architecture s.tables.cleared s.rules _ s.config >>= _ = _
  rw [hsetup]
  cases Engine.setup s.width s.architecture s.tables s.rules s.tables.strengths.length s.config with
  | error err => rfl
  | ok e =>
      cases s.weights with
      | none => rfl
      | some weights => exact e.setWeights_cleared weights

/-- Controllers with the same settings either cannot set up an engine, for the same reason, or set
up engines with the same settings. -/
theorem Controller.engine_of_cleared {s s' : Controller α} (h : s'.cleared = s.cleared) :
    (∃ err, s.engine = .error err ∧ s'.engine = .error err) ∨
      ∃ e e', s.engine = .ok e ∧ s'.engine = .ok e' ∧ e'.cleared = e.cleared := by
  have hengines : s'.engine.map Engine.cleared = s.engine.map Engine.cleared := by
    rw [← engine_cleared, ← engine_cleared, h]
  cases hengine : s.engine with
  | error err =>
      cases hengine' : s'.engine with
      | error err' =>
          rw [hengine, hengine'] at hengines
          obtain rfl : err' = err := Except.error.inj hengines
          exact Or.inl ⟨err', rfl, rfl⟩
      | ok e' =>
          rw [hengine, hengine'] at hengines
          cases hengines
  | ok e =>
      cases hengine' : s'.engine with
      | error err' =>
          rw [hengine, hengine'] at hengines
          cases hengines
      | ok e' =>
          rw [hengine, hengine'] at hengines
          exact Or.inr ⟨e, e', rfl, rfl, Except.ok.inj hengines⟩

/-! ## Input values -/

section Assign

omit [Scalar α]

theorem Variable.getElem?_assign (vs : List (Variable α)) (xs : List α) (i : Nat) :
    (assign vs xs)[i]? = vs[i]?.map fun v => { v with value := xs[i]?.getD v.value } := by
  induction vs generalizing xs i with
  | nil => cases xs <;> simp [assign]
  | cons v vs ih =>
      cases xs with
      | nil => simp [assign]
      | cons x xs =>
          cases i with
          | zero => simp [assign]
          | succ i => simpa [assign] using ih xs i

theorem Variable.exists_of_mem_assign {vs : List (Variable α)} {xs : List α} {v' : Variable α}
    (h : v' ∈ assign vs xs) : ∃ v ∈ vs, v'.lower = v.lower ∧ v'.upper = v.upper := by
  obtain ⟨i, hi⟩ := List.getElem?_of_mem h
  rw [getElem?_assign, Option.map_eq_some_iff] at hi
  obtain ⟨v, hv, rfl⟩ := hi
  exact ⟨v, List.mem_of_getElem? hv, rfl, rfl⟩

theorem Variable.map_cleared_assign (vs : List (Variable α)) (xs : List α) :
    (assign vs xs).map cleared = vs.map cleared := by
  refine List.ext_getElem? fun i => ?_
  rw [List.getElem?_map, List.getElem?_map, getElem?_assign, Option.map_map]
  rfl

end Assign

/-- Values, each confined to the range of its variable. -/
def Variable.clamps (vs : List (Variable α)) (xs : List α) : List α :=
  List.zipWith (fun v x => Scalar.clamp v.lower v.upper x) vs xs

/-- Both lists give every variable a value, and the two values are equal once they are confined to
its range. -/
structure Variable.SameConfined (vs : List (Variable α)) (xs xs' : List α) : Prop where
  length : vs.length ≤ xs.length
  length' : vs.length ≤ xs'.length
  clamps : clamps vs xs' = clamps vs xs

theorem Variable.SameConfined.getElem? {vs : List (Variable α)} {xs xs' : List α}
    (h : SameConfined vs xs xs') {i : Nat} {v : Variable α} (hv : vs[i]? = some v) :
    ∃ x x', xs[i]? = some x ∧ xs'[i]? = some x' ∧
      Scalar.clamp v.lower v.upper x' = Scalar.clamp v.lower v.upper x := by
  have hi : i < vs.length := (List.getElem?_eq_some_iff.1 hv).1
  have hx := List.getElem?_eq_getElem (Nat.lt_of_lt_of_le hi h.length)
  have hx' := List.getElem?_eq_getElem (Nat.lt_of_lt_of_le hi h.length')
  have hclamps : (Variable.clamps vs xs')[i]? = (Variable.clamps vs xs)[i]? := by rw [h.clamps]
  rw [Variable.clamps, Variable.clamps, List.getElem?_zipWith, List.getElem?_zipWith, hv, hx, hx']
    at hclamps
  exact ⟨_, _, hx, hx', Option.some.inj hclamps⟩

/-- Whatever the variables hold, only the confined values of the lists come through. -/
theorem Variable.map_confined_assign {vs vs' : List (Variable α)} {xs xs' : List α}
    (hcleared : vs'.map cleared = vs.map cleared) (h : SameConfined vs xs xs') :
    (assign vs' xs').map confined = (assign vs xs).map confined := by
  refine List.ext_getElem? fun i => ?_
  rw [List.getElem?_map, List.getElem?_map, getElem?_assign, getElem?_assign]
  rcases getElem?_of_map_eq hcleared i with ⟨hv, hv'⟩ | ⟨v, v', hv, hv', hvv'⟩
  · rw [hv, hv']
    rfl
  · obtain ⟨hlower, hupper⟩ := cleared_eq_iff.1 hvv'
    obtain ⟨x, x', hx, hx', hclamp⟩ := h.getElem? hv
    rw [hv, hv', hx, hx']
    simp only [Option.map_some, Option.getD_some, confined, hlower, hupper, hclamp]

theorem Controller.assigned_cleared (s : Controller α) (values : List α) :
    (s.assigned values).cleared = s.cleared := by
  simp only [cleared, assigned, Tables.cleared, Variable.map_cleared_assign]

/-! ## One cycle -/

namespace Engine

theorem fuzzify_cleared (e : Engine α) : e.fuzzify.toTables.cleared = e.toTables.cleared := by
  simp only [Tables.cleared, fuzzify, List.map_map]
  rfl

theorem inference_cleared (e : Engine α) :
    e.inference.1.toTables.cleared = e.toTables.cleared := by
  have hlength := e.length_inference_strengths
  obtain ⟨status, hengine, -⟩ := e.inference_eq
  rw [hengine] at hlength ⊢
  simp only [Tables.cleared]
  rw [hlength]

theorem defuzzify_cleared {e : Engine α} (hconfirmed : e.Confirmed) :
    e.defuzzify.1.toTables.cleared = e.toTables.cleared := by
  by_cases hstatus : e.status = .succeeded
  · have houtputs : (e.outputs.mapIdx e.crisp).map Output.cleared =
        e.outputs.map Output.cleared := by
      refine List.ext_getElem? fun o => ?_
      rw [List.getElem?_map, List.getElem?_map, List.getElem?_mapIdx, Option.map_map]
      exact congrArg (fun f => Option.map f e.outputs[o]?)
        (funext fun out => Output.cleared_eq_iff.2 (e.range_crisp o out))
    rw [defuzzify_eq hstatus (hconfirmed.consequences_ok hstatus)]
    simp only [Tables.cleared, mapOutputsIdx, houtputs]
  · rw [defuzzify_refused hstatus]

theorem cycled_cleared (e : Engine α) : e.cycled.1.toTables.cleared = e.toTables.cleared := by
  have hinference : e.fuzzify.inference.1.toTables.cleared = e.toTables.cleared :=
    (inference_cleared _).trans e.fuzzify_cleared
  have hconfirmed := inference_confirmed e.fuzzify
  rw [cycled]
  generalize e.fuzzify.inference = r at hinference hconfirmed ⊢
  obtain ⟨e', err | u⟩ := r
  · exact hinference
  · exact (defuzzify_cleared hconfirmed).trans hinference

end Engine

namespace Controller

/-- An evaluation changes no setting. -/
theorem evaluate_cleared (s : Controller α) (values : List α) :
    (s.evaluate values).1.cleared = s.cleared := by
  cases hengine : (s.assigned values).engine with
  | error err =>
      rw [evaluate_of_error hengine]
      exact s.assigned_cleared values
  | ok e =>
      have hlent : e.toTables.cleared = s.tables.cleared := by
        rw [engine_ok hengine]
        exact congrArg (fun s => s.tables) (s.assigned_cleared values)
      rw [evaluate_of_engine hengine]
      exact congrArg (fun tables => ({ s with tables } : Controller α))
        (e.cycled_cleared.trans hlent)

theorem run_evaluate_cleared (s : Controller α) (earlier : List (List α)) :
    (s.run (earlier.map .evaluate)).cleared = s.cleared := by
  induction earlier generalizing s with
  | nil => rfl
  | cons values earlier ih => exact (ih (s.evaluate values).1).trans (s.evaluate_cleared values)

end Controller

end FuzzyInference
