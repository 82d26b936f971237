import FuzzyInference.Proofs.Lending
import FuzzyInference.Proofs.Residue

/-!
# Controllers stay well formed

Settings reach a controller by two routes: as a whole configuration, which is checked as a whole,
and one by one through an engine, where each is checked for itself. `Controller.WellFormed` says
what both routes keep true of the configuration, the ranges and the membership functions, whether
the calls in between succeed or fail.

Membership functions are the part that is not known yet. `Membership.Suited` states what an engine
checks when it attaches one, for the tables and the architecture of that engine. Neither of the two
changes later, so the check stays true (`Engine.perform_suited`).

What a system can fail with while it runs is decided before it runs. `Script.verdict` is how the
walk over the premises ends, which depends on no number that was ever set, and every evaluation ends
as the verdict says (`Controller.Lendable.evaluate_verdict`).
-/

set_option autoImplicit false

namespace FuzzyInference

/-- The number of variables on a side. -/
def Sizes.variables (sizes : Sizes) : Side → Nat
  | .input => sizes.inputs
  | .output => sizes.outputs

variable {α : Type} [Scalar α]

/-! ## Membership functions -/

/-- A membership function with a shape that fits its side of a system: it is attached to a variable
of that side, which takes the shape, and has the coefficients that the shape reads. -/
structure Membership.Suits (architecture : Architecture) (sizes : Sizes) (side : Side)
    (m : Membership α) (shape : Shape α) : Prop where
  variableIndex : m.variableIndex < sizes.variables side
  allowed : shape.allowed side architecture = true
  coefficients : shape.arity sizes.inputs ≤ m.coefficients.length
  height : Scalar.Within 0 1 m.height

/-- Whether a membership function fits, if it has been set up at all. -/
def Membership.Suited (architecture : Architecture) (sizes : Sizes) (side : Side)
    (m : Membership α) : Prop :=
  ∀ shape, m.shape = some shape → m.Suits architecture sizes side shape

/-- Every membership function of the tables fits. -/
structure Tables.Suited (architecture : Architecture) (t : Tables α) : Prop where
  inputs : ∀ m ∈ t.inputMemberships, m.Suited architecture t.sizes .input
  outputs : ∀ m ∈ t.outputMemberships, m.Suited architecture t.sizes .output

theorem Membership.suited_blank (architecture : Architecture) (sizes : Sizes) (side : Side) :
    (blank : Membership α).Suited architecture sizes side := by
  intro shape hshape
  cases hshape

theorem Tables.suited_blank (architecture : Architecture) (sizes : Sizes) (n : Nat) :
    (blank sizes n : Tables α).Suited architecture := by
  constructor
  · intro m hm
    rw [List.eq_of_mem_replicate hm]
    exact Membership.suited_blank _ _ _
  · intro m hm
    rw [List.eq_of_mem_replicate hm]
    exact Membership.suited_blank _ _ _

/-- What the functions are is not touched where their tables and all sizes are the same. -/
theorem Tables.Suited.of_eq {architecture : Architecture} {t t' : Tables α}
    (h : t.Suited architecture) (hsizes : t'.sizes = t.sizes)
    (hins : t'.inputMemberships = t.inputMemberships)
    (houts : t'.outputMemberships = t.outputMemberships) : t'.Suited architecture := by
  constructor
  · rw [hsizes, hins]
    exact h.inputs
  · rw [hsizes, houts]
    exact h.outputs

namespace Engine

omit [Scalar α] in
theorem slot_ok {side : Side} {tag : Int} {count i : Nat}
    (h : slot (α := α) side tag count = .ok i) : i < count := by
  unfold slot at h
  split at h
  · rename_i hrange
    obtain rfl := Except.ok.inj h
    omega
  · cases h

omit [Scalar α] in
theorem checkShape_ok {e : Engine α} {side : Side} {shape : Shape α} {coefficients : List α}
    (h : e.checkShape side shape coefficients = .ok ()) :
    shape.allowed side e.architecture = true ∧
      shape.arity e.inputs.length ≤ coefficients.length := by
  unfold checkShape at h
  split at h
  · rename_i hallowed
    split at h
    · cases h
    · rename_i hlength
      exact ⟨hallowed, Nat.not_lt.1 hlength⟩
  · cases h

/-- A function that an engine accepts for a variable fits. -/
theorem suited_attached [Scalar.Lawful α] {e : Engine α} {side : Side} {i : Nat}
    {shape : Shape α} {coefficients : List α} (height : α) (hi : i < e.sizes.variables side)
    (hshape : e.checkShape side shape coefficients = .ok ()) :
    (Membership.attached i shape coefficients height).Suited e.architecture e.sizes side := by
  intro shape' hshape'
  obtain rfl := Option.some.inj hshape'
  obtain ⟨hallowed, hcoefficients⟩ := checkShape_ok hshape
  exact ⟨hi, hallowed, hcoefficients, Scalar.within_unit height⟩

omit [Scalar α] in
theorem forall_mem_set {β : Type} {P : β → Prop} {l : List β} {x : β} (i : Nat)
    (h : ∀ y ∈ l, P y) (hx : P x) : ∀ y ∈ l.set i x, P y := by
  intro y hy
  rcases List.mem_or_eq_of_mem_set hy with hy | rfl
  · exact h y hy
  · exact hx

variable [Scalar.Lawful α]

/-- Only two settings touch the functions. Each checks the one that it attaches, against the tables
and the architecture that the engine keeps. -/
theorem Setting.suited {e e' : Engine α} (hsetting : Setting e e')
    (h : e.Suited e.architecture) : e'.Suited e'.architecture := by
  have hsizes : e'.sizes = e.sizes := congrArg Script.sizes hsetting.keeps.script
  have hother : e'.architecture = e.architecture → e'.inputMemberships = e.inputMemberships →
      e'.outputMemberships = e.outputMemberships → e'.Suited e'.architecture := by
    intro harch hins houts
    rw [harch]
    exact h.of_eq hsizes hins houts
  cases hsetting with
  | inputMembership m hslot hshape =>
      constructor
      · rw [hsizes]
        exact forall_mem_set m h.inputs (suited_attached _ (slot_ok hslot) hshape)
      · rw [hsizes]
        exact h.outputs
  | outputMembership m hslot hshape =>
      constructor
      · rw [hsizes]
        exact h.inputs
      · rw [hsizes]
        exact forall_mem_set m h.outputs (suited_attached _ (slot_ok hslot) hshape)
  | _ => exact hother rfl rfl rfl

theorem perform_suited (e : Engine α) (c : Command α) (h : e.Suited e.architecture) :
    (e.perform c).1.Suited (e.perform c).1.architecture := by
  have hsizes : (e.perform c).1.sizes = e.sizes := congrArg Script.sizes (perform_script e c)
  have harch := perform_architecture e c
  rcases perform_cases e c with rfl | rfl | rfl | ⟨-, -, hsetting⟩
  -- fuzzification writes a degree into each function, and nothing else
  · constructor
    · rw [harch, hsizes]
      intro m hm shape hshape
      obtain ⟨m', hm', rfl⟩ := List.mem_map.1 hm
      obtain ⟨hindex, hallowed, hcoefficients, hheight⟩ := h.inputs m' hm' shape hshape
      exact ⟨hindex, hallowed, hcoefficients, hheight⟩
    · rw [harch, hsizes]
      exact h.outputs
  · rw [harch]
    obtain ⟨status, hengine, -⟩ := e.inference_eq
    have hengine : (e.perform .inference).1 = _ := hengine
    rw [hengine] at hsizes ⊢
    exact h.of_eq hsizes rfl rfl
  · rw [harch]
    have hengine : (e.perform .defuzzify).1 = _ := (outputsOnly_defuzzify e).eq
    rw [hengine] at hsizes ⊢
    exact h.of_eq hsizes rfl rfl
  · exact hsetting.suited h

end Engine

/-! ## The verdict on a script -/

/-- How the walk over the premises of a script ends. -/
def Script.verdict (α : Type) (p : Script) : Except (EngineError α) Unit :=
  (premiseWalk p.width p.sizes p.ruleCount p.rules).outcome.mapError .walk

namespace Engine

theorem inference_verdict (e : Engine α) : e.inference.2 = e.script.verdict α := by
  obtain ⟨-, -, -, hresult⟩ := e.inference_eq
  exact hresult

/-- A cycle ends as the verdict says: defuzzification does not fail after an inference that
succeeds. -/
theorem cycled_verdict (e : Engine α) : e.cycled.2 = e.script.verdict α := by
  have hinference : e.fuzzify.inference.2 = e.script.verdict α := by
    rw [inference_verdict, fuzzify_script]
  have hconfirmed := inference_confirmed e.fuzzify
  have hstatus := inference_status_iff e.fuzzify
  rw [cycled, ← hinference]
  generalize e.fuzzify.inference = r at *
  obtain ⟨e', err | u⟩ := r
  · rfl
  · exact hconfirmed.defuzzify_ok (hstatus.2 rfl)

end Engine

namespace Controller

theorem Lends.inference_verdict {s : Controller α} {e : Engine α} (h : s.Lends e) :
    e.inference.2 = s.script.verdict α := by
  have hserves := h.serves
  have hscript : e.script = s.script := by
    rw [Engine.script, hserves.width, hserves.sizes, hserves.ruleCount, hserves.rules]
    rfl
  rw [Engine.inference_verdict, hscript]

theorem Lendable.evaluate_verdict {s : Controller α} (h : s.Lendable) (values : List α) :
    (s.evaluate values).2.map (fun _ => ()) = s.script.verdict α := by
  have hverdict : (s.assigned values).fresh.cycled.2 = s.script.verdict α := by
    rw [Engine.cycled_verdict]
    exact congrArg (Script.verdict α) (s.script_assigned values)
  rw [evaluate_of_engine (h.assigned values).engine_eq, ← hverdict]
  cases (s.assigned values).fresh.cycled.2 <;> rfl

/-! ## Whole histories -/

/-- A controller in which everything that was set up fits together. -/
structure WellFormed (s : Controller α) : Prop where
  config : s.config.check (α := α) s.architecture = .ok ()
  inputs : ∀ v ∈ s.tables.inputs,
    ¬ Scalar.IsNaN v.lower ∧ ¬ Scalar.IsNaN v.upper ∧ v.lower < v.upper
  outputs : ∀ out ∈ s.tables.outputs,
    ¬ Scalar.IsNaN out.lower ∧ ¬ Scalar.IsNaN out.upper ∧ out.lower < out.upper
  memberships : s.tables.Suited s.architecture

variable [Scalar.Lawful α]

theorem Change.suited {s s' : Controller α} {r : Request α} (hchange : Change s r s')
    (h : s.tables.Suited s.architecture) : s'.tables.Suited s'.architecture := by
  have hrun : ∀ (s : Controller α) (cs : List (Command α)), s.tables.Suited s.architecture →
      (s.fresh.run cs).Suited s.architecture := by
    intro s cs hs
    have hsuited := Engine.run_induction (P := fun e => e.Suited e.architecture)
      Engine.perform_suited (e := s.fresh) hs cs
    rwa [Engine.run_architecture] at hsuited
  cases hchange with
  | refused _ => exact h
  | config _ => exact h
  | weights ws => exact h
  | configured cs => exact hrun s cs h
  | dropped cs err => exact hrun s cs h
  | session cs => exact hrun s cs h
  | evaluated values =>
      rw [← Engine.run_cycled]
      have hsizes : (s.assigned values).tables.sizes = s.tables.sizes :=
        congrArg Script.sizes (s.script_assigned values)
      exact hrun (s.assigned values) _ (h.of_eq hsizes rfl rfl)

/-- A controller that was built is well formed at any time, whatever was asked of it since, and can
set up an engine. How an inference ends, on any engine that it lends its tables to, and how an
evaluation ends is the verdict on the script it was built for. So all evaluations succeed, at any
time and on any values, or all of them fail for one reason. -/
theorem history_wellFormed {w : Width} {architecture : Architecture} {sizes : Sizes} {n : Nat}
    {rules : List Int} {config : Config} {s₀ : Controller α}
    (hbuild : build w architecture sizes n rules config = .ok s₀) {rs : List (Request α)}
    (hrs : ∀ r ∈ rs, r.Sized s₀.script) :
    (s₀.run rs).WellFormed ∧ (∃ e, (s₀.run rs).engine = .ok e) ∧
      ((s₀.run rs).architecture = architecture ∧
        (s₀.run rs).script = ⟨w, sizes, n, rules⟩) ∧
      (∀ e, (s₀.run rs).Lends e → e.inference.2 = Script.verdict α ⟨w, sizes, n, rules⟩) ∧
      (∀ values, ((s₀.run rs).evaluate values).2.map (fun _ => ()) =
        Script.verdict α ⟨w, sizes, n, rules⟩) ∧
      ∀ rs', (∀ r ∈ rs', r.Sized s₀.script) → ∀ values values',
        (∀ outs, ((s₀.run rs).evaluate values).2 = .ok outs →
          ∃ outs', ((s₀.run rs').evaluate values').2 = .ok outs') ∧
        ∀ err, ((s₀.run rs).evaluate values).2 = .error err →
          ((s₀.run rs').evaluate values').2 = .error err := by
  have hreachable : (s₀.run rs).Reachable :=
    ⟨w, architecture, sizes, n, rules, config, s₀, rs, hbuild, rfl⟩
  obtain ⟨hs₀, hlendable, hscript₀⟩ := lendable_of_build hbuild
  have hlater : ∀ rs' : List (Request α), (∀ r ∈ rs', r.Sized s₀.script) →
      (s₀.run rs').Lendable ∧ (s₀.run rs').script = ⟨w, sizes, n, rules⟩ ∧
        (s₀.run rs').tables.Suited (s₀.run rs').architecture := by
    intro rs' hrs'
    have hsuited : s₀.tables.Suited s₀.architecture := by
      rw [hs₀]
      exact Tables.suited_blank architecture sizes n
    obtain ⟨hlendable', hsuited'⟩ := hlendable.run_induction
      (P := fun s => s.tables.Suited s.architecture)
      (fun _ _ _ _ hchange h => hchange.suited h) hrs' hsuited
    exact ⟨hlendable', (hlendable.script_run hrs').trans hscript₀, hsuited'⟩
  have hverdict : ∀ rs' : List (Request α), (∀ r ∈ rs', r.Sized s₀.script) → ∀ values,
      ((s₀.run rs').evaluate values).2.map (fun _ => ()) =
        Script.verdict α ⟨w, sizes, n, rules⟩ := by
    intro rs' hrs' values
    obtain ⟨hlendable', hscript', -⟩ := hlater rs' hrs'
    rw [hlendable'.evaluate_verdict, hscript']
  obtain ⟨hlendable', hscript', hsuited'⟩ := hlater rs hrs
  refine ⟨⟨Config.check_eq_ok_iff.2 hlendable'.config, ?_, ?_, hsuited'⟩,
    ⟨_, hlendable'.engine_eq⟩, ⟨?_, hscript'⟩, ?_, hverdict rs hrs, ?_⟩
  · intro v hv
    have hlt := hreachable.inputs_ranged v hv
    exact ⟨(Scalar.defined_of_lt hlt).1, (Scalar.defined_of_lt hlt).2, hlt⟩
  · intro out hout
    have hlt := (hreachable.outputs out hout).lower_lt_upper
    exact ⟨(Scalar.defined_of_lt hlt).1, (Scalar.defined_of_lt hlt).2, hlt⟩
  · rw [hlendable.architecture_run hrs, hs₀]
  · intro e he
    rw [he.inference_verdict, hscript']
  · intro rs' hrs' values values'
    -- both evaluations end as the verdict says, so they end alike
    have hsame := (hverdict rs hrs values).trans (hverdict rs' hrs' values').symm
    constructor
    · intro outs hok
      rw [hok] at hsame
      cases hresult : ((s₀.run rs').evaluate values').2 with
      | ok outs' => exact ⟨outs', rfl⟩
      | error err =>
          rw [hresult] at hsame
          cases hsame
    · intro err herror
      rw [herror] at hsame
      cases hresult : ((s₀.run rs').evaluate values').2 with
      | ok outs' =>
          rw [hresult] at hsame
          cases hsame
      | error err' =>
          rw [hresult] at hsame
          rw [Except.error.inj hsame]

/-- Calls on the two rules: a session, weights, a configuration that fails midway, one that
succeeds, and an evaluation. -/
def twoRuleRequests : List (Request Float) :=
  [.session [.setupInput 0 0 10, .setInputMembership 0 0 (.curve .triangular) [0, 5, 10] 2,
      .setEvalPoints 7],
    .setWeights [1, 0.5],
    .configure [.setupOutput 1 3 4, .setMethod .centroid] (.error .noEvalPoints),
    .configure [.setMethod .largestOfMaximum, .setOperator .and .product] (.ok ()),
    .evaluate [3, 7]]

theorem history_wellFormed_twoRules :
    (∀ r ∈ twoRuleRequests, r.Sized freshTwoRules.script) ∧
      (freshTwoRules.run twoRuleRequests).WellFormed ∧
      ((freshTwoRules.run twoRuleRequests).evaluate [12, -1]).2.map (fun _ => ()) = .ok () := by
  have hrs : ∀ r ∈ twoRuleRequests, r.Sized freshTwoRules.script := by
    simp [twoRuleRequests, Request.Sized, freshTwoRules, script, Tables.blank, Tables.sizes]
  obtain ⟨hwellFormed, -, -, -, hverdict, -⟩ := history_wellFormed build_twoRules hrs
  exact ⟨hrs, hwellFormed, (hverdict [12, -1]).trans rfl⟩

end Controller

end FuzzyInference
