import FuzzyInference.Proofs.Settings

/-!
# What an operation leaves alone

The walks over the rules depend on four things only: the width of the items, the sizes of the
tables, the configured number of rules and the stream. They are the `Script` of an engine, and no
operation changes it.

Aggregation and defuzzification change nothing but the outputs (`OutputsOnly`), and fail only where
the walk over the consequents does (`Folds`). The composed stages are written with
`Outcome.andThen`, so that one lemma about two operations in a row serves all of them.
-/

set_option autoImplicit false

namespace FuzzyInference

/-- What the walks over a rule stream depend on. -/
structure Script where
  width : Width
  sizes : Sizes
  ruleCount : Nat
  rules : List Int

namespace Engine

variable {α : Type}

/-- The script of an engine. -/
def script (e : Engine α) : Script := ⟨e.width, e.sizes, e.ruleCount, e.rules⟩

theorem premises_eq_of_script {e e' : Engine α} (h : e'.script = e.script) :
    e'.premises = e.premises := by
  simp only [script, Script.mk.injEq] at h
  obtain ⟨hw, hs, hn, hr⟩ := h
  rw [premises, premises, hw, hs, hn, hr]

theorem consequences_eq_of_script {e e' : Engine α} (h : e'.script = e.script) :
    e'.consequences = e.consequences := by
  simp only [script, Script.mk.injEq] at h
  obtain ⟨hw, hs, hn, hr⟩ := h
  rw [consequences, consequences, hw, hs, hn, hr]

/-! ## Aggregation and defuzzification -/

/-- `e'` is `e` with other outputs, and with as many of them. -/
structure OutputsOnly (e e' : Engine α) : Prop where
  eq : e' = { e with outputs := e'.outputs }
  length : e'.outputs.length = e.outputs.length

namespace OutputsOnly

variable {e e' e'' : Engine α}

theorem refl (e : Engine α) : OutputsOnly e e := ⟨rfl, rfl⟩

theorem trans (h : OutputsOnly e e') (h' : OutputsOnly e' e'') : OutputsOnly e e'' := by
  refine ⟨?_, h'.length.trans h.length⟩
  rw [h'.eq, h.eq]

theorem of_outputs (e : Engine α) {outputs : List (Output α)}
    (h : outputs.length = e.outputs.length) : OutputsOnly e { e with outputs } := ⟨rfl, h⟩

theorem script (h : OutputsOnly e e') : e'.script = e.script := by
  rw [h.eq]
  simp [Engine.script, Tables.sizes, h.length]

end OutputsOnly

theorem outputsOnly_mapOutputs (f : Output α → Output α) (e : Engine α) :
    OutputsOnly e (e.mapOutputs f) :=
  .of_outputs e (List.length_map ..)

theorem outputsOnly_modifyOutput (o : Nat) (f : Output α → Output α) (e : Engine α) :
    OutputsOnly e (e.modifyOutput o f) :=
  .of_outputs e (List.length_modify ..)

/-- The second of two operations, if the first succeeds. -/
def Outcome.andThen (r : Outcome α) (next : Engine α → Outcome α) : Outcome α :=
  match r with
  | (e, .error err) => (e, .error err)
  | (e, .ok ()) => next e

theorem Outcome.andThen_ok {r : Outcome α} {next : Engine α → Outcome α}
    (h : (Outcome.andThen r next).2 = .ok ()) :
    r.2 = .ok () ∧ Outcome.andThen r next = next r.1 := by
  obtain ⟨e, err | u⟩ := r
  · cases h
  · exact ⟨rfl, rfl⟩

/-- An outcome that changes only the outputs, and fails only where the walk over the consequents
does. -/
structure Folds (e : Engine α) (r : Outcome α) : Prop where
  frame : OutputsOnly e r.1
  ok : e.consequences.outcome = .ok () → r.2 = .ok ()

namespace Folds

variable {e e' : Engine α} {r : Outcome α}

theorem done (e : Engine α) : Folds e (e, .ok ()) := ⟨.refl e, fun _ => rfl⟩

/-- An operation may change outputs first. -/
theorem of_outputsOnly (h : OutputsOnly e e') (hr : Folds e' r) : Folds e r := by
  refine ⟨h.trans hr.frame, ?_⟩
  intro hok
  apply hr.ok
  rwa [consequences_eq_of_script h.script]

theorem andThen {next : Engine α → Outcome α} (h : Folds e r)
    (hnext : ∀ e', Folds e' (next e')) : Folds e (Outcome.andThen r next) := by
  rcases r with ⟨e', result⟩
  cases result with
  | error err => exact ⟨h.frame, h.ok⟩
  | ok u => exact of_outputsOnly h.frame (hnext e')

end Folds

section Arithmetic

variable [Scalar α]

theorem outputsOnly_applyConsequent (only : Option Nat) (e : Engine α) (c : Consequent) :
    OutputsOnly e (applyConsequent only e c) := by
  simp only [applyConsequent]
  split
  · split
    · exact .of_outputs e (List.length_modify ..)
    · exact .refl e
  · exact .refl e

theorem outputsOnly_foldl_applyConsequent (only : Option Nat) (cs : List Consequent)
    (e : Engine α) : OutputsOnly e (cs.foldl (applyConsequent only) e) := by
  induction cs generalizing e with
  | nil => exact .refl e
  | cons c cs ih => exact (outputsOnly_applyConsequent only e c).trans (ih _)

theorem folds_aggregate (only : Option Nat) (e : Engine α) : Folds e (aggregate only e) := by
  refine ⟨outputsOnly_foldl_applyConsequent only _ e, ?_⟩
  intro hok
  exact mapError_eq_ok_iff.2 hok

theorem outputsOnly_scan (o : Nat) (e : Engine α) : OutputsOnly e (e.scan o).1 := by
  simp only [scan]
  split
  · exact outputsOnly_modifyOutput o _ e
  · exact .refl e

theorem sample_succ (points left k : Nat) (e : Engine α) :
    sample points (left + 1) k e =
      Outcome.andThen (aggregate none (e.mapOutputs (Output.beginSample k points))) fun e' =>
        sample points left (k + 1) (e'.mapOutputs (Output.takeSample e'.config.method k)) := rfl

theorem halve_succ (o points left k : Nat) (e : Engine α) :
    halve o points (left + 1) k e =
      Outcome.andThen (aggregate (some o) (e.modifyOutput o (Output.beginSample k points)))
        fun e' =>
          if (e'.scan o).2 then ((e'.scan o).1, .ok ())
          else halve o points left (k + 1) (e'.scan o).1 := by
  rw [halve]
  rcases aggregate (some o) (e.modifyOutput o (Output.beginSample k points)) with ⟨e', result⟩
  cases result with
  | error err => rfl
  | ok u =>
      simp only [Outcome.andThen]
      rcases e'.scan o with ⟨e'', reached⟩
      cases reached <;> rfl

theorem bisect_cons (points o : Nat) (os : List Nat) (e : Engine α) :
    bisect points (o :: os) e =
      Outcome.andThen (halve o points points 0 (e.modifyOutput o fun out =>
        { out with accumulator := out.accumulator.beginBisection })) (bisect points os) := rfl

theorem accumulate_mamdani {e : Engine α} (h : e.architecture = .mamdani) :
    e.accumulate = Outcome.andThen (sample e.config.evalPoints e.config.evalPoints 0 e) fun e' =>
      if e'.config.method = .bisector then
        bisect e.config.evalPoints (List.range e'.outputs.length) e'
      else (e', .ok ()) := by
  rw [accumulate, h]
  rfl

theorem accumulate_weighted {e : Engine α} (h : e.architecture ≠ .mamdani) :
    e.accumulate = aggregate none e := by
  cases ha : e.architecture with
  | mamdani => exact absurd ha h
  | sugeno => rw [accumulate, ha]
  | tsukamoto => rw [accumulate, ha]

theorem defuzzify_succeeded {e : Engine α} (h : e.status = .succeeded) :
    e.defuzzify =
      Outcome.andThen (accumulate (e.mapOutputs (Output.reset e.config.method))) fun e' =>
        (e'.mapOutputs (Output.settle e'.config.method), .ok ()) :=
  if_pos h

/-- Without a successful inference defuzzification is refused and changes nothing. -/
theorem defuzzify_refused {e : Engine α} (h : e.status ≠ .succeeded) :
    e.defuzzify = (e, .error .inferenceNotValid) :=
  if_neg h

theorem folds_sample (points left k : Nat) (e : Engine α) : Folds e (sample points left k e) := by
  induction left generalizing k e with
  | zero => exact .done e
  | succ left ih =>
      rw [sample_succ]
      refine .of_outputsOnly (outputsOnly_mapOutputs _ e) ((folds_aggregate none _).andThen ?_)
      intro e'
      exact .of_outputsOnly (outputsOnly_mapOutputs _ e') (ih (k + 1) _)

theorem folds_halve (o points left k : Nat) (e : Engine α) :
    Folds e (halve o points left k e) := by
  induction left generalizing k e with
  | zero => exact .done e
  | succ left ih =>
      rw [halve_succ]
      refine .of_outputsOnly (outputsOnly_modifyOutput o _ e)
        ((folds_aggregate (some o) _).andThen ?_)
      intro e'
      refine .of_outputsOnly (outputsOnly_scan o e') ?_
      split
      · exact .done _
      · exact ih (k + 1) _

theorem folds_bisect (points : Nat) (os : List Nat) (e : Engine α) :
    Folds e (bisect points os e) := by
  induction os generalizing e with
  | nil => exact .done e
  | cons o os ih =>
      rw [bisect_cons]
      exact .of_outputsOnly (outputsOnly_modifyOutput o _ e)
        ((folds_halve o points points 0 _).andThen ih)

theorem folds_accumulate (e : Engine α) : Folds e e.accumulate := by
  by_cases h : e.architecture = .mamdani
  · rw [accumulate_mamdani h]
    refine (folds_sample _ _ 0 e).andThen ?_
    intro e'
    split
    · exact folds_bisect _ _ e'
    · exact .done e'
  · rw [accumulate_weighted h]
    exact folds_aggregate none e

theorem folds_defuzzify {e : Engine α} (h : e.status = .succeeded) : Folds e e.defuzzify := by
  rw [defuzzify_succeeded h]
  refine .of_outputsOnly (outputsOnly_mapOutputs _ e) ((folds_accumulate _).andThen ?_)
  intro e'
  exact .of_outputsOnly (outputsOnly_mapOutputs _ e') (.done _)

theorem outputsOnly_defuzzify (e : Engine α) : OutputsOnly e e.defuzzify.1 := by
  by_cases h : e.status = .succeeded
  · exact (folds_defuzzify h).frame
  · rw [defuzzify_refused h]
    exact .refl e

end Arithmetic

end Engine

end FuzzyInference
