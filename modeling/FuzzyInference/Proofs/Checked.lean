import FuzzyInference.Proofs.History

/-!
# Operations that look before they read

An engine reads its tables by index, and its walks are loops that end when the rules or the items
run out. Nothing in the operations says that an index lies inside its table or that a loop ends.
Here they are written once more, so that this is part of the result: every look-up of a coefficient,
a membership function, a strength or an output can fail, and a loop fails when it makes more rounds
than it is given. An operation that gives a result has therefore read inside its tables, and its
loops have ended.

The rounds given to a walk are as many as the stream has items. `loop?_eq` shows that a loop ends:
it asks for a number that every round makes smaller, and for a meaning of the states that no round
changes. `Shape.evaluate?_eq` shows that the test of the number of coefficients covers all that a
shape reads.
-/

set_option autoImplicit false

namespace FuzzyInference

/-! ## Loops -/

section Loop

variable {σ ρ : Type}

/-- A loop whose body goes on with a state or stops with a result. None if the body fails, or if the
loop does not stop in the given number of rounds. -/
def loop? (body : σ → Option (σ ⊕ ρ)) : (rounds : Nat) → σ → Option ρ
  | 0, _ => none
  | rounds + 1, s =>
      match body s with
      | none => none
      | some (.inl s') => loop? body rounds s'
      | some (.inr r) => some r

/-- What is to be shown of one round: either the loop stops with what the state means, or it goes on
with a state that means the same and is nearer to the end. -/
def Advances (body : σ → Option (σ ⊕ ρ)) (good : σ → Prop) (left : σ → Nat) (meaning : σ → ρ)
    (s : σ) : Prop :=
  body s = some (.inr (meaning s)) ∨
    ∃ s', body s = some (.inl s') ∧ good s' ∧ left s' < left s ∧ meaning s' = meaning s

/-- A loop each of whose rounds advances stops with what its first state means. -/
theorem loop?_eq {body : σ → Option (σ ⊕ ρ)} {good : σ → Prop} {left : σ → Nat} {meaning : σ → ρ}
    (h : ∀ s, good s → Advances body good left meaning s) {rounds : Nat} {s : σ} (hs : good s)
    (hrounds : left s < rounds) : loop? body rounds s = some (meaning s) := by
  induction rounds generalizing s with
  | zero => exact absurd hrounds (Nat.not_lt_zero _)
  | succ rounds ih =>
      rw [loop?]
      rcases h s hs with hstop | ⟨s', hgo, hs', hleft, hmeaning⟩
      · rw [hstop]
      · rw [hgo, ← hmeaning]
        exact ih hs' (by omega)

end Loop

/-! ## Shapes -/

section Shapes

variable {α : Type} [Scalar α]

/-- The value of a shape. Too few coefficients and a missing variable are noticed before anything is
read, and give 0; none if a coefficient is read that is not there. -/
def Shape.evaluate? (shape : Shape α) (vars : List (Variable α)) (coefficients : List α) :
    Option α :=
  if coefficients.length < shape.arity vars.length then some 0
  else
    match shape, vars with
    | custom evaluate, vars => some (evaluate vars coefficients)
    | linear, vars => coefficients[vars.length]?.map fun last => dot vars coefficients + last
    | _, [] => some 0
    | curve c, v :: _ => c.degree? coefficients v.value
    | constant, _ :: _ => coefficients[0]?
    | inverse i, v :: _ => i.point? coefficients v

/-- A curve reads as many coefficients as its arity says. -/
theorem Curve.isSome_degree?_iff (c : Curve) (coefficients : List α) (x : α) :
    (c.degree? coefficients x).isSome ↔ c.arity ≤ coefficients.length := by
  rcases coefficients with _ | ⟨p, _ | ⟨q, _ | ⟨r, _ | ⟨s, rest⟩⟩⟩⟩
  all_goals cases c <;> simp [degree?, arity]

theorem Inverse.isSome_point?_iff (i : Inverse) (coefficients : List α) (v : Variable α) :
    (i.point? coefficients v).isSome ↔ 2 ≤ coefficients.length := by
  rcases coefficients with _ | ⟨p, _ | ⟨q, rest⟩⟩
  all_goals cases i <;> simp [point?]

/-- Where the number of coefficients decides whether a value is there, a test of it is enough. -/
theorem ite_length_lt {y? : Option α} {length arity : Nat} (h : y?.isSome ↔ arity ≤ length) :
    (if length < arity then some 0 else y?) = some (y?.getD 0) := by
  cases y? with
  | none =>
      have hlt : length < arity := by simpa using h
      rw [if_pos hlt, Option.getD_none]
  | some y =>
      have hle : ¬ length < arity := by simpa using h
      rw [if_neg hle, Option.getD_some]

/-- A shape reads no coefficient that is not there. -/
theorem Shape.evaluate?_eq (shape : Shape α) (vars : List (Variable α)) (coefficients : List α) :
    shape.evaluate? vars coefficients = some (shape.evaluate vars coefficients) := by
  cases shape with
  | custom evaluate => rfl
  | linear =>
      refine ite_length_lt ?_
      rw [Option.isSome_map, isSome_getElem?]
      exact Nat.lt_iff_add_one_le
  | curve c =>
      cases vars with
      | nil => exact ite_self _
      | cons v vars => exact ite_length_lt (c.isSome_degree?_iff coefficients v.value)
  | constant =>
      cases vars with
      | nil => exact ite_self _
      | cons v vars =>
          have hread : coefficients[0]?.isSome ↔ 1 ≤ coefficients.length := by
            rw [isSome_getElem?]
            exact Nat.lt_iff_add_one_le
          rw [evaluate, value?, List.head?_cons, Option.bind_some, List.head?_eq_getElem?]
          exact ite_length_lt hread
  | inverse i =>
      cases vars with
      | nil => exact ite_self _
      | cons v vars => exact ite_length_lt (i.isSome_point?_iff coefficients v)

/-- The value of a membership function. -/
def Membership.evaluate? (m : Membership α) (vars : List (Variable α)) : Option α :=
  match m.shape with
  | some shape => shape.evaluate? vars m.coefficients
  | none => some 0

theorem Membership.evaluate?_eq (m : Membership α) (vars : List (Variable α)) :
    m.evaluate? vars = some (m.evaluate vars) := by
  rw [evaluate?, evaluate]
  cases m.shape with
  | none => rfl
  | some shape => exact shape.evaluate?_eq vars m.coefficients

/-- Keeps the degree of a membership function. The variable that it is attached to is looked for,
since there may be none. -/
def Membership.fuzzify? (inputs : List (Variable α)) (m : Membership α) : Option (Membership α) :=
  match inputs[m.variableIndex]? with
  | some v => (m.evaluate? [v]).map fun y => { m with degree := m.height * y }
  | none => some { m with degree := 0 }

theorem Membership.fuzzify?_eq (inputs : List (Variable α)) (m : Membership α) :
    m.fuzzify? inputs = some (m.fuzzify inputs) := by
  rw [fuzzify?, fuzzify]
  cases inputs[m.variableIndex]? with
  | none => rfl
  | some v =>
      simp only [m.evaluate?_eq]
      rfl

/-- Fuzzification. -/
def Engine.fuzzify? (e : Engine α) : Option (Engine α) :=
  let inputs := e.inputs.map Variable.confined
  (e.inputMemberships.mapM (Membership.fuzzify? inputs)).map fun ms =>
    { e with inputs, inputMemberships := ms, status := .notRun }

/-- Fuzzification reads inside its tables. -/
theorem Engine.fuzzify?_eq (e : Engine α) : e.fuzzify? = some e.fuzzify := by
  have hmap : ∀ (inputs : List (Variable α)) (ms : List (Membership α)),
      ms.mapM (Membership.fuzzify? inputs) = some (ms.map (Membership.fuzzify inputs)) := by
    intro inputs ms
    induction ms with
    | nil => rfl
    | cons m ms ih => simp [List.mapM_cons, m.fuzzify?_eq, ih]
  simp only [fuzzify?, hmap, Option.map_some]
  rfl

end Shapes

end FuzzyInference
