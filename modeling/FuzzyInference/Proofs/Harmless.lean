import FuzzyInference.Proofs.Checked
import FuzzyInference.Proofs.ConsequentRun
import FuzzyInference.Proofs.Grammar
import Mathlib.Data.List.Basic

/-!
# Arbitrary streams are harmless

Whatever stands in a rule stream and in the tables, an engine that was set up reads inside its
tables, and its loops end. The operations are written here as the loops that they are, with a cursor
into the stream, and with look-ups that can fail (`inference?`, `defuzzify?`). They always give a
result, and it is that of the operation (`streams_harmless`).

The reasons are these. A clause is checked against the tables that its state asks for before it is
used, so its tag and its reference lie inside them. A strength is stored or read only for a rule
below the configured number of rules, and setup has asked for as many slots. And every round of a
walk moves the cursor, which never passes the end of the stream.
-/

set_option autoImplicit false

namespace FuzzyInference

/-! ## Reading at a cursor -/

section Cursor

variable {w : Width} {sizes : Sizes} {n : Nat} {stream : List Int} {cursor : Nat}

theorem drop_eq_of_read_error {fault : StreamFault}
    (h : Token.read w stream cursor = .error fault) :
    stream.drop cursor = [] ∧ fault = .truncated cursor := by
  rw [Token.read] at h
  cases hdrop : stream.drop cursor with
  | nil =>
      rw [hdrop] at h
      exact ⟨rfl, (Except.error.inj h).symm⟩
  | cons item rest =>
      rw [hdrop] at h
      cases h

theorem drop_eq_of_read_ok {t : Token} (h : Token.read w stream cursor = .ok t) :
    ∃ item, stream.drop cursor = item :: stream.drop (cursor + 1) ∧ Token.ofItem w item = t := by
  rw [Token.read] at h
  obtain ⟨item, rest, hdrop, hitem⟩ := Token.first_ok h
  refine ⟨item, ?_, hitem.symm⟩
  rw [← List.tail_drop, hdrop, List.tail_cons]

/-- A clause that is read has three items in the stream and lies inside the tables. -/
theorem Clause.read_ok {limits : Limits} {c : Clause}
    (h : Clause.read w limits stream cursor = .ok c) :
    cursor + 3 ≤ stream.length ∧ c.tag < limits.tags ∧ c.reference.index < limits.memberships := by
  obtain ⟨f, rest, hitems, -, hwithin, -⟩ := Clause.first_ok h
  have hlength := congrArg List.length hitems
  simp only [Assertion.encode, List.length_drop, List.length_append, List.length_cons,
    List.length_nil] at hlength
  exact ⟨by omega, hwithin⟩

/-- The rest of a step's items. -/
theorem drop_advance (advance : Nat) (h : 0 < advance) :
    (stream.drop (cursor + 1)).drop (advance - 1) = stream.drop (cursor + advance) := by
  rw [List.drop_drop]
  congr 1
  omega

theorem ConsequentState.seek_eq (token : Token) :
    ConsequentState.seek token =
      ⟨if token = .sentinel .implies then .applying else .seeking, .skip, 1⟩ := by
  rw [ConsequentState.seek]
  split <;> rfl

theorem ConsequentState.advance_apply (c : Clause) :
    (ConsequentState.apply c).advance = 2 ∨ (ConsequentState.apply c).advance = 3 := by
  rw [ConsequentState.apply]
  split
  · exact .inr rfl
  · exact .inl rfl

/-- One step of the premise walk, at a cursor into the stream. -/
theorem premiseWalkFrom_step {completed : Nat} {state : PremiseState} {token : Token} {c : Clause}
    {t : Transition PremiseState PremiseEffect} (hlt : completed < n)
    (htoken : Token.read w stream cursor = .ok token) (hclosing : token ≠ .sentinel .closing)
    (hc : Clause.read w (state.limits sizes) stream cursor = .ok c)
    (ht : state.step w c cursor = .ok t) :
    premiseWalkFrom w sizes n (stream.drop cursor) 0 cursor completed state =
      (premiseWalkFrom w sizes n (stream.drop (cursor + t.advance)) 0 (cursor + t.advance)
        (t.effect.count completed) t.next).after ⟨cursor, completed, state, c, t.effect⟩ := by
  obtain ⟨item, hdrop, rfl⟩ := drop_eq_of_read_ok htoken
  have hadvance : 0 < t.advance := by
    rcases PremiseState.advance_cases ht with h | ⟨h, -⟩ <;> omega
  have hnext : cursor + 1 + (t.advance - 1) = cursor + t.advance := by omega
  rw [Clause.read, hdrop] at hc
  rw [hdrop, premiseWalkFrom, if_pos hlt, if_neg hclosing]
  simp only [hc, ht]
  rw [premiseWalkFrom_skip, drop_advance t.advance hadvance, hnext]

/-- One step of the consequent walk on a consequent, at a cursor into the stream. -/
theorem consequentWalkFrom_apply {rule : Nat} {token : Token} {c : Clause} (hlt : rule < n)
    (htoken : Token.read w stream cursor = .ok token) (hclosing : token ≠ .sentinel .closing)
    (hc : Clause.read w sizes.output stream cursor = .ok c) :
    consequentWalkFrom w sizes n (stream.drop cursor) 0 cursor rule .applying =
      (consequentWalkFrom w sizes n (stream.drop (cursor + (ConsequentState.apply c).advance)) 0
        (cursor + (ConsequentState.apply c).advance) ((ConsequentState.apply c).effect.count rule)
        (ConsequentState.apply c).next).after
        ⟨cursor, rule, some c, (ConsequentState.apply c).effect⟩ := by
  obtain ⟨item, hdrop, rfl⟩ := drop_eq_of_read_ok htoken
  have hadvance : 0 < (ConsequentState.apply c).advance := by
    rcases ConsequentState.advance_apply c with h | h <;> omega
  have hnext : cursor + 1 + ((ConsequentState.apply c).advance - 1) =
      cursor + (ConsequentState.apply c).advance := by omega
  rw [Clause.read, hdrop] at hc
  rw [hdrop, consequentWalkFrom, if_pos hlt, if_neg hclosing]
  simp only [hc]
  rw [consequentWalkFrom_skip, drop_advance _ hadvance, hnext]

/-- Only antecedents are composed. -/
theorem PremiseState.limits_of_compose {state : PremiseState} {index : Nat} {c : Clause}
    {t : Transition PremiseState PremiseEffect} (ht : state.step w c index = .ok t)
    {joined : Option Connective} (heffect : t.effect = .compose joined) :
    state.limits sizes = sizes.input := by
  cases state with
  | premise joined => rfl
  | consequents =>
      rw [step_consequents] at ht
      obtain rfl := Except.ok.inj ht
      split at heffect <;> cases heffect

end Cursor

namespace Engine

variable {α : Type} [Scalar α]

/-- There is a slot for the strength of every rule, and something in the stream. -/
structure Slotted (e : Engine α) : Prop where
  slots : e.ruleCount ≤ e.strengths.length
  rules : e.rules ≠ []

omit [Scalar α] in
theorem Slotted.of_outputsOnly {e e' : Engine α} (h : e.Slotted) (hframe : OutputsOnly e e') :
    e'.Slotted := by
  rw [hframe.eq]
  exact ⟨h.slots, h.rules⟩

/-! ## Inference -/

/-- Where the loop of inference stands. -/
structure PremiseLoop (α : Type) where
  cursor : Nat
  completed : Nat
  state : PremiseState
  composition : Composition α

/-- What the loop of inference finds: the strengths, the number of complete rules, and whether they
are accepted. -/
structure PremiseResult (α : Type) where
  strengths : List α
  completed : Nat
  outcome : Except WalkFault Unit

/-- Carries out what a step asks for. -/
def compose? (e : Engine α) (c : Composition α) (rule : Nat) (clause : Clause) :
    PremiseEffect → Option (Composition α)
  | .compose joined => do
      let m ← e.inputMemberships[clause.reference.index]?
      let degree := clause.reference.polarize (Scalar.unit m.degree)
      return { c with strength := (e.joining joined).apply c.strength degree }
  | .proceed => some c
  | .closeRule =>
      if rule < c.strengths.length then
        some ⟨0, c.strengths.set rule (c.strength * e.weight rule)⟩
      else none

/-- One round of inference. -/
def premiseRound (e : Engine α) (s : PremiseLoop α) :
    Option (PremiseLoop α ⊕ PremiseResult α) :=
  let stop (outcome : Except WalkFault Unit) : Option (PremiseLoop α ⊕ PremiseResult α) :=
    some (.inr ⟨s.composition.strengths, s.completed, outcome⟩)
  match Token.read e.width e.rules s.cursor with
  | .error fault => stop (.error (.malformed fault))
  | .ok token =>
      if s.completed < e.ruleCount then
        if token = .sentinel .closing then stop (.error (.ruleCount e.ruleCount s.completed))
        else
          match Clause.read e.width (s.state.limits e.sizes) e.rules s.cursor with
          | .error fault => stop (.error (.malformed fault))
          | .ok clause =>
              match s.state.step e.width clause s.cursor with
              | .error fault => stop (.error (.malformed fault))
              | .ok t => do
                  let composition ← e.compose? s.composition s.completed clause t.effect
                  return .inl ⟨s.cursor + t.advance, t.effect.count s.completed, t.next,
                    composition⟩
      else if token = .sentinel .closing then stop (.ok ())
      else stop (.error (.ruleCount e.ruleCount s.completed))

/-- Inference. -/
def inference? (e : Engine α) : Option (Outcome α) :=
  match checkOpening e.width e.rules with
  | .error fault =>
      some ({ e with completed := 0, status := .failed }, .error (.walk (.malformed fault)))
  | .ok () => do
      let found ← loop? e.premiseRound e.rules.length ⟨1, 0, .start, ⟨0, e.strengths⟩⟩
      let e := { e with strengths := found.strengths, completed := found.completed }
      match found.outcome with
      | .ok () => return ({ e with status := .succeeded }, .ok ())
      | .error fault => return ({ e with status := .failed }, .error (.walk fault))

/-- What inference has still to find from here on. -/
def PremiseLoop.meaning (e : Engine α) (s : PremiseLoop α) : PremiseResult α :=
  let walk := premiseWalkFrom e.width e.sizes e.ruleCount (e.rules.drop s.cursor) 0 s.cursor
    s.completed s.state
  ⟨(walk.steps.foldl e.compose s.composition).strengths, walk.completed, walk.outcome⟩

/-- The cursor has not passed the end of the stream, and there are slots for all rules. -/
def PremiseLoop.Good (e : Engine α) (s : PremiseLoop α) : Prop :=
  s.cursor ≤ e.rules.length ∧ e.ruleCount ≤ s.composition.strengths.length

/-- What a step asks for is inside the tables, if its clause is and there is a slot for its rule. -/
theorem compose?_eq (e : Engine α) {c : Composition α} {index rule : Nat} {state : PremiseState}
    {clause : Clause} {effect : PremiseEffect}
    (hindex : ∀ joined, effect = .compose joined →
      clause.reference.index < e.inputMemberships.length)
    (hrule : rule < c.strengths.length) :
    e.compose? c rule clause effect = some (e.compose c ⟨index, rule, state, clause, effect⟩) := by
  cases effect with
  | compose joined =>
      have hlookup := List.getElem?_eq_getElem (hindex joined rfl)
      simp [compose?, compose, antecedentDegree, hlookup]
  | proceed => rfl
  | closeRule => exact if_pos hrule

/-- A round that reads a clause goes on behind it. -/
theorem premiseRound_step (e : Engine α) {s : PremiseLoop α} (hs : s.Good e) {token : Token}
    {clause : Clause} {t : Transition PremiseState PremiseEffect}
    (hlt : s.completed < e.ruleCount) (htoken : Token.read e.width e.rules s.cursor = .ok token)
    (hclosing : token ≠ .sentinel .closing)
    (hc : Clause.read e.width (s.state.limits e.sizes) e.rules s.cursor = .ok clause)
    (ht : s.state.step e.width clause s.cursor = .ok t) :
    Advances e.premiseRound (PremiseLoop.Good e) (fun s => e.rules.length - s.cursor)
      (PremiseLoop.meaning e) s := by
  obtain ⟨hend, -, hreference⟩ := Clause.read_ok hc
  have hindex : ∀ joined, t.effect = .compose joined →
      clause.reference.index < e.inputMemberships.length := by
    intro joined heffect
    rwa [PremiseState.limits_of_compose ht heffect] at hreference
  have hround : e.compose? s.composition s.completed clause t.effect =
      some (e.compose s.composition ⟨s.cursor, s.completed, s.state, clause, t.effect⟩) :=
    e.compose?_eq hindex (Nat.lt_of_lt_of_le hlt hs.2)
  have hadvance : 2 ≤ t.advance ∧ t.advance ≤ 3 := by
    rcases PremiseState.advance_cases ht with h | ⟨h, -⟩ <;> omega
  right
  refine ⟨⟨s.cursor + t.advance, t.effect.count s.completed, t.next,
    e.compose s.composition ⟨s.cursor, s.completed, s.state, clause, t.effect⟩⟩, ?_, ?_, ?_, ?_⟩
  · simp [premiseRound, htoken, hlt, hclosing, hc, ht, hround]
  · refine ⟨by dsimp only; omega, ?_⟩
    exact Nat.le_trans hs.2 (Nat.le_of_eq (e.length_foldl_compose [_] _).symm)
  -- the clause lies in front of the end of the stream, so the cursor gets nearer to the end
  · dsimp only
    omega
  · rw [PremiseLoop.meaning, PremiseLoop.meaning, premiseWalkFrom_step hlt htoken hclosing hc ht]
    rfl

/-- Every other round ends inference as the walk does. -/
theorem premiseRound_advances (e : Engine α) {s : PremiseLoop α} (hs : s.Good e) :
    Advances e.premiseRound (PremiseLoop.Good e) (fun s => e.rules.length - s.cursor)
      (PremiseLoop.meaning e) s := by
  -- the cases are the branches of a round, and the walk over the items has the same
  cases htoken : Token.read e.width e.rules s.cursor with
  | error fault =>
      obtain ⟨hdrop, rfl⟩ := drop_eq_of_read_error htoken
      left
      simp [premiseRound, htoken, PremiseLoop.meaning, hdrop, premiseWalkFrom, Walk.stop]
  | ok token =>
      obtain ⟨item, hdrop, hitem⟩ := drop_eq_of_read_ok htoken
      by_cases hlt : s.completed < e.ruleCount
      case neg =>
        left
        by_cases hclosing : token = .sentinel .closing
        · simp [premiseRound, htoken, hlt, hclosing, PremiseLoop.meaning, hdrop, hitem,
            premiseWalkFrom, Walk.stop]
        · simp [premiseRound, htoken, hlt, hclosing, PremiseLoop.meaning, hdrop, hitem,
            premiseWalkFrom, Walk.stop]
      by_cases hclosing : token = .sentinel .closing
      · left
        simp [premiseRound, htoken, hlt, hclosing, PremiseLoop.meaning, hdrop, hitem,
          premiseWalkFrom, Walk.stop]
      cases hc : Clause.read e.width (s.state.limits e.sizes) e.rules s.cursor with
      | error fault =>
          left
          have hfirst := hc
          rw [Clause.read, hdrop] at hfirst
          simp [premiseRound, htoken, hlt, hclosing, hc, PremiseLoop.meaning, hdrop, hitem,
            premiseWalkFrom, hfirst, Walk.stop]
      | ok clause =>
          cases ht : s.state.step e.width clause s.cursor with
          | error fault =>
              left
              have hfirst := hc
              rw [Clause.read, hdrop] at hfirst
              simp [premiseRound, htoken, hlt, hclosing, hc, ht, PremiseLoop.meaning, hdrop, hitem,
                premiseWalkFrom, hfirst, Walk.stop]
          | ok t =>
              exact e.premiseRound_step hs hlt htoken hclosing hc ht

/-- Inference reads inside its tables, and its loop ends. -/
theorem inference?_eq {e : Engine α} (h : e.Slotted) : e.inference? = some e.inference := by
  have hlength : 0 < e.rules.length := List.length_pos_iff.2 h.rules
  rw [inference?, inference, premises, premiseWalk]
  cases hopening : checkOpening e.width e.rules with
  | error fault => rfl
  | ok u =>
      have hstart : PremiseLoop.Good e ⟨1, 0, .start, ⟨0, e.strengths⟩⟩ := ⟨hlength, h.slots⟩
      have hloop := loop?_eq (fun s hs => e.premiseRound_advances hs) hstart
        (show e.rules.length - 1 < e.rules.length by omega)
      simp only [hloop, Option.bind_eq_bind, Option.bind_some, PremiseLoop.meaning]
      cases (premiseWalkFrom e.width e.sizes e.ruleCount (e.rules.drop 1) 0 1 0 .start).outcome with
      | ok u => rfl
      | error fault => rfl

/-! ## Aggregation -/

/-- What a consequent adds to an output. -/
def contribute? (e : Engine α) (m : Membership α) (r : Reference) (strength : α) (o : Output α) :
    Option (Output α) :=
  match e.architecture with
  | .mamdani => do
      let y ← m.evaluate? [o.toVariable]
      let implied := e.config.implication.apply strength (r.polarize (m.height * y))
      return { o with y := e.config.aggregation.apply o.y implied }
  | .sugeno => do
      let z ← m.evaluate? e.inputs
      return { o with accumulator := o.accumulator.addWeighted strength z }
  | .tsukamoto => do
      let z ← m.evaluate? [{ o.toVariable with value := strength }]
      return { o with
        accumulator := o.accumulator.addWeighted strength (Scalar.clamp o.lower o.upper z) }

/-- Applies a consequent. -/
def applyConsequent? (only : Option Nat) (e : Engine α) (rule : Nat) (a : Assertion) :
    Option (Engine α) := do
  let strength ← e.strengths[rule]?
  if 0 < strength ∧ only.all (fun o => o = a.tag) then do
    let m ← e.outputMemberships[a.reference.index]?
    let out ← e.outputs[a.tag]?
    let out' ← e.contribute? m a.reference strength out
    return { e with outputs := e.outputs.set a.tag out' }
  else return e

/-- Where the loop of aggregation stands. -/
structure ConsequentLoop (α : Type) where
  cursor : Nat
  rule : Nat
  state : ConsequentState
  engine : Engine α

/-- One round of aggregation. -/
def consequentRound (only : Option Nat) (s : ConsequentLoop α) :
    Option (ConsequentLoop α ⊕ Outcome α) :=
  let e := s.engine
  if s.rule < e.ruleCount then
    match Token.read e.width e.rules s.cursor with
    | .error fault => some (.inr (e, .error (.walk (.malformed fault))))
    | .ok token =>
        if token = .sentinel .closing then some (.inr (e, .ok ()))
        else
          match s.state with
          | .seeking =>
              let t := ConsequentState.seek token
              some (.inl ⟨s.cursor + t.advance, t.effect.count s.rule, t.next, e⟩)
          | .applying =>
              match Clause.read e.width e.sizes.output e.rules s.cursor with
              | .error fault => some (.inr (e, .error (.walk (.malformed fault))))
              | .ok clause => do
                  let e' ← e.applyConsequent? only s.rule clause.toAssertion
                  let t := ConsequentState.apply clause
                  return .inl ⟨s.cursor + t.advance, t.effect.count s.rule, t.next, e'⟩
  else some (.inr (e, .ok ()))

/-- Aggregation. -/
def aggregate? (only : Option Nat) (e : Engine α) : Option (Outcome α) :=
  loop? (consequentRound only) e.rules.length ⟨1, 0, .seeking, e⟩

/-- What aggregation has still to do from here on. -/
def ConsequentLoop.meaning (only : Option Nat) (s : ConsequentLoop α) : Outcome α :=
  let walk := consequentWalkFrom s.engine.width s.engine.sizes s.engine.ruleCount
    (s.engine.rules.drop s.cursor) 0 s.cursor s.rule s.state
  (walk.consequents.foldl (applyConsequent only) s.engine, walk.outcome.mapError .walk)

/-- The cursor has not passed the end of the stream, and there are slots for all rules. -/
def ConsequentLoop.Good (s : ConsequentLoop α) : Prop :=
  s.cursor ≤ s.engine.rules.length ∧ s.engine.ruleCount ≤ s.engine.strengths.length

theorem contribute?_eq (e : Engine α) (m : Membership α) (r : Reference) (strength : α)
    (o : Output α) : e.contribute? m r strength o = some (e.contribute m r strength o) := by
  rw [contribute?, contribute]
  cases e.architecture with
  | mamdani => simp [m.evaluate?_eq, Membership.scaled]
  | sugeno => simp [m.evaluate?_eq]
  | tsukamoto => simp [m.evaluate?_eq]

/-- A consequent is applied inside the tables, if its clause is and there is a slot for its rule. -/
theorem applyConsequent?_eq (only : Option Nat) {e : Engine α} {c : Consequent}
    (hrule : c.rule < e.strengths.length) (hwithin : c.assertion.Within e.sizes.output) :
    e.applyConsequent? only c.rule c.assertion = some (applyConsequent only e c) := by
  obtain ⟨htag, hindex⟩ := hwithin
  have hstrength := List.getElem?_eq_getElem hrule
  have hmembership := List.getElem?_eq_getElem (show _ < e.outputMemberships.length from hindex)
  have hout := List.getElem?_eq_getElem (show _ < e.outputs.length from htag)
  simp only [applyConsequent?, applyConsequent, hstrength, Option.bind_eq_bind, Option.bind_some,
    Option.getD_some]
  split
  · simp only [hmembership, hout, Option.bind_some, contribute?_eq, Option.pure_def]
    rw [List.modify_eq_set_get _ htag]
    rfl
  · rfl

/-- A round that reads a consequent goes on behind it, in an engine that differs in its outputs
only. -/
theorem consequentRound_apply (only : Option Nat) {s : ConsequentLoop α} (hs : s.Good)
    {token : Token} {clause : Clause} (hlt : s.rule < s.engine.ruleCount)
    (htoken : Token.read s.engine.width s.engine.rules s.cursor = .ok token)
    (hclosing : token ≠ .sentinel .closing) (hstate : s.state = .applying)
    (hc : Clause.read s.engine.width s.engine.sizes.output s.engine.rules s.cursor = .ok clause) :
    Advances (consequentRound only) ConsequentLoop.Good
      (fun s => s.engine.rules.length - s.cursor) (ConsequentLoop.meaning only) s := by
  obtain ⟨hend, hwithin⟩ := Clause.read_ok hc
  have happly : s.engine.applyConsequent? only s.rule clause.toAssertion =
      some (applyConsequent only s.engine ⟨s.cursor, s.rule, clause.toAssertion⟩) :=
    applyConsequent?_eq only (c := ⟨s.cursor, s.rule, clause.toAssertion⟩)
      (Nat.lt_of_lt_of_le hlt hs.2) hwithin
  have hframe := outputsOnly_applyConsequent only s.engine ⟨s.cursor, s.rule, clause.toAssertion⟩
  obtain ⟨outputs, hsizes, hkept⟩ : ∃ outputs,
      { s.engine with outputs := outputs }.sizes = s.engine.sizes ∧
        applyConsequent only s.engine ⟨s.cursor, s.rule, clause.toAssertion⟩ =
          { s.engine with outputs := outputs } :=
    ⟨_, by rw [← hframe.eq]; exact congrArg Script.sizes hframe.script, hframe.eq⟩
  have hadvance : 2 ≤ (ConsequentState.apply clause).advance ∧
      (ConsequentState.apply clause).advance ≤ 3 := by
    rcases ConsequentState.advance_apply clause with h | h <;> omega
  right
  refine ⟨⟨s.cursor + (ConsequentState.apply clause).advance,
    (ConsequentState.apply clause).effect.count s.rule, (ConsequentState.apply clause).next,
    { s.engine with outputs := outputs }⟩, ?_, ?_, ?_, ?_⟩
  · simp [consequentRound, hlt, htoken, hclosing, hstate, hc, happly, hkept]
  · exact ⟨by dsimp only; omega, hs.2⟩
  · dsimp only
    omega
  · have hvisits : ∀ (rest : Walk ConsequentStep) (effect : ConsequentEffect),
        (rest.after ⟨s.cursor, s.rule, some clause, effect⟩).consequents =
          ⟨s.cursor, s.rule, clause.toAssertion⟩ :: rest.consequents := fun _ _ => rfl
    rw [ConsequentLoop.meaning, ConsequentLoop.meaning, hstate,
      consequentWalkFrom_apply hlt htoken hclosing hc, hvisits, List.foldl_cons, hkept]
    dsimp only
    rw [hsizes]
    rfl

theorem consequentRound_advances (only : Option Nat) {s : ConsequentLoop α} (hs : s.Good) :
    Advances (consequentRound only) ConsequentLoop.Good
      (fun s => s.engine.rules.length - s.cursor) (ConsequentLoop.meaning only) s := by
  obtain ⟨hcursor, hslots⟩ := hs
  by_cases hlt : s.rule < s.engine.ruleCount
  case neg =>
    left
    simp only [consequentRound, hlt, if_false, ConsequentLoop.meaning]
    rw [consequentWalkFrom_of_le _ _ _ _ (Nat.not_lt.1 hlt)]
    rfl
  cases htoken : Token.read s.engine.width s.engine.rules s.cursor with
  | error fault =>
      obtain ⟨hdrop, rfl⟩ := drop_eq_of_read_error htoken
      left
      simp [consequentRound, hlt, htoken, ConsequentLoop.meaning, hdrop, consequentWalkFrom,
        Walk.stop, Walk.consequents, Except.mapError]
  | ok token =>
      obtain ⟨item, hdrop, hitem⟩ := drop_eq_of_read_ok htoken
      have hitems : s.cursor < s.engine.rules.length := by
        have hlength := congrArg List.length hdrop
        simp only [List.length_drop, List.length_cons] at hlength
        omega
      by_cases hclosing : token = .sentinel .closing
      · left
        simp [consequentRound, hlt, htoken, hclosing, ConsequentLoop.meaning, hdrop, hitem,
          consequentWalkFrom, Walk.stop, Walk.consequents, Except.mapError]
      cases hstate : s.state with
      -- looking for THEN reads no table
      | seeking =>
          right
          refine ⟨⟨s.cursor + 1, s.rule, (ConsequentState.seek token).next, s.engine⟩,
            ?_, ?_, ?_, ?_⟩
          · simp [consequentRound, hlt, htoken, hclosing, hstate, ConsequentState.seek_eq,
              ConsequentEffect.count]
          · exact ⟨hitems, hslots⟩
          · dsimp only
            omega
          · rw [ConsequentLoop.meaning, ConsequentLoop.meaning, hstate, hdrop,
              consequentWalkFrom_seek _ _ hlt (by rwa [hitem]), hitem, ConsequentState.seek_eq]
            rfl
      | applying =>
          cases hc : Clause.read s.engine.width s.engine.sizes.output s.engine.rules s.cursor with
          | error fault =>
              left
              have hfirst := hc
              rw [Clause.read, hdrop] at hfirst
              simp [consequentRound, hlt, htoken, hclosing, hstate, hc, ConsequentLoop.meaning,
                hdrop, hitem, consequentWalkFrom, hfirst, Walk.stop, Walk.consequents,
                Except.mapError]
          | ok clause =>
              exact consequentRound_apply only ⟨hcursor, hslots⟩ hlt htoken hclosing hstate hc

/-- Aggregation reads inside its tables, and its loop ends. -/
theorem aggregate?_eq (only : Option Nat) {e : Engine α} (h : e.Slotted) :
    e.aggregate? only = some (e.aggregate only) := by
  have hlength : 0 < e.rules.length := List.length_pos_iff.2 h.rules
  have hstart : ConsequentLoop.Good ⟨1, 0, .seeking, e⟩ := ⟨hlength, h.slots⟩
  exact loop?_eq (fun s hs => consequentRound_advances only hs) hstart
    (show e.rules.length - 1 < e.rules.length by omega)

/-! ## Defuzzification -/

omit [Scalar α] in
/-- The second of two operations, if the first succeeds. -/
def Outcome.andThen? (r : Option (Outcome α)) (next : Engine α → Option (Outcome α)) :
    Option (Outcome α) :=
  match r with
  | none => none
  | some (e, .error err) => some (e, .error err)
  | some (e, .ok ()) => next e

omit [Scalar α] in
theorem Outcome.andThen?_some {r : Outcome α} {next? : Engine α → Option (Outcome α)}
    {next : Engine α → Outcome α} (h : next? r.1 = some (next r.1)) :
    Outcome.andThen? (some r) next? = some (r.andThen next) := by
  obtain ⟨e, err | u⟩ := r
  · rfl
  · exact h

omit [Scalar α] in
/-- Changes one output. -/
def modifyOutput? (o : Nat) (f : Output α → Output α) (e : Engine α) : Option (Engine α) := do
  let out ← e.outputs[o]?
  return { e with outputs := e.outputs.set o (f out) }

omit [Scalar α] in
theorem modifyOutput?_eq {o : Nat} {e : Engine α} (ho : o < e.outputs.length)
    (f : Output α → Output α) : e.modifyOutput? o f = some (e.modifyOutput o f) := by
  simp only [modifyOutput?, List.getElem?_eq_getElem ho, modifyOutput]
  rw [List.modify_eq_set_get _ ho]
  rfl

/-- Takes samples of all outputs together. -/
def sample? (points : Nat) : (left k : Nat) → Engine α → Option (Outcome α)
  | 0, _, e => some (e, .ok ())
  | left + 1, k, e =>
      Outcome.andThen? (aggregate? none (e.mapOutputs (Output.beginSample k points))) fun e =>
        sample? points left (k + 1) (e.mapOutputs (Output.takeSample e.config.method k))

/-- Advances the second sweep of the bisector. -/
def scan? (o : Nat) (e : Engine α) : Option (Engine α × Bool) := do
  let out ← e.outputs[o]?
  let (acc, reached) := out.accumulator.scanArea out.x out.y
  let e ← e.modifyOutput? o fun out => { out with accumulator := acc }
  return (e, reached)

/-- Samples one output again. -/
def halve? (o points : Nat) : (left k : Nat) → Engine α → Option (Outcome α)
  | 0, _, e => some (e, .ok ())
  | left + 1, k, e => do
      let begun ← e.modifyOutput? o (Output.beginSample k points)
      Outcome.andThen? (aggregate? (some o) begun) fun e => do
        let (e, reached) ← e.scan? o
        if reached then return (e, .ok ()) else halve? o points left (k + 1) e

/-- The second sweep of the bisector over the given outputs. -/
def bisect? (points : Nat) : List Nat → Engine α → Option (Outcome α)
  | [], e => some (e, .ok ())
  | o :: os, e => do
      let started ← e.modifyOutput? o fun out =>
        { out with accumulator := out.accumulator.beginBisection }
      Outcome.andThen? (halve? o points points 0 started) (bisect? points os)

/-- Fills the accumulators of all outputs. -/
def accumulate? (e : Engine α) : Option (Outcome α) :=
  match e.architecture with
  | .sugeno | .tsukamoto => aggregate? none e
  | .mamdani =>
      Outcome.andThen? (sample? e.config.evalPoints e.config.evalPoints 0 e) fun e' =>
        if e'.config.method = .bisector then
          bisect? e.config.evalPoints (List.range e'.outputs.length) e'
        else some (e', .ok ())

/-- Defuzzification. -/
def defuzzify? (e : Engine α) : Option (Outcome α) :=
  if e.status = .succeeded then
    Outcome.andThen? (accumulate? (e.mapOutputs (Output.reset e.config.method))) fun e =>
      some (e.mapOutputs (Output.settle e.config.method), .ok ())
  else some (e, .error .inferenceNotValid)

theorem sample?_eq (points left k : Nat) {e : Engine α} (h : e.Slotted) :
    sample? points left k e = some (sample points left k e) := by
  induction left generalizing k e with
  | zero => rfl
  | succ left ih =>
      have hbegun := outputsOnly_mapOutputs (Output.beginSample k points) e
      have hfolds := folds_aggregate none (e.mapOutputs (Output.beginSample k points))
      have hsampled := h.of_outputsOnly (hbegun.trans hfolds.frame)
      rw [sample?, aggregate?_eq none (h.of_outputsOnly hbegun), sample_succ]
      exact Outcome.andThen?_some
        (ih (k + 1) (hsampled.of_outputsOnly (outputsOnly_mapOutputs _ _)))

theorem scan?_eq {o : Nat} {e : Engine α} (ho : o < e.outputs.length) :
    e.scan? o = some (e.scan o) := by
  simp [scan?, scan, List.getElem?_eq_getElem ho, modifyOutput?_eq ho]

theorem halve?_eq {o : Nat} (points left k : Nat) {e : Engine α} (h : e.Slotted)
    (ho : o < e.outputs.length) : halve? o points left k e = some (halve o points left k e) := by
  induction left generalizing k e with
  | zero => rfl
  | succ left ih =>
      have hbegun := outputsOnly_modifyOutput o (Output.beginSample k points) e
      have hfolds := folds_aggregate (some o) (e.modifyOutput o (Output.beginSample k points))
      have hframe := hbegun.trans hfolds.frame
      rw [halve?, modifyOutput?_eq ho, halve_succ]
      simp only [Option.bind_eq_bind, Option.bind_some]
      rw [aggregate?_eq (some o) (h.of_outputsOnly hbegun)]
      refine Outcome.andThen?_some ?_
      -- no table gets shorter, so the output is there in the next round
      have ho' := Nat.lt_of_lt_of_eq ho hframe.length.symm
      have hscanned := outputsOnly_scan o
        (aggregate (some o) (e.modifyOutput o (Output.beginSample k points))).1
      have hnext := ih (k + 1) (h.of_outputsOnly (hframe.trans hscanned))
        (Nat.lt_of_lt_of_eq ho' hscanned.length.symm)
      simp only [scan?_eq ho', Option.bind_some, hnext]
      split <;> rfl

theorem bisect?_eq (points : Nat) {os : List Nat} {e : Engine α} (h : e.Slotted)
    (hos : ∀ o ∈ os, o < e.outputs.length) : bisect? points os e = some (bisect points os e) := by
  induction os generalizing e with
  | nil => rfl
  | cons o os ih =>
      obtain ⟨ho, hos⟩ := List.forall_mem_cons.1 hos
      have hstarted := outputsOnly_modifyOutput o
        (fun out => { out with accumulator := out.accumulator.beginBisection }) e
      have hhalved := hstarted.trans (folds_halve o points points 0 _).frame
      rw [bisect?, modifyOutput?_eq ho, bisect_cons]
      simp only [Option.bind_eq_bind, Option.bind_some]
      rw [halve?_eq points points 0 (h.of_outputsOnly hstarted)
        (Nat.lt_of_lt_of_eq ho hstarted.length.symm)]
      refine Outcome.andThen?_some (ih (h.of_outputsOnly hhalved) fun o' ho' => ?_)
      exact Nat.lt_of_lt_of_eq (hos o' ho') hhalved.length.symm

theorem accumulate?_eq {e : Engine α} (h : e.Slotted) : e.accumulate? = some e.accumulate := by
  by_cases harch : e.architecture = .mamdani
  · have hsampled := (folds_sample e.config.evalPoints e.config.evalPoints 0 e).frame
    simp only [accumulate?, harch]
    rw [accumulate_mamdani harch, sample?_eq _ _ 0 h]
    refine Outcome.andThen?_some ?_
    split
    · exact bisect?_eq _ (h.of_outputsOnly hsampled) fun o ho => List.mem_range.1 ho
    · rfl
  · rw [accumulate_weighted harch, ← aggregate?_eq none h, accumulate?]
    cases ha : e.architecture with
    | mamdani => exact absurd ha harch
    | sugeno => rfl
    | tsukamoto => rfl

/-- Defuzzification reads inside its tables, and its loops end. -/
theorem defuzzify?_eq {e : Engine α} (h : e.Slotted) : e.defuzzify? = some e.defuzzify := by
  by_cases hstatus : e.status = .succeeded
  · rw [defuzzify?, if_pos hstatus, defuzzify_succeeded hstatus,
      accumulate?_eq (h.of_outputsOnly (outputsOnly_mapOutputs _ e))]
    exact Outcome.andThen?_some rfl
  · rw [defuzzify?, if_neg hstatus, defuzzify_refused hstatus]

/-! ## Every engine that was set up -/

/-- Whatever an engine was set up over and whatever happened to it since, fuzzification, inference
and defuzzification read coefficients, membership functions, strengths and outputs only inside their
tables, and each walk stops in as many rounds as the stream has items. Caller-supplied shapes are
functions, and give a value. -/
theorem streams_harmless {w : Width} {architecture : Architecture} {tables : Tables α}
    {stream : List Int} {n : Nat} {config : Config} {e₀ e : Engine α}
    (hsetup : setup w architecture tables stream n config = .ok e₀) (cs : List (Command α))
    (he : e₀.run cs = e) :
    e.rules = stream ∧ e.fuzzify? = some e.fuzzify ∧ e.inference? = some e.inference ∧
      e.defuzzify? = some e.defuzzify := by
  obtain ⟨-, ⟨hstream, -, -⟩, -, -⟩ := setup_ok hsetup
  have hrules : e.rules = stream := by
    rw [← he]
    exact congrArg Script.rules ((run_script e₀ cs).trans (script_of_setup hsetup))
  have hslotted : e.Slotted := by
    refine ⟨?_, by rwa [hrules]⟩
    rw [← he]
    exact (run_bound (bound_of_setup hsetup) cs).slots
  exact ⟨hrules, e.fuzzify?_eq, inference?_eq hslotted, defuzzify?_eq hslotted⟩

/-- Tables of other sessions, in which one curve lacks a coefficient and is attached to a variable
that is not there, under a stream whose only consequent names no output. -/
theorem streams_harmless_stray :
    let tables : Tables Float :=
      { twoRuleTables with inputMemberships := [.attached 7 (.curve .triangular) [0, 5] 1] }
    let stream : List Int := [-128, 0, 1, -124, 9, 1]
    ∃ e₀ : Engine Float, setup .byte .mamdani tables stream 2 .mamdaniClassic = .ok e₀ ∧
      let e := e₀.run [.fuzzify, .inference]
      e.inference? = some e.inference ∧ e.defuzzify? = some e.defuzzify := by
  intro tables stream
  obtain ⟨e₀, hsetup⟩ : ∃ e₀, setup .byte .mamdani tables stream 2 .mamdaniClassic = .ok e₀ :=
    ⟨_, rfl⟩
  obtain ⟨-, -, hinference, hdefuzzify⟩ := streams_harmless hsetup [.fuzzify, .inference] rfl
  exact ⟨e₀, hsetup, hinference, hdefuzzify⟩

end Engine

end FuzzyInference
