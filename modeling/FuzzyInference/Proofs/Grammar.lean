import FuzzyInference.Proofs.History
import FuzzyInference.Proofs.PremiseRun

/-!
# The grammar of rule streams

A stream spells rules if it begins with what `Rule.stream` writes for them, they are as many as
configured, and they lie inside the tables (`Spells`). Inference succeeds on exactly the streams
that spell rules. The rules are unique, and the clauses that the walk reads are theirs, in order
(`Rule.readings`).

A stream may hold anything behind its first closing sentinel: the walk looks at most two items
ahead, and never across a sentinel that cannot stand where it is (`premiseWalk_append_closing`).
-/

set_option autoImplicit false

namespace FuzzyInference

variable {w : Width} {sizes : Sizes} {n : Nat} {stream : List Int}

/-! ## The clauses of a rule -/

/-- What is read in one step: an assertion, the number of its rule and the state it is read in. -/
structure Reading where
  rule : Nat
  state : PremiseState
  assertion : Assertion
  deriving DecidableEq

/-- What a step of the walk reads. -/
def PremiseStep.reading (s : PremiseStep) : Reading := ⟨s.rule, s.state, s.clause.toAssertion⟩

/-- The antecedents of a premise, each with the connective in front of it. -/
def premiseReadings (rule : Nat) (antecedent : Assertion)
    (joined : List (Connective × Assertion)) : List Reading :=
  ⟨rule, .premise none, antecedent⟩ :: joined.map fun j => ⟨rule, .premise (some j.1), j.2⟩

/-- Consequents in order. -/
def consequentReadings (rule : Nat) (consequents : List Assertion) : List Reading :=
  consequents.map fun a => ⟨rule, .consequents, a⟩

/-- The clauses of a rule in order. -/
def Rule.readings (rule : Nat) (r : Rule) : List Reading :=
  premiseReadings rule r.antecedent r.joined ++ consequentReadings rule r.consequents

/-- The clauses of rules that are numbered from 0. -/
def Rule.allReadings (rules : List Rule) : List Reading :=
  rules.zipIdx.flatMap fun r => r.1.readings r.2

theorem Rule.allReadings_concat (rules : List Rule) (r : Rule) :
    Rule.allReadings (rules ++ [r]) = Rule.allReadings rules ++ r.readings rules.length := by
  simp [Rule.allReadings, List.zipIdx_append]

/-- The clauses that are pending. -/
def Pending.readings (rule : Nat) : Pending → List Reading
  | opening => []
  | premise a js _ => premiseReadings rule a js
  | conclusion a js => premiseReadings rule a js
  | further a js c cs => premiseReadings rule a js ++ consequentReadings rule (c :: cs)

theorem Pending.readings_after (rule : Nat) (a : Assertion) (js : List (Connective × Assertion))
    (t : Token) : (Pending.after a js t).readings rule = premiseReadings rule a js := by
  unfold Pending.after
  split <;> rfl

/-- The clauses read so far. -/
def Progress.readings (p : Progress) : List Reading :=
  Rule.allReadings p.rules ++ p.pending.readings p.rules.length

theorem Progress.readings_read (p : Progress) (c : Clause) :
    (p.read c).readings = p.readings ++ [⟨p.rules.length, p.pending.state, c.toAssertion⟩] := by
  rcases p with ⟨rules, pending⟩
  cases pending with
  | opening =>
      simp only [read, readings, Pending.readings_after]
      simp [premiseReadings, Pending.readings, Pending.state]
  | premise a js j =>
      simp only [read, readings, Pending.readings_after]
      simp [premiseReadings, Pending.readings, Pending.state]
  | conclusion a js =>
      simp only [read]
      split
      · simp [readings, Pending.readings, consequentReadings, Pending.state]
      · simp [readings, Rule.allReadings_concat, Rule.readings, Rule.consequents,
          Pending.readings, consequentReadings, Pending.state]
  | further a js d ds =>
      simp only [read]
      split
      · simp [readings, Pending.readings, consequentReadings, Pending.state]
      · simp [readings, Rule.allReadings_concat, Rule.readings, Rule.consequents,
          Pending.readings, consequentReadings, Pending.state]

/-- A run reads the clauses of its steps. -/
theorem Reads.readings_eq {p q : Progress} {items rest : List Int} {steps : List PremiseStep}
    (h : Reads w sizes n p items steps q rest) :
    q.readings = p.readings ++ steps.map PremiseStep.reading := by
  induction h with
  | done p items => simp
  | step hlt hc ht _ ih =>
      rw [ih, Progress.readings_read, List.map_cons, List.append_assoc]
      rfl

/-! ## Streams that spell rules -/

/-- The stream begins with what is written for the rules, which are `n` rules inside the tables. -/
structure Spells (w : Width) (sizes : Sizes) (n : Nat) (stream : List Int) (rules : List Rule) :
    Prop where
  count : rules.length = n
  within : ∀ r ∈ rules, r.Within sizes
  opens : Rule.stream w rules <+: stream

/-- Behind the last rule the walk succeeds on the closing sentinel. -/
theorem Progress.walk_closing {p : Progress} (h : n ≤ p.rules.length) (rest : List Int) :
    p.walk w sizes n (Sentinel.closing.code w :: rest) = .stop p.rules.length (.ok ()) := by
  rw [walk, premiseWalkFrom, if_neg (Nat.not_lt.2 h),
    if_pos (Token.ofItem_eq_sentinel_iff.2 rfl)]

/-- An accepted stream spells rules. -/
theorem exists_spells (h : (premiseWalk w sizes n stream).outcome = .ok ()) :
    ∃ rules, Spells w sizes n stream rules := by
  obtain ⟨items, q, left, rfl, hreads, hn, -⟩ := premiseWalk_ok h
  -- behind the last rule nothing is pending, so the items read are those of whole rules
  have hpending : q.pending = .opening := (hreads.legal Progress.legal_start).2 hn
  have hitems := hreads.encode_append
  refine ⟨q.rules, hn, (hreads.within Progress.within_start).1, left, ?_⟩
  rw [Progress.encode, hpending] at hitems
  simpa [Rule.stream, Progress.encode, Progress.start, Pending.encode] using hitems

namespace Spells

variable {rules : List Rule}

/-- The walk over a stream that spells rules reads these rules and succeeds. -/
theorem exists_reads (hfit : sizes.Fit w) (h : Spells w sizes n stream rules) :
    ∃ items rest steps, Reads w sizes n .start items steps ⟨rules, .opening⟩ rest ∧
      premiseWalk w sizes n stream = ⟨steps, n, .ok ()⟩ := by
  obtain ⟨rest, rfl⟩ := h.opens
  have hend : EndsRule w (Sentinel.closing.code w :: rest) := by
    refine ⟨_, rest, rfl, ?_⟩
    intro heq
    exact absurd (Sentinel.code_injective heq) (by decide)
  obtain ⟨steps, hreads⟩ := Reaches.rules hfit [] (Nat.le_of_eq h.count) h.within hend
  refine ⟨_, _, steps, hreads, ?_⟩
  have hstream : Rule.stream w rules ++ rest =
      Sentinel.opening.code w ::
        (rules.flatMap (Rule.encode w) ++ Sentinel.closing.code w :: rest) := by
    simp [Rule.stream]
  have hwalk := hreads.walk_eq
  rw [Progress.walk_closing (Nat.le_of_eq h.count.symm)] at hwalk
  rw [hstream, premiseWalk_cons]
  refine hwalk.trans ?_
  simp [Walk.prepend, Walk.stop, h.count]

theorem unique (hfit : sizes.Fit w) {rules' : List Rule} (h : Spells w sizes n stream rules)
    (h' : Spells w sizes n stream rules') : rules' = rules := by
  obtain ⟨items, rest, steps, hreads, hwalk⟩ := h.exists_reads hfit
  obtain ⟨items', rest', steps', hreads', hwalk'⟩ := h'.exists_reads hfit
  -- there is one walk over the stream, and its steps determine what was read
  have hsteps : steps' = steps := congrArg Walk.steps (hwalk'.symm.trans hwalk)
  have hprogress := hreads'.foldl_read
  rw [hsteps, hreads.foldl_read] at hprogress
  exact (congrArg Progress.rules hprogress).symm

/-- The walk reads the clauses of the rules, and no others. -/
theorem readings_eq (hfit : sizes.Fit w) (h : Spells w sizes n stream rules) :
    (premiseWalk w sizes n stream).steps.map PremiseStep.reading = Rule.allReadings rules := by
  obtain ⟨items, rest, steps, hreads, hwalk⟩ := h.exists_reads hfit
  have hreadings := hreads.readings_eq
  rw [hwalk]
  simpa [Progress.readings, Progress.start, Pending.readings, Rule.allReadings] using
    hreadings.symm

end Spells

theorem premiseWalk_ok_iff (hfit : sizes.Fit w) :
    (premiseWalk w sizes n stream).outcome = .ok () ↔ ∃ rules, Spells w sizes n stream rules := by
  constructor
  · exact exists_spells
  · rintro ⟨rules, h⟩
    obtain ⟨items, rest, steps, -, hwalk⟩ := h.exists_reads hfit
    rw [hwalk]

/-! ## Behind the closing sentinel -/

/-- Reading a clause in front of a closing sentinel looks at nothing behind it. -/
theorem Clause.first_append_closing (limits : Limits) (index : Nat) {pre : List Int}
    (hpre : pre ≠ []) (post post' : List Int) :
    Clause.first w limits index (pre ++ Sentinel.closing.code w :: post) =
      Clause.first w limits index (pre ++ Sentinel.closing.code w :: post') := by
  rcases pre with - | ⟨x, - | ⟨y, - | ⟨z, pre⟩⟩⟩
  · exact absurd rfl hpre
  -- the sentinel stands where the reference should, so the rest is not looked at
  · simp only [Clause.first, Token.first, bind, Except.bind, List.cons_append, List.nil_append,
      List.drop_succ_cons, List.drop_zero, Token.ofItem_code, Limits.reference]
  · rfl
  · rfl

/-- A step takes a clause, and the token behind it unless that closes the stream. -/
theorem PremiseState.advance_cases {state : PremiseState} {index : Nat} {c : Clause}
    {t : Transition PremiseState PremiseEffect} (ht : state.step w c index = .ok t) :
    t.advance = 2 ∨ (t.advance = 3 ∧ c.follow ≠ .sentinel .closing) := by
  cases state with
  | premise joined =>
      rcases step_premise ht with ⟨j, hf, rfl⟩ | ⟨hf, rfl⟩
      · cases j <;> exact Or.inr ⟨rfl, by rw [hf]; decide⟩
      · exact Or.inr ⟨rfl, by rw [hf]; decide⟩
  | consequents =>
      rw [step_consequents] at ht
      have htransition := (Except.ok.inj ht).symm
      by_cases hf : c.follow = .sentinel .and
      · rw [if_pos hf] at htransition
        exact Or.inr ⟨by rw [htransition], by rw [hf]; decide⟩
      · rw [if_neg hf] at htransition
        exact Or.inl (by rw [htransition])

/-- A step in front of a closing sentinel does not take it. -/
theorem PremiseState.advance_le {state : PremiseState} {limits : Limits} {index : Nat}
    (pre post : List Int) {c : Clause} {t : Transition PremiseState PremiseEffect}
    (hc : Clause.first w limits index (pre ++ Sentinel.closing.code w :: post) = .ok c)
    (ht : state.step w c index = .ok t) : t.advance ≤ pre.length := by
  obtain ⟨f, rest, hitems, hf, -, htag, href⟩ := Clause.first_ok hc
  rcases pre with - | ⟨x, - | ⟨y, pre⟩⟩
  -- with fewer than two items in front, the sentinel would be the tag or the reference
  · obtain ⟨htag', -⟩ := List.cons.inj hitems
    rw [← htag', Token.ofItem_code] at htag
    cases htag
  · obtain ⟨-, href', -⟩ : x = c.tag ∧ Sentinel.closing.code w = c.reference.code ∧ _ := by
      simpa [Assertion.encode] using hitems
    rw [← href', Token.ofItem_code] at href
    cases href
  · rcases advance_cases ht with hadvance | ⟨hadvance, hfollow⟩
    · rw [hadvance]
      exact Nat.le_add_left 2 pre.length
    · cases pre with
      -- a step of three items has read its follower, which is then not the sentinel
      | nil =>
          obtain ⟨-, -, hf', -⟩ : x = c.tag ∧ y = c.reference.code ∧
              Sentinel.closing.code w = f ∧ _ := by
            simpa [Assertion.encode] using hitems
          rw [← hf', Token.ofItem_code] at hf
          exact absurd hf hfollow
      | cons z pre =>
          rw [hadvance]
          exact Nat.le_add_left 3 pre.length

theorem premiseWalkFrom_append_closing (w : Width) (sizes : Sizes) (n : Nat)
    (pre post post' : List Int) {skip : Nat} (hskip : skip ≤ pre.length)
    (index completed : Nat) (state : PremiseState) :
    premiseWalkFrom w sizes n (pre ++ Sentinel.closing.code w :: post) skip index completed state =
      premiseWalkFrom w sizes n (pre ++ Sentinel.closing.code w :: post') skip index completed
        state := by
  induction pre generalizing skip index completed state with
  | nil =>
      rw [Nat.le_zero.1 hskip]
      simp only [List.nil_append, premiseWalkFrom, Token.ofItem_code, if_true]
  | cons item pre ih =>
      cases skip with
      | succ skip => exact ih (Nat.le_of_succ_le_succ hskip) (index + 1) completed state
      | zero =>
          have hfirst := Clause.first_append_closing (w := w) (state.limits sizes) index
            (List.cons_ne_nil item pre) post post'
          simp only [List.cons_append] at hfirst
          simp only [List.cons_append, premiseWalkFrom, ← hfirst]
          cases hc : Clause.first w (state.limits sizes) index
              (item :: (pre ++ Sentinel.closing.code w :: post)) with
          | error fault => rfl
          | ok c =>
              cases ht : state.step w c index with
              | error fault => simp only [ht]
              | ok t =>
                  have hle := PremiseState.advance_le (item :: pre) post hc ht
                  simp only [ht, ih (Nat.sub_le_of_le_add hle)]

/-- The walk reads nothing behind a closing sentinel. -/
theorem premiseWalk_append_closing (pre post post' : List Int) :
    premiseWalk w sizes n (pre ++ Sentinel.closing.code w :: post) =
      premiseWalk w sizes n (pre ++ Sentinel.closing.code w :: post') := by
  cases pre with
  | nil => simp [premiseWalk, checkOpening, Token.read, Token.first]
  | cons item pre =>
      have hwalk := premiseWalkFrom_append_closing w sizes n pre post post'
        (Nat.zero_le pre.length) 1 0 .start
      simp only [premiseWalk, checkOpening, Token.read, List.drop_zero, List.cons_append,
        Token.first, List.drop_succ_cons]
      split
      · rfl
      · exact hwalk

/-! ## The largest tables -/

/-- The largest tables that setup admits. -/
def Sizes.largest (w : Width) : Sizes where
  inputs := w.maxTags
  inputMemberships := w.maxReference
  outputs := w.maxTags
  outputMemberships := w.maxReference

theorem Sizes.fit_largest (w : Width) : (largest w).Fit w :=
  ⟨Nat.le_refl _, Nat.le_refl _, Nat.le_refl _, Nat.le_refl _⟩

theorem Sizes.Fit.within_largest (hfit : sizes.Fit w) {r : Rule} (hr : r.Within sizes) :
    r.Within (.largest w) := by
  constructor
  · intro a ha
    obtain ⟨htag, hindex⟩ := hr.1 a ha
    exact ⟨Nat.lt_of_lt_of_le htag hfit.inputs, Nat.lt_of_lt_of_le hindex hfit.inputMemberships⟩
  · intro a ha
    obtain ⟨htag, hindex⟩ := hr.2 a ha
    exact ⟨Nat.lt_of_lt_of_le htag hfit.outputs, Nat.lt_of_lt_of_le hindex hfit.outputMemberships⟩

/-- Nothing that is written for a rule leaves the width or collides with a sentinel, apart from the
sentinels that belong there. -/
theorem Rule.plain_of_within (hfit : sizes.Fit w) {r : Rule} (hr : r.Within sizes) :
    ∀ a ∈ r.antecedents ++ r.consequents, ∀ item ∈ a.encode,
      Phrase.InWidth w item ∧ Token.ofItem w item = .item item := by
  intro a ha
  rcases List.mem_append.1 ha with ha | ha
  · exact Assertion.encode_inWidth hfit.inputs hfit.inputMemberships (hr.1 a ha)
  · exact Assertion.encode_inWidth hfit.outputs hfit.outputMemberships (hr.2 a ha)

/-! ## Inference -/

namespace Engine

variable {α : Type} [Scalar α] {architecture : Architecture} {tables : Tables α} {config : Config}
  {e₀ : Engine α}

/-- Inference on another stream over which the walk is the same. -/
theorem inference_of_premises_eq {e : Engine α} {stream : List Int}
    (h : ({ e with rules := stream } : Engine α).premises = e.premises) :
    ({ e with rules := stream } : Engine α).inference =
      ({ e.inference.1 with rules := stream }, e.inference.2) := by
  unfold inference
  rw [h]
  dsimp only
  cases e.premises.outcome <;> rfl

/-- At any time after setup, inference accepts exactly the streams that spell rules. The rules are
unique, the walk reads their clauses, whatever stands behind the closing sentinel is not read, and
all rules over the largest tables can be written. -/
theorem inference_accepts_exactly_rules
    (hsetup : setup w architecture tables stream n config = .ok e₀) (cs : List (Command α)) :
    ((e₀.run cs).inference.2 = .ok () ↔ ∃ rules, Spells w tables.sizes n stream rules) ∧
      (∀ rules, Spells w tables.sizes n stream rules →
        (∀ rules', Spells w tables.sizes n stream rules' → rules' = rules) ∧
          (e₀.run cs).premises.steps.map PremiseStep.reading = Rule.allReadings rules) ∧
      (∀ pre post post', stream = pre ++ Sentinel.closing.code w :: post →
        ({ e₀.run cs with rules := pre ++ Sentinel.closing.code w :: post' } :
            Engine α).inference =
          ({ (e₀.run cs).inference.1 with rules := pre ++ Sentinel.closing.code w :: post' },
            (e₀.run cs).inference.2)) ∧
      (∀ r : Rule, r.Within tables.sizes → r.Within (.largest w)) ∧
      ∀ rules : List Rule, (∀ r ∈ rules, r.Within (.largest w)) →
        Phrase.stream? w (rules.flatMap Rule.phrases) = some (Rule.stream w rules) ∧
          ∀ r ∈ rules, ∀ a ∈ r.antecedents ++ r.consequents, ∀ item ∈ a.encode,
            Phrase.InWidth w item ∧ Token.ofItem w item = .item item := by
  have hserves := serves_run hsetup cs
  have hfit := hserves.fit
  refine ⟨?_, ?_, ?_, ?_, ?_⟩
  · rw [inference_ok_iff, hserves.premises_eq]
    exact premiseWalk_ok_iff hfit
  · intro rules hrules
    constructor
    · intro rules' hrules'
      exact hrules.unique hfit hrules'
    · rw [hserves.premises_eq]
      exact hrules.readings_eq hfit
  · intro pre post post' hstream
    apply inference_of_premises_eq
    rw [premises, premises, hserves.rules, hserves.width, hstream]
    exact premiseWalk_append_closing pre post' post
  · intro r hr
    exact hfit.within_largest hr
  · intro rules hrules
    have hlargest := Sizes.fit_largest w
    constructor
    · exact Rule.stream?_phrases hlargest hrules
    · intro r hr
      exact Rule.plain_of_within hlargest (hrules r hr)

theorem inference_accepts_exactly_rules_twoRules :
    twoRuleEngine.inference.2 = .ok () ∧
      ∃ rules, Spells .byte twoRuleTables.sizes 2 (Rule.stream .byte twoRules) rules :=
  ⟨inference_twoRules,
    (inference_accepts_exactly_rules setup_twoRules []).1.1 inference_twoRules⟩

end Engine

end FuzzyInference
