import FuzzyInference.Proofs.History
import FuzzyInference.Proofs.PremiseRun

/-!
# The consequent walk follows the premise walk

The two walks take the same stream in steps of different sizes. `PremiseStep.visits` says which
steps of the consequent walk a step of the premise walk stands for: an antecedent is skipped in
three steps of one item, a consequent is visited in one. The simulation (`Reads.consequentWalk_eq`)
holds along every run of the premise walk, whether the stream is accepted in the end or not; it
needs no more than that the tag and the reference of a clause are never taken for THEN.

On an accepted stream the consequent walk therefore succeeds, and visits exactly the consequents
that the premise walk has read, at the same positions and with the same rule numbers.
-/

set_option autoImplicit false

namespace FuzzyInference

variable {w : Width} {sizes : Sizes} {n : Nat}

/-- The state of the consequent machine that belongs to a state of the premise machine. -/
def PremiseState.visit : PremiseState → ConsequentState
  | .premise _ => .seeking
  | .consequents => .applying

/-- The steps of the consequent walk that a step of the premise walk stands for. -/
def PremiseStep.visits (s : PremiseStep) : List ConsequentStep :=
  match s.state with
  | .premise _ =>
      [⟨s.index, s.rule, none, .skip⟩, ⟨s.index + 1, s.rule, none, .skip⟩,
        ⟨s.index + 2, s.rule, none, .skip⟩]
  | .consequents =>
      [⟨s.index, s.rule, some s.clause, .apply (decide (s.clause.follow ≠ .sentinel .and))⟩]

/-- The consequent that a step of the premise walk reads, with its place. -/
def PremiseStep.consequent? (s : PremiseStep) : Option Consequent :=
  match s.state with
  | .premise _ => none
  | .consequents => some ⟨s.index, s.rule, s.clause.toAssertion⟩

theorem PremiseStep.filterMap_visits (steps : List PremiseStep) :
    (steps.flatMap visits).filterMap ConsequentStep.consequent? =
      steps.filterMap consequent? := by
  induction steps with
  | nil => rfl
  | cons s steps ih =>
      rw [List.flatMap_cons, List.filterMap_append, ih]
      cases hs : s.state with
      | premise joined => simp [visits, consequent?, hs, ConsequentStep.consequent?]
      | consequents => simp [visits, consequent?, hs, ConsequentStep.consequent?]

/-- Items that are already taken can as well be dropped. -/
theorem consequentWalkFrom_skip (items : List Int) (skip index rule : Nat)
    (state : ConsequentState) :
    consequentWalkFrom w sizes n items skip index rule state =
      consequentWalkFrom w sizes n (items.drop skip) 0 (index + skip) rule state := by
  induction items generalizing skip index with
  | nil => simp [consequentWalkFrom]
  | cons item items ih =>
      cases skip with
      | zero => rfl
      | succ skip =>
          rw [consequentWalkFrom, ih, List.drop_succ_cons]
          congr 1
          omega

theorem consequentWalkFrom_of_le (items : List Int) (index rule : Nat) (state : ConsequentState)
    (h : n ≤ rule) :
    consequentWalkFrom w sizes n items 0 index rule state = .stop rule (.ok ()) := by
  have hnot : ¬ rule < n := Nat.not_lt.2 h
  cases items with
  | nil => simp only [consequentWalkFrom, if_neg hnot]
  | cons item items => simp only [consequentWalkFrom, if_neg hnot]

/-- Seeking goes on over an item that is neither THEN nor the closing sentinel. -/
theorem consequentWalkFrom_seek {item : Int} (rest : List Int) (index : Nat) {rule : Nat}
    (hlt : rule < n) (hclosing : Token.ofItem w item ≠ .sentinel .closing) :
    consequentWalkFrom w sizes n (item :: rest) 0 index rule .seeking =
      (consequentWalkFrom w sizes n rest 0 (index + 1) rule
        (if Token.ofItem w item = .sentinel .implies then .applying else .seeking)).after
          ⟨index, rule, none, .skip⟩ := by
  rw [consequentWalkFrom, if_pos hlt, if_neg hclosing]
  by_cases hitem : Token.ofItem w item = .sentinel .implies
  · simp only [ConsequentState.seek, if_pos hitem]
    rfl
  · simp only [ConsequentState.seek, if_neg hitem]
    rfl

theorem consequentWalkFrom_seek_item {item : Int} (rest : List Int) (index : Nat) {rule : Nat}
    (hlt : rule < n) (hitem : Token.ofItem w item = .item item) :
    consequentWalkFrom w sizes n (item :: rest) 0 index rule .seeking =
      (consequentWalkFrom w sizes n rest 0 (index + 1) rule .seeking).after
        ⟨index, rule, none, .skip⟩ := by
  rw [consequentWalkFrom_seek rest index hlt (by simp [hitem]), if_neg (by simp [hitem])]

namespace Progress

/-- The consequent walk that goes on from here over the unread items. -/
def consequentWalk (w : Width) (sizes : Sizes) (n : Nat) (p : Progress) (items : List Int) :
    Walk ConsequentStep :=
  consequentWalkFrom w sizes n items 0 (p.position w) p.rules.length p.pending.state.visit

variable {p : Progress} {items : List Int} {c : Clause}
  {t : Transition PremiseState PremiseEffect}

/-- An antecedent is skipped item by item, and only THEN behind it ends the search. -/
theorem consequentWalk_premise {joined : Option Connective}
    (hstate : p.pending.state = .premise joined) (hlt : p.rules.length < n)
    (hc : Clause.first w (p.pending.state.limits sizes) (p.position w) items = .ok c)
    (ht : p.pending.state.step w c (p.position w) = .ok t) :
    p.consequentWalk w sizes n items =
      ((p.read c).consequentWalk w sizes n (items.drop t.advance)).prepend
        (p.stepOn w c t.effect).visits := by
  obtain ⟨f, rest, rfl, hf, -, htag, href⟩ := Clause.first_ok hc
  have hposition := position_read ht
  have hnext := read_state ht
  have hcount := read_count ht
  rw [hstate] at ht
  have hvisits : (p.stepOn w c t.effect).visits =
      [⟨p.position w, p.rules.length, none, .skip⟩, ⟨p.position w + 1, p.rules.length, none, .skip⟩,
        ⟨p.position w + 2, p.rules.length, none, .skip⟩] := by
    simp only [PremiseStep.visits, stepOn, hstate]
  -- the follower decides where the search stands after its three steps
  have hlast : Token.ofItem w f ≠ .sentinel .closing ∧ t.advance = 3 ∧
      t.effect.count p.rules.length = p.rules.length ∧
      (if Token.ofItem w f = .sentinel .implies then ConsequentState.applying else .seeking) =
        t.next.visit := by
    rw [← hf]
    rcases PremiseState.step_premise ht with ⟨j, hfollow, rfl⟩ | ⟨hfollow, rfl⟩
    · rw [hfollow]
      cases j <;> exact ⟨by simp [Connective.sentinel], rfl, rfl, rfl⟩
    · rw [hfollow]
      exact ⟨by simp, rfl, rfl, rfl⟩
  obtain ⟨hclosing, hadvance, heffect, hvisit⟩ := hlast
  rw [consequentWalk, hstate, hvisits]
  show consequentWalkFrom w sizes n ((c.tag : Int) :: c.reference.code :: f :: rest) 0
    (p.position w) p.rules.length .seeking = _
  -- neither the tag nor the reference is taken for THEN or for the end
  rw [consequentWalkFrom_seek_item _ _ hlt htag, consequentWalkFrom_seek_item _ _ hlt href,
    consequentWalkFrom_seek _ _ hlt hclosing, hvisit]
  simp only [consequentWalk, hposition, hnext, hcount, heffect, hadvance]
  rfl

/-- A consequent is visited in one step. -/
theorem consequentWalk_consequents (hstate : p.pending.state = .consequents)
    (hlt : p.rules.length < n)
    (hc : Clause.first w (p.pending.state.limits sizes) (p.position w) items = .ok c)
    (ht : p.pending.state.step w c (p.position w) = .ok t) :
    p.consequentWalk w sizes n items =
      ((p.read c).consequentWalk w sizes n (items.drop t.advance)).prepend
        (p.stepOn w c t.effect).visits := by
  obtain ⟨item, rest, rfl, hitem⟩ := Clause.head_ne_sentinel hc .closing
  have hposition := position_read ht
  have hnext := read_state ht
  have hcount := read_count ht
  rw [hstate] at ht hc
  rw [PremiseState.step_consequents] at ht
  have htransition := (Except.ok.inj ht).symm
  rw [consequentWalk, hstate, PremiseState.visit, consequentWalkFrom, if_pos hlt, if_neg hitem]
  simp only [PremiseState.limits] at hc
  simp only [hc]
  by_cases hf : c.follow = .sentinel .and
  · rw [if_pos hf] at htransition
    simp only [ConsequentState.apply, if_pos hf, consequentWalk, hposition, hnext, hcount,
      htransition, PremiseStep.visits, stepOn, hstate, consequentWalkFrom_skip rest]
    simp [hf, Walk.prepend, Walk.after, PremiseState.visit, PremiseEffect.count,
      ConsequentEffect.count, Nat.add_assoc]
  · rw [if_neg hf] at htransition
    simp only [ConsequentState.apply, if_neg hf, consequentWalk, hposition, hnext, hcount,
      htransition, PremiseStep.visits, stepOn, hstate, consequentWalkFrom_skip rest]
    simp [hf, Walk.prepend, Walk.after, PremiseState.visit, PremiseState.start,
      PremiseEffect.count, ConsequentEffect.count, Nat.add_assoc]

end Progress

/-- Along every run of the premise walk, the consequent walk makes the steps that the run stands
for. -/
theorem Reads.consequentWalk_eq {p q : Progress} {items rest : List Int}
    {steps : List PremiseStep} (h : Reads w sizes n p items steps q rest) :
    p.consequentWalk w sizes n items =
      (q.consequentWalk w sizes n rest).prepend (steps.flatMap PremiseStep.visits) := by
  induction h with
  | done p items => rfl
  | @step p q items rest c t steps hlt hc ht _ ih =>
      have hstep : p.consequentWalk w sizes n items =
          ((p.read c).consequentWalk w sizes n (items.drop t.advance)).prepend
            (p.stepOn w c t.effect).visits := by
        cases hstate : p.pending.state with
        | premise joined => exact Progress.consequentWalk_premise hstate hlt hc ht
        | consequents => exact Progress.consequentWalk_consequents hstate hlt hc ht
      rw [hstep, ih, List.flatMap_cons]
      simp [Walk.prepend, List.append_assoc]

theorem consequentWalk_cons (items : List Int) :
    consequentWalk w sizes n (Sentinel.opening.code w :: items) =
      Progress.start.consequentWalk w sizes n items := rfl

/-- On a stream that the premise walk accepts, the consequent walk succeeds with the steps that the
premise walk stands for. -/
theorem consequentWalk_eq_of_ok {stream : List Int}
    (h : (premiseWalk w sizes n stream).outcome = .ok ()) :
    consequentWalk w sizes n stream =
      ⟨(premiseWalk w sizes n stream).steps.flatMap PremiseStep.visits, n, .ok ()⟩ := by
  obtain ⟨items, q, left, rfl, hreads, hn, -⟩ := premiseWalk_ok h
  rw [consequentWalk_cons, hreads.consequentWalk_eq, Progress.consequentWalk,
    consequentWalkFrom_of_le _ _ _ _ (Nat.le_of_eq hn.symm), hn]
  simp [Walk.prepend, Walk.stop]

/-! ## What the walk visits -/

/-- A consequent that an engine with `n` rules can apply: there is a strength for its rule, and its
assertion lies inside the tables. -/
def Consequent.Applies (sizes : Sizes) (n : Nat) (c : Consequent) : Prop :=
  c.rule < n ∧ c.assertion.Within sizes.output

/-- Every consequent that is visited can be applied, whatever the stream. -/
theorem consequentWalkFrom_applies (items : List Int) (skip index rule : Nat)
    (state : ConsequentState) :
    ∀ c ∈ (consequentWalkFrom w sizes n items skip index rule state).consequents,
      c.Applies sizes n := by
  induction items generalizing skip index rule state with
  | nil =>
      intro c hc
      simp only [consequentWalkFrom] at hc
      split at hc <;> simp [Walk.consequents, Walk.stop] at hc
  | cons item items ih =>
      cases skip with
      | succ skip => exact ih skip (index + 1) rule state
      | zero =>
          intro c hc
          simp only [consequentWalkFrom] at hc
          split at hc
          · rename_i hlt
            split at hc
            · simp [Walk.consequents, Walk.stop] at hc
            · cases state with
              | seeking => exact ih _ _ _ _ c hc
              | applying =>
                  cases hclause : Clause.first w sizes.output index (item :: items) with
                  | error fault => simp [hclause, Walk.consequents, Walk.stop] at hc
                  | ok clause =>
                      obtain ⟨f, rest, -, -, hin, -⟩ := Clause.first_ok hclause
                      simp only [hclause] at hc
                      rcases List.mem_cons.1 hc with rfl | hc
                      · exact ⟨hlt, hin⟩
                      · exact ih _ _ _ _ c hc
          · simp [Walk.consequents, Walk.stop] at hc

namespace Engine

variable {α : Type} [Scalar α]

omit [Scalar α] in
/-- Every consequent that aggregation visits names a slot and entries of the tables. -/
theorem consequences_applies (e : Engine α) :
    ∀ c ∈ e.consequences.consequents, c.Applies e.sizes e.ruleCount :=
  consequentWalkFrom_applies _ _ _ _ _

/-- After an inference that succeeded, and in every engine over the same script, aggregation
succeeds. It visits exactly the consequents that the inference has read, in the same order and at
the same positions, each with the number of the rule it was read for. -/
theorem aggregate_visits_read_consequents {e : Engine α} (hok : e.inference.2 = .ok ())
    {e' : Engine α} (hscript : e'.script = e.script) (only : Option Nat) :
    e'.consequences.outcome = .ok () ∧
      e'.consequences.consequents = e.premises.steps.filterMap PremiseStep.consequent? ∧
      e'.aggregate only =
        ((e.premises.steps.filterMap PremiseStep.consequent?).foldl (applyConsequent only) e',
          .ok ()) := by
  have hwalk : e'.consequences =
      ⟨e.premises.steps.flatMap PremiseStep.visits, e.ruleCount, .ok ()⟩ := by
    rw [consequences_eq_of_script hscript]
    exact consequentWalk_eq_of_ok ((inference_ok_iff e).1 hok)
  have hvisited : e'.consequences.consequents =
      e.premises.steps.filterMap PremiseStep.consequent? := by
    rw [hwalk, Walk.consequents, PremiseStep.filterMap_visits]
  have houtcome : e'.consequences.outcome = .ok () := by rw [hwalk]
  refine ⟨houtcome, hvisited, ?_⟩
  rw [aggregate, hvisited]
  exact Prod.ext rfl (mapError_eq_ok_iff.2 houtcome)

theorem aggregate_visits_read_consequents_twoRules :
    twoRuleEngine.inference.2 = .ok () ∧
      twoRuleEngine.inference.1.script = twoRuleEngine.script ∧
      twoRuleEngine.inference.1.consequences.consequents =
        twoRuleEngine.premises.steps.filterMap PremiseStep.consequent? :=
  ⟨inference_twoRules, inference_script twoRuleEngine,
    (aggregate_visits_read_consequents inference_twoRules (inference_script twoRuleEngine)
      none).2.1⟩

end Engine

end FuzzyInference
