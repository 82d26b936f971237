import FuzzyInference.Proofs.Grammar
import FuzzyInference.Proofs.Viable

/-!
# How a walk can stop

`Progress.Stops` lists how the walk ends at a stage where it can make no step: on the closing
sentinel, which comes in time or too early, on an item behind the last rule, where the items run
out, or on an item that spoils the clause that is being read (`Progress.Spoils`). There is no other
way (`Progress.step_or_stops`).

A run looks at one item at most behind those that it takes (`Reads.replay`). So what comes behind
the place where a walk stops can be replaced, and the walk goes there again. `Halts` puts the run,
the stop and this together for a whole stream.
-/

set_option autoImplicit false

namespace FuzzyInference

variable {w : Width} {sizes : Sizes} {n : Nat}

/-! ## Faults of a clause -/

/-- The position of the item that cannot stand where it is, and the item. -/
def StreamFault.wrong? : StreamFault → Option (Nat × Int)
  | missingOpening => none
  | truncated _ => none
  | unexpectedItem index found => some (index, found)
  | tagOutOfRange index _ tag _ => some (index, tag)
  | referenceOutOfRange index reference _ => some (index, reference)

namespace Limits

variable {limits : Limits} {index : Nat} {token : Token} {fault : StreamFault}

theorem wrong_of_tag (h : limits.tag w index token = .error fault) :
    fault.wrong? = some (index, token.code w) := by
  cases token with
  | sentinel s =>
      obtain rfl := Except.error.inj h
      rfl
  | item value =>
      simp only [Limits.tag] at h
      split at h
      · cases h
      · obtain rfl := Except.error.inj h
        rfl

theorem wrong_of_reference (h : limits.reference w index token = .error fault) :
    fault.wrong? = some (index, token.code w) := by
  cases token with
  | sentinel s =>
      obtain rfl := Except.error.inj h
      rfl
  | item value =>
      simp only [Limits.reference] at h
      split at h
      · split at h
        · cases h
        · obtain rfl := Except.error.inj h
          rfl
      · obtain rfl := Except.error.inj h
        rfl

end Limits

theorem Sizes.Fit.limits (hfit : sizes.Fit w) (state : PremiseState) :
    (state.limits sizes).memberships ≤ w.maxReference := by
  cases state with
  | premise joined => exact hfit.inputMemberships
  | consequents => exact hfit.outputMemberships

/-- A step fails on the token behind the clause. -/
theorem PremiseState.wrong_of_step {state : PremiseState} {c : Clause} {index : Nat}
    {fault : StreamFault} (h : state.step w c index = .error fault) :
    fault.wrong? = some (index + 2, c.follow.code w) := by
  cases state with
  -- AND, OR and THEN go on with the premise: only the last case refuses the token
  | premise joined =>
      simp only [step] at h
      split at h
      case h_4 =>
        obtain rfl := Except.error.inj h
        rfl
      all_goals cases h
  | consequents =>
      rw [step_consequents] at h
      cases h

namespace Clause

variable {limits : Limits} {index : Nat} {fault : StreamFault}

theorem first_of_tag_error {x : Int} (h : limits.tag w index (Token.ofItem w x) = .error fault)
    (rest : List Int) : Clause.first w limits index (x :: rest) = .error fault := by
  simp only [Clause.first, Token.first, bind, Except.bind, h]

theorem first_of_reference_error {tag : Nat} {x : Int} (htag : tag < limits.tags)
    (h : limits.reference w (index + 1) (Token.ofItem w x) = .error fault) (rest : List Int) :
    Clause.first w limits index ((tag : Int) :: x :: rest) = .error fault := by
  have htoken : Token.ofItem w (tag : Int) = .item tag := Token.ofItem_of_le (by omega)
  simp only [Clause.first, Token.first, bind, Except.bind, htoken, Limits.tag_of_lt htag,
    List.drop_succ_cons, List.drop_zero, h]

/-- The items of a clause without the token behind it are too few. -/
theorem first_of_beginning {a : Assertion} (hfit : limits.memberships ≤ w.maxReference)
    (ha : a.Within limits) {read : List Int} (hread : read <+: a.encode) :
    Clause.first w limits index read = .error (.truncated (index + read.length)) := by
  obtain ⟨htag, href⟩ := Assertion.plain_of_within hfit ha
  obtain ⟨tail, htail⟩ := hread
  rcases read with - | ⟨x, - | ⟨y, - | ⟨z, read⟩⟩⟩
  · rfl
  · obtain ⟨rfl, -⟩ := List.cons.inj htail
    simp only [Clause.first, Token.first, bind, Except.bind, htag, Limits.tag_of_lt ha.1,
      List.drop_succ_cons, List.drop_zero, List.length_cons, List.length_nil, Nat.zero_add]
  · obtain ⟨rfl, hrest⟩ := List.cons.inj htail
    obtain ⟨rfl, -⟩ := List.cons.inj hrest
    simp only [Clause.first, Token.first, bind, Except.bind, htag, href, Limits.tag_of_lt ha.1,
      Limits.reference_of_lt hfit ha.2, List.drop_succ_cons, List.drop_zero, List.length_cons,
      List.length_nil, Nat.zero_add]
  · simp [Assertion.encode] at htail

end Clause

namespace Progress

/-! ## How a walk can stop -/

/-- A clause goes wrong on the item `x`, behind the items `read` of the clause. -/
inductive Spoils (w : Width) (sizes : Sizes) (p : Progress) :
    List Int → Int → StreamFault → Prop
  | tag {x : Int} {fault : StreamFault} (open_ : x ≠ Sentinel.closing.code w)
      (refused : (p.pending.state.limits sizes).tag w (p.position w) (Token.ofItem w x) =
        .error fault) : Spoils w sizes p [] x fault
  | reference {tag : Nat} {x : Int} {fault : StreamFault}
      (within : tag < (p.pending.state.limits sizes).tags)
      (refused : (p.pending.state.limits sizes).reference w (p.position w + 1)
        (Token.ofItem w x) = .error fault) : Spoils w sizes p [(tag : Int)] x fault
  | follower {a : Assertion} {x : Int} {fault : StreamFault}
      (within : a.Within (p.pending.state.limits sizes))
      (refused : p.pending.state.step w { a with follow := Token.ofItem w x } (p.position w) =
        .error fault) : Spoils w sizes p a.encode x fault

/-- How the walk for `n` rules ends where it can make no step. -/
inductive Stops (w : Width) (sizes : Sizes) (n : Nat) (p : Progress) :
    List Int → Except WalkFault Unit → Prop
  /-- The closing sentinel stands behind the last rule. -/
  | accepted (complete : n ≤ p.rules.length) (rest : List Int) :
      Stops w sizes n p (Sentinel.closing.code w :: rest) (.ok ())
  /-- The closing sentinel stands where a clause should begin. -/
  | tooFew (missing : p.rules.length < n) (rest : List Int) :
      Stops w sizes n p (Sentinel.closing.code w :: rest) (.error (.ruleCount n p.rules.length))
  /-- Another item stands behind the last rule. -/
  | tooMany (complete : n ≤ p.rules.length) {x : Int} (open_ : x ≠ Sentinel.closing.code w)
      (rest : List Int) :
      Stops w sizes n p (x :: rest) (.error (.ruleCount n p.rules.length))
  /-- Nothing stands behind the last rule. -/
  | unclosed (complete : n ≤ p.rules.length) :
      Stops w sizes n p [] (.error (.malformed (.truncated (p.position w))))
  /-- The items end in a clause, or with it. -/
  | starved (missing : p.rules.length < n) {read : List Int} {a : Assertion}
      (within : a.Within (p.pending.state.limits sizes)) (clause : read <+: a.encode) :
      Stops w sizes n p read (.error (.malformed (.truncated (p.position w + read.length))))
  /-- A clause goes wrong. -/
  | spoilt (missing : p.rules.length < n) {read : List Int} {x : Int} {fault : StreamFault}
      (spoils : p.Spoils w sizes read x fault) (rest : List Int) :
      Stops w sizes n p (read ++ x :: rest) (.error (.malformed fault))

variable {p : Progress}

namespace Spoils

variable {read : List Int} {x : Int} {fault : StreamFault}

/-- The fault is at the item that spoils the clause. -/
theorem wrong (h : p.Spoils w sizes read x fault) :
    fault.wrong? = some (p.position w + read.length, x) := by
  cases h with
  | tag _ hrefused => rw [Limits.wrong_of_tag hrefused, Token.code_ofItem]; rfl
  | reference _ hrefused => rw [Limits.wrong_of_reference hrefused, Token.code_ofItem]; rfl
  | follower _ hrefused => rw [PremiseState.wrong_of_step hrefused, Token.code_ofItem]; rfl

/-- Without the item the clause can be continued. -/
theorem exists_read (hfilled : sizes.Filled) (h : p.Spoils w sizes read x fault) :
    ∃ a : Assertion, a.Within (p.pending.state.limits sizes) ∧ read <+: a.encode := by
  have hsimplest := hfilled.within_limits p.pending.state
  cases h with
  | tag _ _ => exact ⟨.simplest, hsimplest, List.nil_prefix⟩
  | reference hwithin _ =>
      exact ⟨⟨_, Assertion.simplest.reference⟩, ⟨hwithin, hsimplest.2⟩, _, rfl⟩
  | follower hwithin _ => exact ⟨_, hwithin, List.prefix_refl _⟩

end Spoils

theorem walk_of_clause_error (hlt : p.rules.length < n) {x : Int} {rest : List Int}
    {fault : StreamFault} (hx : x ≠ Sentinel.closing.code w)
    (h : Clause.first w (p.pending.state.limits sizes) (p.position w) (x :: rest) = .error fault) :
    p.walk w sizes n (x :: rest) = .stop p.rules.length (.error (.malformed fault)) := by
  rw [walk, premiseWalkFrom, if_pos hlt, if_neg (Token.ofItem_ne_sentinel hx)]
  simp only [h]

theorem walk_of_step_error (hfit : sizes.Fit w) (hlt : p.rules.length < n) {a : Assertion}
    {x : Int} {fault : StreamFault} (ha : a.Within (p.pending.state.limits sizes))
    (h : p.pending.state.step w { a with follow := Token.ofItem w x } (p.position w) =
      .error fault) (rest : List Int) :
    p.walk w sizes n (a.encode ++ x :: rest) =
      .stop p.rules.length (.error (.malformed fault)) := by
  have hclause := Clause.first_of_within (hfit.limits p.pending.state) ha (p.position w) x rest
  have hopen := Token.ofItem_ne_sentinel (a.tag_ne_code w .closing)
  simp only [Assertion.encode, List.cons_append, List.nil_append] at hclause ⊢
  rw [walk, premiseWalkFrom, if_pos hlt, if_neg hopen]
  simp only [hclause, h]

namespace Stops

variable {items : List Int} {outcome : Except WalkFault Unit}

theorem walk_eq (hfit : sizes.Fit w) (h : p.Stops w sizes n items outcome) :
    p.walk w sizes n items = .stop p.rules.length outcome := by
  cases h with
  | accepted hle rest => exact walk_closing hle rest
  | tooFew hlt rest =>
      rw [walk, premiseWalkFrom, if_pos hlt, if_pos (Token.ofItem_eq_sentinel_iff.2 rfl)]
  | tooMany hle hx rest =>
      rw [walk, premiseWalkFrom, if_neg (Nat.not_lt.2 hle), if_neg (Token.ofItem_ne_sentinel hx)]
  | unclosed hle => rw [walk, premiseWalkFrom, Nat.add_zero]
  | @starved hlt _ a hwithin hread =>
      have hclause :
          Clause.first w (p.pending.state.limits sizes) (p.position w) items =
            .error (.truncated (p.position w + items.length)) :=
        Clause.first_of_beginning (hfit.limits p.pending.state) hwithin hread
      cases items with
      | nil => rw [walk, premiseWalkFrom, List.length_nil]
      -- a clause begins with a tag, so the walk does not take its first item for the closing one
      | cons x items =>
          obtain ⟨tail, htail⟩ := hread
          obtain ⟨rfl, -⟩ := List.cons.inj htail
          exact walk_of_clause_error hlt (a.tag_ne_code w .closing) hclause
  | spoilt hlt hspoils rest =>
      cases hspoils with
      | tag hx hrefused =>
          exact walk_of_clause_error hlt hx (Clause.first_of_tag_error hrefused rest)
      | @reference tag x fault hwithin hrefused =>
          have hx : (tag : Int) ≠ Sentinel.closing.code w :=
            Assertion.tag_ne_code ⟨tag, Assertion.simplest.reference⟩ w .closing
          exact walk_of_clause_error hlt hx (Clause.first_of_reference_error hwithin hrefused rest)
      | follower hwithin hrefused => exact walk_of_step_error hfit hlt hwithin hrefused rest

end Stops

/-- Where the walk can make no step, it stops. -/
theorem step_or_stops (hfilled : sizes.Filled) (hfit : sizes.Fit w) (n : Nat) (p : Progress)
    (items : List Int) :
    (∃ c t, p.rules.length < n ∧
        Clause.first w (p.pending.state.limits sizes) (p.position w) items = .ok c ∧
        p.pending.state.step w c (p.position w) = .ok t) ∨
      ∃ outcome, p.Stops w sizes n items outcome := by
  have hsimplest := hfilled.within_limits p.pending.state
  rcases Nat.lt_or_ge p.rules.length n with hlt | hle
  -- a rule is missing: the items are gone through one by one, up to the third
  · cases items with
    | nil => exact Or.inr ⟨_, .starved hlt hsimplest List.nil_prefix⟩
    | cons x items =>
      by_cases hx : x = Sentinel.closing.code w
      · subst hx
        exact Or.inr ⟨_, .tooFew hlt items⟩
      cases htag : (p.pending.state.limits sizes).tag w (p.position w) (Token.ofItem w x) with
      | error fault => exact Or.inr ⟨_, .spoilt hlt (.tag hx htag) items⟩
      | ok tag =>
        obtain ⟨htoken, hin⟩ := Limits.tag_ok htag
        obtain rfl := Token.eq_of_ofItem_eq_item htoken
        cases items with
        | nil =>
            exact Or.inr ⟨_, .starved hlt (a := ⟨tag, Assertion.simplest.reference⟩)
              ⟨hin, hsimplest.2⟩ ⟨_, rfl⟩⟩
        | cons y items =>
          cases href : (p.pending.state.limits sizes).reference w (p.position w + 1)
              (Token.ofItem w y) with
          | error fault => exact Or.inr ⟨_, .spoilt hlt (.reference hin href) items⟩
          | ok r =>
            obtain ⟨htoken', hin'⟩ := Limits.reference_ok href
            obtain rfl := Token.eq_of_ofItem_eq_item htoken'
            have ha : Assertion.Within (p.pending.state.limits sizes) ⟨tag, r⟩ := ⟨hin, hin'⟩
            cases items with
            | nil => exact Or.inr ⟨_, .starved hlt ha (List.prefix_refl _)⟩
            | cons z items =>
              cases hstep : p.pending.state.step w ⟨⟨tag, r⟩, Token.ofItem w z⟩
                  (p.position w) with
              | error fault => exact Or.inr ⟨_, .spoilt hlt (.follower ha hstep) items⟩
              | ok t =>
                  exact Or.inl ⟨_, t, hlt, Clause.first_of_within
                    (hfit.limits p.pending.state) ha (p.position w) z items, hstep⟩
  · cases items with
    | nil => exact Or.inr ⟨_, .unclosed hle⟩
    | cons x items =>
        by_cases hx : x = Sentinel.closing.code w
        · subst hx
          exact Or.inr ⟨_, .accepted hle items⟩
        · exact Or.inr ⟨_, .tooMany hle hx items⟩

/-- Every walk is a run, and a stop of one of these kinds. -/
theorem exists_stops (hfilled : sizes.Filled) (hfit : sizes.Fit w) (n : Nat) (p : Progress)
    (items : List Int) :
    ∃ steps q rest outcome, Reads w sizes n p items steps q rest ∧
      q.Stops w sizes n rest outcome := by
  -- a run is followed for as long as it makes steps, so that its last stage makes none
  obtain ⟨steps, q, rest, outcome, hreads, hstop, -⟩ := exists_reads w sizes n p items
  rcases step_or_stops hfilled hfit n q rest with ⟨c, t, hlt, hc, ht⟩ | ⟨outcome, hstops⟩
  · rw [walk_step hlt hc ht] at hstop
    cases congrArg Walk.steps hstop
  · exact ⟨steps, q, rest, outcome, hreads, hstops⟩

end Progress

/-! ## The same run over other items -/

/-- A run takes the items `pre`, and of those behind it looks at the first at most. -/
theorem Reads.replay (hfit : sizes.Fit w) {p q : Progress} {items rest : List Int}
    {steps : List PremiseStep} (h : Reads w sizes n p items steps q rest) :
    ∃ pre, items = pre ++ rest ∧
      ∀ rest', rest'.head? = rest.head? → Reads w sizes n p (pre ++ rest') steps q rest' := by
  induction h with
  | done p items => exact ⟨[], rfl, fun rest' _ => .done p rest'⟩
  | @step p q items rest c t steps hlt hc ht _ ih =>
      obtain ⟨pre, hpre, hreplay⟩ := ih
      obtain ⟨f, left, rfl, hf, hwithin, -⟩ := Clause.first_ok hc
      have hfirst : ∀ left', Clause.first w (p.pending.state.limits sizes) (p.position w)
          (c.toAssertion.encode ++ f :: left') = .ok c := by
        intro left'
        rw [Clause.first_of_within (hfit.limits p.pending.state) hwithin, ← hf]
      rcases PremiseState.advance_cases ht with hadvance | ⟨hadvance, -⟩
      -- the follower is left: it is the first item of what is replayed
      · rw [hadvance] at hpre
        have hpre : f :: left = pre ++ rest := hpre
        refine ⟨c.toAssertion.encode ++ pre, by rw [List.append_assoc, ← hpre], ?_⟩
        intro rest' hhead
        have hhead' : (pre ++ rest').head? = some f := by
          rw [List.head?_append, hhead, ← List.head?_append, ← hpre]
          rfl
        obtain ⟨left', hleft'⟩ := List.head?_eq_some_iff.1 hhead'
        have htail := hreplay rest' hhead
        rw [List.append_assoc, hleft']
        refine .step hlt (hfirst left') ht ?_
        rw [hadvance]
        rwa [hleft'] at htail
      -- the follower is taken with the clause
      · rw [hadvance] at hpre
        have hpre : left = pre ++ rest := hpre
        refine ⟨c.toAssertion.encode ++ f :: pre, by simp [hpre], ?_⟩
        intro rest' hhead
        rw [List.append_assoc, List.cons_append]
        refine .step hlt (hfirst (pre ++ rest')) ht ?_
        rw [hadvance]
        exact hreplay rest' hhead

/-! ## Whole streams -/

/-- The walk over the stream makes `steps`, reads what `q` holds, and stops there in front of
`rest`. -/
structure Halts (w : Width) (sizes : Sizes) (n : Nat) (stream : List Int)
    (steps : List PremiseStep) (q : Progress) (rest : List Int)
    (outcome : Except WalkFault Unit) : Prop where
  items : q.encode w ++ rest = stream
  within : q.Within sizes
  legal : q.Legal n
  ends : q.rules ≠ [] → EndsRule w (q.pending.encode w ++ rest)
  stops : q.Stops w sizes n rest outcome
  replay : ∀ rest', rest'.head? = rest.head? →
    premiseWalk w sizes n (q.encode w ++ rest') = (q.walk w sizes n rest').prepend steps

theorem exists_halts_cons (hfilled : sizes.Filled) (hfit : sizes.Fit w) (n : Nat)
    (items : List Int) : ∃ steps q rest outcome,
      Halts w sizes n (Sentinel.opening.code w :: items) steps q rest outcome := by
  obtain ⟨steps, q, rest, outcome, hreads, hstops⟩ :=
    Progress.exists_stops hfilled hfit n .start items
  have hstart : Progress.start.encode w = [Sentinel.opening.code w] := rfl
  have hitems : ∀ {items rest : List Int}, Reads w sizes n .start items steps q rest →
      q.encode w ++ rest = Sentinel.opening.code w :: items := by
    intro items rest hreads
    rw [hreads.encode_append, hstart, List.singleton_append]
  refine ⟨steps, q, rest, outcome, hitems hreads, hreads.within Progress.within_start,
    hreads.legal Progress.legal_start, ?_, hstops, ?_⟩
  · exact hreads.endsRule fun hrules => absurd rfl hrules
  · intro rest' hhead
    obtain ⟨pre, -, hreplay⟩ := hreads.replay hfit
    rw [hitems (hreplay rest' hhead), premiseWalk_cons, (hreplay rest' hhead).walk_eq]

namespace Halts

variable {stream rest : List Int} {steps : List PremiseStep} {q : Progress}
  {outcome : Except WalkFault Unit}

/-- The walk stops as `q` does, also on other items behind what was read. -/
theorem walk_of_stops (hfit : sizes.Fit w) (h : Halts w sizes n stream steps q rest outcome)
    {rest' : List Int} {outcome' : Except WalkFault Unit} (hhead : rest'.head? = rest.head?)
    (hstops : q.Stops w sizes n rest' outcome') :
    premiseWalk w sizes n (q.encode w ++ rest') = ⟨steps, q.rules.length, outcome'⟩ := by
  rw [h.replay rest' hhead, hstops.walk_eq hfit]
  simp [Walk.prepend, Walk.stop]

theorem walk_eq (hfit : sizes.Fit w) (h : Halts w sizes n stream steps q rest outcome) :
    premiseWalk w sizes n stream = ⟨steps, q.rules.length, outcome⟩ := by
  rw [← h.items]
  exact h.walk_of_stops hfit rfl h.stops

/-- Where a clause goes wrong the walk stops, whatever comes behind the wrong item. -/
theorem walk_of_spoilt (hfit : sizes.Fit w) {read left : List Int} {x : Int} {fault : StreamFault}
    (h : Halts w sizes n stream steps q (read ++ x :: left) outcome) (hlt : q.rules.length < n)
    (hspoils : q.Spoils w sizes read x fault) (left' : List Int) :
    premiseWalk w sizes n (q.encode w ++ (read ++ x :: left')) =
      ⟨steps, q.rules.length, .error (.malformed fault)⟩ := by
  have hhead : (read ++ x :: left').head? = (read ++ x :: left).head? := by
    rw [List.head?_append, List.head?_append, List.head?_cons, List.head?_cons]
  exact h.walk_of_stops hfit hhead (.spoilt hlt hspoils left')

/-- The last rule was complete because an item other than AND follows it. -/
theorem endsRule (hn : 0 < n) (h : Halts w sizes n stream steps q rest outcome)
    (hcount : q.rules.length = n) : EndsRule w rest := by
  have hrules : q.rules ≠ [] := by
    intro hnil
    rw [hnil] at hcount
    exact absurd hcount (Nat.ne_of_lt hn)
  have hends := h.ends hrules
  rwa [h.legal.2 hcount] at hends

end Halts

/-- The walk over a stream that opens halts somewhere. -/
theorem exists_halts (hfilled : sizes.Filled) (hfit : sizes.Fit w) {stream : List Int}
    {outcome : Except WalkFault Unit} (hwalk : (premiseWalk w sizes n stream).outcome = outcome)
    (hopens : outcome ≠ .error (.malformed .missingOpening)) :
    ∃ steps q rest, Halts w sizes n stream steps q rest outcome := by
  by_cases hitems : ∃ items, stream = Sentinel.opening.code w :: items
  · obtain ⟨items, rfl⟩ := hitems
    obtain ⟨steps, q, rest, outcome', h⟩ := exists_halts_cons hfilled hfit n items
    rw [h.walk_eq hfit] at hwalk
    exact ⟨steps, q, rest, hwalk ▸ h⟩
  · rw [premiseWalk_of_not_opening fun items h => hitems ⟨items, h⟩] at hwalk
    exact absurd hwalk.symm hopens

end FuzzyInference
