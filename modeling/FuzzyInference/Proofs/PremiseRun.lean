import FuzzyInference.Proofs.Progress

/-!
# Runs of the premise walk

`Reads` relates two stages of a walk over the same stream: from the progress `p` with `items`
unread, the walk makes `steps` and stands at `q` with `rest` unread. Every walk is such a run
followed by a stop (`Progress.exists_reads`, `Reads.walk_eq`), so what holds of every run holds of
every walk.

A run keeps the stream: what was read and what is unread add up to the same items
(`Reads.encode_append`), all of what was read lies inside the tables (`Reads.within`), and the item
behind the complete rules is never AND (`Reads.endsRule`). In the other direction the items of rules
inside the tables are always read as these rules (`Reaches.rules`).
-/

set_option autoImplicit false

namespace FuzzyInference

variable {w : Width} {sizes : Sizes} {n : Nat}

/-- The walk that makes some steps first. -/
def Walk.prepend {step : Type} (steps : List step) (walk : Walk step) : Walk step :=
  { walk with steps := steps ++ walk.steps }

theorem Walk.prepend_nil {step : Type} (walk : Walk step) : walk.prepend [] = walk := rfl

theorem Walk.prepend_cons {step : Type} (s : step) (steps : List step) (walk : Walk step) :
    walk.prepend (s :: steps) = (walk.prepend steps).after s := rfl

/-- Items that are already taken can as well be dropped. -/
theorem premiseWalkFrom_skip (items : List Int) (skip index completed : Nat)
    (state : PremiseState) :
    premiseWalkFrom w sizes n items skip index completed state =
      premiseWalkFrom w sizes n (items.drop skip) 0 (index + skip) completed state := by
  induction items generalizing skip index with
  | nil => simp [premiseWalkFrom]
  | cons item items ih =>
      cases skip with
      | zero => rfl
      | succ skip =>
          rw [premiseWalkFrom, ih, List.drop_succ_cons]
          congr 1
          omega

namespace Progress

/-- The walk that goes on from here over the unread items. -/
def walk (w : Width) (sizes : Sizes) (n : Nat) (p : Progress) (items : List Int) :
    Walk PremiseStep :=
  premiseWalkFrom w sizes n items 0 (p.position w) p.rules.length p.pending.state

/-- The step of the walk on a clause. -/
def stepOn (w : Width) (p : Progress) (c : Clause) (effect : PremiseEffect) : PremiseStep where
  index := p.position w
  rule := p.rules.length
  state := p.pending.state
  clause := c
  effect := effect

variable {p : Progress} {items : List Int} {c : Clause}
  {t : Transition PremiseState PremiseEffect}

theorem one_le_advance {i : Nat} (h : p.pending.state.step w c i = .ok t) : 1 ≤ t.advance := by
  rcases read_cases h with ⟨s, hj⟩ | ⟨r, hc⟩
  · rw [hj.advance]
    decide
  · rw [hc.transition]
    decide

/-- One step of the walk, from one progress to the next. -/
theorem walk_step (hlt : p.rules.length < n)
    (hc : Clause.first w (p.pending.state.limits sizes) (p.position w) items = .ok c)
    (ht : p.pending.state.step w c (p.position w) = .ok t) :
    p.walk w sizes n items =
      ((p.read c).walk w sizes n (items.drop t.advance)).after (p.stepOn w c t.effect) := by
  obtain ⟨item, rest, rfl, hitem⟩ := Clause.head_ne_sentinel hc .closing
  -- the step takes this item, and `k` more that are skipped one by one
  obtain ⟨k, hk⟩ : ∃ k, t.advance = k + 1 := ⟨t.advance - 1, by have := one_le_advance ht; omega⟩
  have hnext : premiseWalkFrom w sizes n rest k (p.position w + 1)
      (t.effect.count p.rules.length) t.next =
        (p.read c).walk w sizes n ((item :: rest).drop t.advance) := by
    rw [premiseWalkFrom_skip, walk, position_read ht, read_count ht, read_state ht, hk,
      List.drop_succ_cons, Nat.add_assoc, Nat.add_comm 1 k]
  rw [walk, premiseWalkFrom, if_pos hlt, if_neg hitem]
  simp only [hc, ht]
  rw [show t.advance - 1 = k by omega, hnext]
  rfl

/-- A step takes the items that it reads. -/
theorem encode_read_append
    (hc : Clause.first w (p.pending.state.limits sizes) (p.position w) items = .ok c)
    (ht : p.pending.state.step w c (p.position w) = .ok t) :
    (p.read c).encode w ++ items.drop t.advance = p.encode w ++ items := by
  obtain ⟨f, left, rfl, hf, -, -⟩ := Clause.first_ok hc
  have hitems : c.toAssertion.encode ++ f :: left =
      (c.toAssertion.encode ++ [c.follow.code w]) ++ left := by
    rw [hf, Token.code_ofItem, List.append_assoc, List.singleton_append]
  -- no step takes more than the clause and the token behind it
  have hlen : t.advance ≤ (c.toAssertion.encode ++ [c.follow.code w]).length := by
    rcases read_cases ht with ⟨s, hj⟩ | ⟨r, hcl⟩
    · rw [hj.advance]
      exact Nat.le_refl 3
    · rw [hcl.transition]
      exact Nat.le_succ 2
  rw [encode_read ht, hitems, List.drop_append_of_le_length hlen, List.append_assoc,
    ← List.append_assoc (List.take _ _), List.take_append_drop]

/-- Where no step is possible the walk stops. It succeeds only behind the last rule, on the closing
sentinel. -/
theorem step_or_stop (w : Width) (sizes : Sizes) (n : Nat) (p : Progress) (items : List Int) :
    (∃ c t, p.rules.length < n ∧
        Clause.first w (p.pending.state.limits sizes) (p.position w) items = .ok c ∧
        p.pending.state.step w c (p.position w) = .ok t) ∨
      ∃ outcome, p.walk w sizes n items = .stop p.rules.length outcome ∧
        (outcome = .ok () ↔
          n ≤ p.rules.length ∧ ∃ rest, items = Sentinel.closing.code w :: rest) := by
  cases items with
  | nil =>
      refine Or.inr ⟨.error (.malformed (.truncated (p.position w + 0))), ?_, by simp⟩
      rw [walk, premiseWalkFrom]
  | cons item rest =>
      by_cases hlt : p.rules.length < n
      -- a rule is still missing: the walk steps, or stops without success
      · have hnot : ¬ n ≤ p.rules.length := Nat.not_le.2 hlt
        by_cases hitem : Token.ofItem w item = .sentinel .closing
        · refine Or.inr ⟨.error (.ruleCount n p.rules.length), ?_, by simp [hnot]⟩
          rw [walk, premiseWalkFrom, if_pos hlt, if_pos hitem]
        · cases hc : Clause.first w (p.pending.state.limits sizes) (p.position w)
              (item :: rest) with
          | error fault =>
              refine Or.inr ⟨.error (.malformed fault), ?_, by simp [hnot]⟩
              rw [walk, premiseWalkFrom, if_pos hlt, if_neg hitem]
              simp only [hc]
          | ok c =>
              cases ht : p.pending.state.step w c (p.position w) with
              | error fault =>
                  refine Or.inr ⟨.error (.malformed fault), ?_, by simp [hnot]⟩
                  rw [walk, premiseWalkFrom, if_pos hlt, if_neg hitem]
                  simp only [hc, ht]
              | ok t => exact Or.inl ⟨c, t, hlt, rfl, ht⟩
      -- all rules are complete: only the closing sentinel is accepted
      · have hle : n ≤ p.rules.length := Nat.not_lt.1 hlt
        by_cases hitem : Token.ofItem w item = .sentinel .closing
        · have hcode := Token.ofItem_eq_sentinel_iff.1 hitem
          refine Or.inr ⟨.ok (), ?_, by simp [hle, hcode]⟩
          rw [walk, premiseWalkFrom, if_neg hlt, if_pos hitem]
        · have hcode : item ≠ Sentinel.closing.code w := by
            intro h
            exact hitem (Token.ofItem_eq_sentinel_iff.2 h)
          refine Or.inr ⟨.error (.ruleCount n p.rules.length), ?_, by simp [hcode]⟩
          rw [walk, premiseWalkFrom, if_neg hlt, if_neg hitem]

end Progress

/-! ## Runs -/

/-- The walk for `n` rules gets from `p` with `items` unread to `q` with `rest` unread, and makes
`steps` on the way. -/
inductive Reads (w : Width) (sizes : Sizes) (n : Nat) :
    Progress → List Int → List PremiseStep → Progress → List Int → Prop where
  | done (p : Progress) (items : List Int) : Reads w sizes n p items [] p items
  | step {p q : Progress} {items rest : List Int} {c : Clause}
      {t : Transition PremiseState PremiseEffect} {steps : List PremiseStep}
      (open_ : p.rules.length < n)
      (clause : Clause.first w (p.pending.state.limits sizes) (p.position w) items = .ok c)
      (transition : p.pending.state.step w c (p.position w) = .ok t)
      (tail : Reads w sizes n (p.read c) (items.drop t.advance) steps q rest) :
      Reads w sizes n p items (p.stepOn w c t.effect :: steps) q rest

namespace Reads

variable {p q : Progress} {items rest : List Int} {steps : List PremiseStep}

/-- A run is the beginning of the walk. -/
theorem walk_eq (h : Reads w sizes n p items steps q rest) :
    p.walk w sizes n items = (q.walk w sizes n rest).prepend steps := by
  induction h with
  | done p items => rw [Walk.prepend_nil]
  | step hlt hc ht _ ih => rw [Progress.walk_step hlt hc ht, ih, Walk.prepend_cons]

theorem trans {r : Progress} {more : List PremiseStep} {left : List Int}
    (h : Reads w sizes n p items steps q rest) (h' : Reads w sizes n q rest more r left) :
    Reads w sizes n p items (steps ++ more) r left := by
  induction h with
  | done p items => exact h'
  | step hlt hc ht _ ih => exact .step hlt hc ht (ih h')

/-- What was read and what is unread are always the same stream. -/
theorem encode_append (h : Reads w sizes n p items steps q rest) :
    q.encode w ++ rest = p.encode w ++ items := by
  induction h with
  | done p items => rfl
  | step hlt hc ht _ ih => rw [ih, Progress.encode_read_append hc ht]

theorem within (h : Reads w sizes n p items steps q rest) (hp : p.Within sizes) :
    q.Within sizes := by
  induction h with
  | done p items => exact hp
  | step hlt hc ht _ ih =>
      obtain ⟨f, left, -, -, hin, -⟩ := Clause.first_ok hc
      exact ih (Progress.within_read hp hin)

theorem legal (h : Reads w sizes n p items steps q rest) (hp : p.Legal n) : q.Legal n := by
  induction h with
  | done p items => exact hp
  | step hlt hc ht _ ih => exact ih (Progress.legal_read hlt ht)

theorem rules_prefix (h : Reads w sizes n p items steps q rest) : p.rules <+: q.rules := by
  induction h with
  | done p items => exact List.prefix_refl _
  | @step p q items rest c t steps hlt hc ht _ ih =>
      rcases Progress.read_cases ht with ⟨s, hj⟩ | ⟨r, hcl⟩
      · rwa [hj.rules] at ih
      · rw [hcl.read] at ih
        exact (List.prefix_append p.rules [r]).trans ih

/-- The clauses of the steps are what was read. -/
theorem foldl_read (h : Reads w sizes n p items steps q rest) :
    steps.foldl (fun p s => p.read s.clause) p = q := by
  induction h with
  | done p items => rfl
  | step hlt hc ht _ ih => exact ih

end Reads

/-- Every walk is a run followed by a stop. -/
theorem Progress.exists_reads (w : Width) (sizes : Sizes) (n : Nat) (p : Progress)
    (items : List Int) :
    ∃ steps q rest outcome, Reads w sizes n p items steps q rest ∧
      q.walk w sizes n rest = .stop q.rules.length outcome ∧
      (outcome = .ok () ↔
        n ≤ q.rules.length ∧ ∃ left, rest = Sentinel.closing.code w :: left) := by
  rcases step_or_stop w sizes n p items with
    ⟨c, t, hlt, hc, ht⟩ | ⟨outcome, hstop, hok⟩
  -- a step takes at least one item, so the walk goes on over fewer items
  · have hshorter : (items.drop t.advance).length < items.length := by
      obtain ⟨item, left, rfl, -⟩ := Clause.head_ne_sentinel hc .closing
      have hadvance := one_le_advance ht
      rw [List.length_drop, List.length_cons]
      omega
    obtain ⟨steps, q, rest, outcome, hreads, hstop⟩ :=
      exists_reads w sizes n (p.read c) (items.drop t.advance)
    exact ⟨_, q, rest, outcome, .step hlt hc ht hreads, hstop⟩
  · exact ⟨[], p, items, outcome, .done p items, hstop, hok⟩
termination_by items.length
decreasing_by exact hshorter

/-! ## The item behind a rule -/

/-- The items go on with something other than AND, so no further consequent follows. -/
def EndsRule (w : Width) (items : List Int) : Prop :=
  ∃ x rest, items = x :: rest ∧ x ≠ Sentinel.and.code w

theorem endsRule_encode (r : Rule) (rest : List Int) : EndsRule w (r.encode w ++ rest) :=
  ⟨r.antecedent.tag, _, rfl, r.antecedent.tag_ne_code w .and⟩

theorem endsRule_flatMap_encode (rules : List Rule) {rest : List Int} (h : EndsRule w rest) :
    EndsRule w (rules.flatMap (Rule.encode w) ++ rest) := by
  cases rules with
  | nil => exact h
  | cons r rules =>
      rw [List.flatMap_cons, List.append_assoc]
      exact endsRule_encode r _

/-- Behind the rules that a run has completed stands something other than AND. -/
theorem Reads.endsRule {p q : Progress} {items rest : List Int} {steps : List PremiseStep}
    (h : Reads w sizes n p items steps q rest)
    (hp : p.rules ≠ [] → EndsRule w (p.pending.encode w ++ items)) :
    q.rules ≠ [] → EndsRule w (q.pending.encode w ++ rest) := by
  induction h with
  | done p items => exact hp
  | @step p q items rest c t steps hlt hc ht _ ih =>
      apply ih
      intro hrules
      rcases Progress.read_cases ht with ⟨s, hj⟩ | ⟨r, hcl⟩
      -- no rule is completed, and what follows the complete ones is the same as before
      · have hsame := Progress.encode_read_append hc ht
        rw [Progress.encode, Progress.encode, hj.rules, List.append_assoc,
          List.append_assoc] at hsame
        rw [List.append_cancel_left hsame]
        rw [hj.rules] at hrules
        exact hp hrules
      -- the rule was completed because its follower `f` is not AND, and `f` is unread
      · obtain ⟨f, left, rfl, hf, -, -⟩ := Clause.first_ok hc
        refine ⟨f, left, ?_, ?_⟩
        · rw [hcl.read, hcl.transition]
          rfl
        · intro hand
          exact hcl.follow (hf.trans (Token.ofItem_eq_sentinel_iff.2 hand))

/-! ## Reading what was written -/

/-- Some run leads from one stage to the other. -/
def Reaches (w : Width) (sizes : Sizes) (n : Nat) (p : Progress) (items : List Int) (q : Progress)
    (rest : List Int) : Prop :=
  ∃ steps, Reads w sizes n p items steps q rest

namespace Reaches

variable {p q : Progress} {items rest : List Int}

theorem refl (p : Progress) (items : List Int) : Reaches w sizes n p items p items :=
  ⟨[], .done p items⟩

theorem trans {r : Progress} {left : List Int} (h : Reaches w sizes n p items q rest)
    (h' : Reaches w sizes n q rest r left) : Reaches w sizes n p items r left := by
  obtain ⟨steps, hs⟩ := h
  obtain ⟨more, hm⟩ := h'
  exact ⟨steps ++ more, hs.trans hm⟩

/-- Reading one assertion that lies inside the tables. -/
theorem clause {limits : Limits} (hlimits : p.pending.state.limits sizes = limits)
    (hfit : limits.memberships ≤ w.maxReference) (hlt : p.rules.length < n) {a : Assertion}
    (ha : a.Within limits) {f : Int} {t : Transition PremiseState PremiseEffect}
    (ht : p.pending.state.step w { a with follow := Token.ofItem w f } (p.position w) = .ok t)
    (h : Reaches w sizes n (p.read { a with follow := Token.ofItem w f })
      ((a.encode ++ f :: items).drop t.advance) q rest) :
    Reaches w sizes n p (a.encode ++ f :: items) q rest := by
  obtain ⟨steps, hs⟩ := h
  subst hlimits
  exact ⟨_, .step hlt (Clause.first_of_within hfit ha _ f items) ht hs⟩

section Written

variable (hfit : sizes.Fit w)

include hfit

/-- A premise from `b` on, and THEN. Where reading `b` leads is a hypothesis, so `b` can be the
first antecedent or a later one. -/
theorem premise (p : Progress) (hlt : p.rules.length < n) {joined : Option Connective}
    (hstate : p.pending.state = .premise joined) (a b : Assertion)
    (js js' : List (Connective × Assertion))
    (hread : ∀ follow, p.read { b with follow } = ⟨p.rules, .after a js follow⟩)
    (hin : ∀ x ∈ b :: js'.map Prod.snd, x.Within sizes.input) (rest : List Int) :
    Reaches w sizes n p (premiseItems w b js' ++ Sentinel.implies.code w :: rest)
      ⟨p.rules, .conclusion a (js ++ js')⟩ rest := by
  -- by induction on what stands behind `b`; the antecedents that are read gather in `js`
  induction js' generalizing p joined b js with
  | nil =>
      rw [premiseItems, List.flatMap_nil, List.append_nil, List.append_nil]
      refine clause (congrArg _ hstate) hfit.inputMemberships hlt (hin b List.mem_cons_self)
        (t := ⟨.consequents, .compose joined, 3⟩) ?_ ?_
      · simp [hstate, PremiseState.step]
      · simp only [hread, Token.ofItem_code]
        exact refl _ rest
  | cons k js' ih =>
      rcases k with ⟨k, d⟩
      rw [premiseItems, List.flatMap_cons, List.append_assoc, List.cons_append, List.cons_append]
      refine clause (congrArg _ hstate) hfit.inputMemberships hlt (hin b List.mem_cons_self)
        (t := ⟨.premise (some k), .compose joined, 3⟩) ?_ ?_
      · cases k <;> simp [hstate, PremiseState.step, Connective.sentinel]
      · simp only [hread, Token.ofItem_code, Pending.after_connective]
        have hrest := ih ⟨p.rules, .premise a js k⟩ hlt rfl d (js ++ [(k, d)])
          (fun follow => rfl) (fun x hx => hin x (List.mem_cons_of_mem b hx))
        rwa [List.append_assoc, List.singleton_append] at hrest

/-- The consequents of a rule from `b` on. -/
theorem consequents (p : Progress) (hlt : p.rules.length < n)
    (hstate : p.pending.state = .consequents) (a : Assertion)
    (js : List (Connective × Assertion)) (c b : Assertion) (cs ds : List Assertion)
    (hread : ∀ follow, p.read { b with follow } =
      if follow = .sentinel .and then ⟨p.rules, .further a js c cs⟩
      else ⟨p.rules ++ [⟨a, js, c, cs⟩], .opening⟩)
    (hin : ∀ x ∈ b :: ds, x.Within sizes.output) {rest : List Int} (hend : EndsRule w rest) :
    Reaches w sizes n p (consequentItems w b ds ++ rest)
      ⟨p.rules ++ [⟨a, js, c, cs ++ ds⟩], .opening⟩ rest := by
  induction ds generalizing p b cs with
  | nil =>
      obtain ⟨x, left, rfl, hx⟩ := hend
      have hne : Token.ofItem w x ≠ .sentinel .and := Token.ofItem_ne_sentinel hx
      rw [consequentItems, List.flatMap_nil, List.append_nil, List.append_nil]
      refine clause (congrArg _ hstate) hfit.outputMemberships hlt (hin b List.mem_cons_self)
        (t := ⟨.start, .closeRule, 2⟩) ?_ ?_
      · simp [hstate, PremiseState.step, hne]
      · simp only [hread, if_neg hne]
        exact refl _ (x :: left)
  | cons d ds ih =>
      rw [consequentItems, List.flatMap_cons, List.append_assoc, List.cons_append,
        List.cons_append]
      refine clause (congrArg _ hstate) hfit.outputMemberships hlt (hin b List.mem_cons_self)
        (t := ⟨.consequents, .proceed, 3⟩) ?_ ?_
      · simp [hstate, PremiseState.step]
      · simp only [hread, Token.ofItem_code, if_true]
        have hrest := ih ⟨p.rules, .further a js c cs⟩ hlt rfl d (cs ++ [d])
          (fun follow => rfl) (fun x hx => hin x (List.mem_cons_of_mem b hx))
        rwa [List.append_assoc, List.singleton_append] at hrest

/-- A whole rule. -/
theorem rule {rules : List Rule} (hlt : rules.length < n) {r : Rule} (hr : r.Within sizes)
    {rest : List Int} (hend : EndsRule w rest) :
    Reaches w sizes n ⟨rules, .opening⟩ (r.encode w ++ rest) ⟨rules ++ [r], .opening⟩ rest := by
  have hitems : r.encode w ++ rest = premiseItems w r.antecedent r.joined ++
      Sentinel.implies.code w :: (consequentItems w r.consequent r.further ++ rest) := by
    simp only [Rule.encode, Rule.encodePremise, Rule.encodeConsequents, premiseItems,
      consequentItems, List.append_assoc, List.cons_append]
  rw [hitems]
  exact (premise hfit ⟨rules, .opening⟩ hlt rfl r.antecedent r.antecedent [] r.joined
    (fun follow => rfl) hr.1 _).trans
      (consequents hfit ⟨rules, .conclusion r.antecedent r.joined⟩ hlt rfl r.antecedent r.joined
        r.consequent r.consequent [] r.further (fun follow => rfl) hr.2 hend)

end Written

/-- Rules inside the tables are read as these rules, whatever follows but AND. -/
theorem rules (hfit : sizes.Fit w) (done : List Rule) {rs : List Rule}
    (hle : (done ++ rs).length ≤ n) (hrs : ∀ r ∈ rs, r.Within sizes) {rest : List Int}
    (hend : EndsRule w rest) :
    Reaches w sizes n ⟨done, .opening⟩ (rs.flatMap (Rule.encode w) ++ rest)
      ⟨done ++ rs, .opening⟩ rest := by
  induction rs generalizing done with
  | nil =>
      rw [List.append_nil]
      exact refl _ rest
  | cons r rs ih =>
      have hlt : done.length < n := by
        rw [List.length_append, List.length_cons] at hle
        omega
      have hsplit : done ++ r :: rs = (done ++ [r]) ++ rs := by simp
      rw [List.flatMap_cons, List.append_assoc, hsplit]
      -- behind `r` stands the next rule or `rest`, and neither begins with AND
      refine (rule hfit hlt (hrs r List.mem_cons_self) (endsRule_flatMap_encode rs hend)).trans
        (ih (done ++ [r]) ?_ fun r' hr' => hrs r' (List.mem_cons_of_mem r hr'))
      rwa [← hsplit]

end Reaches

/-! ## Whole streams -/

theorem checkOpening_cons (items : List Int) :
    checkOpening w (Sentinel.opening.code w :: items) = .ok () := by
  simp [checkOpening, Token.read, Token.first]

theorem checkOpening_ok {stream : List Int} (h : checkOpening w stream = .ok ()) :
    ∃ items, stream = Sentinel.opening.code w :: items := by
  cases stream with
  | nil => simp [checkOpening, Token.read, Token.first] at h
  | cons item items =>
      by_cases hitem : Token.ofItem w item = .sentinel .opening
      · exact ⟨items, by rw [Token.ofItem_eq_sentinel_iff.1 hitem]⟩
      · simp [checkOpening, Token.read, Token.first, hitem] at h

theorem premiseWalk_cons (items : List Int) :
    premiseWalk w sizes n (Sentinel.opening.code w :: items) =
      Progress.start.walk w sizes n items := by
  rw [premiseWalk, checkOpening_cons]
  rfl

/-- A stream that does not open stops the walk at once. -/
theorem premiseWalk_of_not_opening {stream : List Int}
    (h : ∀ items, stream ≠ Sentinel.opening.code w :: items) :
    premiseWalk w sizes n stream = .stop 0 (.error (.malformed .missingOpening)) := by
  rw [premiseWalk]
  cases hc : checkOpening w stream with
  | ok u =>
      obtain ⟨items, hitems⟩ := checkOpening_ok hc
      exact absurd hitems (h items)
  | error fault =>
      rw [checkOpening] at hc
      split at hc
      · cases hc
      · rw [Except.error.inj hc]

theorem Progress.legal_start : start.Legal n :=
  ⟨Nat.zero_le n, fun _ => rfl⟩

theorem Progress.within_start : start.Within sizes := by
  refine ⟨?_, trivial⟩
  intro r hr
  simp [start] at hr

/-- What the walk over an opened stream is: a run, and what the walk says where it stops. -/
theorem premiseWalk_reads (w : Width) (sizes : Sizes) (n : Nat) (items : List Int) :
    ∃ q rest, Reads w sizes n .start items
        (premiseWalk w sizes n (Sentinel.opening.code w :: items)).steps q rest ∧
      (premiseWalk w sizes n (Sentinel.opening.code w :: items)).completed = q.rules.length ∧
      ((premiseWalk w sizes n (Sentinel.opening.code w :: items)).outcome = .ok () ↔
        q.rules.length = n ∧ ∃ left, rest = Sentinel.closing.code w :: left) := by
  obtain ⟨steps, q, rest, outcome, hreads, hstop, hok⟩ :=
    Progress.exists_reads w sizes n .start items
  have hwalk : premiseWalk w sizes n (Sentinel.opening.code w :: items) =
      ⟨steps, q.rules.length, outcome⟩ := by
    rw [premiseWalk_cons, hreads.walk_eq, hstop]
    simp [Walk.prepend, Walk.stop]
  have hlegal := hreads.legal Progress.legal_start
  rw [hwalk]
  refine ⟨q, rest, hreads, rfl, hok.trans ?_⟩
  constructor
  · rintro ⟨hle, hleft⟩
    exact ⟨Nat.le_antisymm hlegal.1 hle, hleft⟩
  · rintro ⟨heq, hleft⟩
    exact ⟨Nat.le_of_eq heq.symm, hleft⟩

/-- The walk over an accepted stream. -/
theorem premiseWalk_ok {stream : List Int} (h : (premiseWalk w sizes n stream).outcome = .ok ()) :
    ∃ items q left, stream = Sentinel.opening.code w :: items ∧
      Reads w sizes n .start items (premiseWalk w sizes n stream).steps q
        (Sentinel.closing.code w :: left) ∧
      q.rules.length = n ∧ (premiseWalk w sizes n stream).completed = n := by
  by_cases hopen : ∃ items, stream = Sentinel.opening.code w :: items
  · obtain ⟨items, rfl⟩ := hopen
    obtain ⟨q, rest, hreads, hcompleted, hok⟩ := premiseWalk_reads w sizes n items
    obtain ⟨hn, left, rfl⟩ := hok.1 h
    exact ⟨items, q, left, rfl, hreads, hn, hcompleted.trans hn⟩
  · have hnot : ∀ items, stream ≠ Sentinel.opening.code w :: items := by
      intro items hitems
      exact hopen ⟨items, hitems⟩
    rw [premiseWalk_of_not_opening hnot] at h
    cases h

end FuzzyInference
