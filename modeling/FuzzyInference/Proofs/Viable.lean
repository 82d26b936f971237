import FuzzyInference.Proofs.PremiseRun

/-!
# Beginnings of rule streams

Items are viable if they are the beginning of what is written for `n` rules inside the tables
(`Viable`). Everything that a walk has read is: what is pending can be completed to a rule
(`Pending.complete`), and the rules that are still missing can be added (`Progress.viable_encode`).
So are the items of a further clause, as long as it names entries of the tables
(`Progress.viable_append`).
-/

set_option autoImplicit false

namespace FuzzyInference

variable {w : Width} {sizes : Sizes} {n : Nat}

/-! ## A clause that can always be written -/

/-- The first variable is the first fuzzy set. -/
def Assertion.simplest : Assertion := ⟨0, ⟨0, false⟩⟩

/-- The tables hold something on both sides. -/
structure Sizes.Filled (sizes : Sizes) : Prop where
  input : Assertion.simplest.Within sizes.input
  output : Assertion.simplest.Within sizes.output

theorem Sizes.Filled.within_limits (hfilled : sizes.Filled) (state : PremiseState) :
    Assertion.simplest.Within (state.limits sizes) := by
  cases state with
  | premise joined => exact hfilled.input
  | consequents => exact hfilled.output

/-! ## Completing a rule -/

namespace Pending

/-- The shortest rule that begins with what was read. -/
def complete : Pending → Rule
  | opening => ⟨.simplest, [], .simplest, []⟩
  | premise a js j => ⟨a, js ++ [(j, .simplest)], .simplest, []⟩
  | conclusion a js => ⟨a, js, .simplest, []⟩
  | further a js c cs => ⟨a, js, c, cs ++ [.simplest]⟩

theorem encode_prefix_complete (w : Width) (p : Pending) :
    p.encode w <+: p.complete.encode w := by
  cases p with
  | opening => exact List.nil_prefix
  | premise a js j =>
      refine ⟨Assertion.simplest.encode ++
        Sentinel.implies.code w :: Assertion.simplest.encode, ?_⟩
      simp [encode, complete, premiseItems, Rule.encode, Rule.encodePremise,
        Rule.encodeConsequents]
  | conclusion a js =>
      refine ⟨Assertion.simplest.encode, ?_⟩
      simp [encode, complete, premiseItems, Rule.encode, Rule.encodePremise,
        Rule.encodeConsequents]
  | further a js c cs =>
      refine ⟨Assertion.simplest.encode, ?_⟩
      simp [encode, complete, premiseItems, consequentItems, Rule.encode, Rule.encodePremise,
        Rule.encodeConsequents]

theorem within_complete (hfilled : sizes.Filled) {p : Pending} (h : p.Within sizes) :
    p.complete.Within sizes := by
  cases p with
  | opening =>
      constructor
      · simpa [complete, Rule.antecedents] using hfilled.input
      · simpa [complete, Rule.consequents] using hfilled.output
  | premise a js j =>
      constructor
      · intro b hb
        simp only [complete, Rule.antecedents, List.map_append, List.map_cons, List.map_nil,
          ← List.cons_append, List.mem_append, List.mem_singleton] at hb
        rcases hb with hb | rfl
        · exact h b hb
        · exact hfilled.input
      · simpa [complete, Rule.consequents] using hfilled.output
  | conclusion a js =>
      exact ⟨h, by simpa [complete, Rule.consequents] using hfilled.output⟩
  | further a js c cs =>
      refine ⟨h.1, ?_⟩
      intro b hb
      simp only [complete, Rule.consequents, ← List.cons_append, List.mem_append,
        List.mem_singleton] at hb
      rcases hb with hb | rfl
      · exact h.2 b hb
      · exact hfilled.output

end Pending

/-! ## Beginnings -/

/-- What is written for `n` rules inside the tables. -/
def Written (w : Width) (sizes : Sizes) (n : Nat) (stream : List Int) : Prop :=
  ∃ rules : List Rule, rules.length = n ∧ (∀ r ∈ rules, r.Within sizes) ∧
    stream = Rule.stream w rules

/-- The items go on to what is written for `n` rules inside the tables, if the right ones follow. -/
def Viable (w : Width) (sizes : Sizes) (n : Nat) (items : List Int) : Prop :=
  ∃ good, Written w sizes n good ∧ items <+: good

theorem Viable.of_beginning {items items' : List Int} (h : Viable w sizes n items')
    (hitems : items <+: items') : Viable w sizes n items := by
  obtain ⟨good, hgood, hbegins⟩ := h
  exact ⟨good, hgood, hitems.trans hbegins⟩

namespace Progress

variable {p : Progress}

/-- All that was read is viable. -/
theorem viable_encode (hfilled : sizes.Filled) (hp : p.Within sizes) (hlegal : p.Legal n) :
    Viable w sizes n (p.encode w) := by
  rcases Nat.eq_or_lt_of_le hlegal.1 with heq | hlt
  -- only the closing sentinel is missing
  · refine ⟨_, ⟨p.rules, heq, hp.1, rfl⟩, [Sentinel.closing.code w], ?_⟩
    rw [encode, hlegal.2 heq]
    simp [Pending.encode, Rule.stream]
  -- the rule that is pending is completed, and the shortest rules follow
  · have hshortest : (Pending.complete .opening).Within sizes :=
      Pending.within_complete hfilled (p := .opening) trivial
    obtain ⟨tail, htail⟩ := p.pending.encode_prefix_complete w
    let rules := p.rules ++
      p.pending.complete :: List.replicate (n - p.rules.length - 1) (Pending.complete .opening)
    refine ⟨Rule.stream w rules, ⟨rules, ?_, ?_, rfl⟩, ?_⟩
    · simp only [rules, List.length_append, List.length_cons, List.length_replicate]
      omega
    · intro r hr
      rcases List.mem_append.1 hr with hr | hr
      · exact hp.1 r hr
      rcases List.mem_cons.1 hr with rfl | hr
      · exact Pending.within_complete hfilled hp.2
      · rw [List.eq_of_mem_replicate hr]
        exact hshortest
    · simp only [Rule.stream, encode, rules, List.flatMap_append, List.flatMap_cons, ← htail,
        List.append_assoc, List.cons_append]
      exact List.prefix_cons_inj _ |>.2 ((List.prefix_append_right_inj _).2
        (List.prefix_append _ _))

/-- A clause is always read if THEN follows, which ends a premise and a rule alike. -/
theorem exists_step_implies (p : Progress) (a : Assertion) :
    ∃ t, p.pending.state.step w { a with follow := .sentinel .implies } (p.position w) = .ok t ∧
      2 ≤ t.advance := by
  cases p.pending.state with
  | premise joined => exact ⟨⟨.consequents, .compose joined, 3⟩, rfl, by simp⟩
  | consequents => exact ⟨⟨.start, .closeRule, 2⟩, rfl, Nat.le_refl 2⟩

/-- A clause about entries of the tables can follow all that was read, and so can the items that
it begins with. -/
theorem viable_append (hfilled : sizes.Filled) (hp : p.Within sizes) (hlt : p.rules.length < n)
    {a : Assertion} (ha : a.Within (p.pending.state.limits sizes)) {read : List Int}
    (hread : read <+: a.encode) : Viable w sizes n (p.encode w ++ read) := by
  obtain ⟨t, ht, hadvance⟩ := p.exists_step_implies (w := w) a
  have hviable := viable_encode (w := w) hfilled (within_read hp ha) (legal_read hlt ht)
  rw [encode_read ht] at hviable
  refine hviable.of_beginning ((List.prefix_append_right_inj _).2 (hread.trans ?_))
  exact List.take_prefix_take_left (l := a.encode ++ [_]) hadvance

end Progress

end FuzzyInference
