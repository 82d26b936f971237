import FuzzyInference.Proofs.History
import FuzzyInference.Proofs.PremiseRun
import Mathlib.Order.Bounds.Defs

/-!
# The strengths of rules

`Rule.strength` is what a rule means: a fold over its antecedents from left to right, without
precedence, over the kept degrees. This file shows that inference computes it, whether it succeeds
or fails.

The invariant is `Progress.composition`. It says what the evaluation of a walk holds when the walk
has come as far as a `Progress`: the strengths of the complete rules in the first slots, the other
slots untouched, and the strength of the premise that is pending. `Progress.compose_stepOn` shows
that one step preserves it, and `Reads.foldl_compose` that a run does.

`Opens` names the rules that a stream begins with, whatever follows. The rules that inference
completes are the longest such list (`Opens.rules_prefix`).
-/

set_option autoImplicit false

namespace FuzzyInference

/-! ## What a rule means -/

section Meaning

variable {α : Type} [Scalar α]

/-- The operator that the configuration binds to a connective. -/
def Connective.operator (config : Config) : Connective → Operator
  | .and => config.andOperator
  | .or => config.orOperator

/-- The strength of a premise, given the degrees of references. -/
def premiseStrength (config : Config) (degree : Reference → α) (antecedent : Assertion)
    (joined : List (Connective × Assertion)) : α :=
  joined.foldl (fun s j => (j.1.operator config).apply s (degree j.2.reference))
    (Operator.sum.apply 0 (degree antecedent.reference))

/-- The strength of a rule, before it is weighted. -/
def Rule.strength (config : Config) (degree : Reference → α) (r : Rule) : α :=
  premiseStrength config degree r.antecedent r.joined

theorem premiseStrength_concat (config : Config) (degree : Reference → α) (a b : Assertion)
    (js : List (Connective × Assertion)) (j : Connective) :
    premiseStrength config degree a (js ++ [(j, b)]) =
      (j.operator config).apply (premiseStrength config degree a js) (degree b.reference) := by
  simp [premiseStrength]

/-- The tags of the antecedents do not matter for the strength. -/
theorem Rule.strength_eq_of_references (config : Config) (degree : Reference → α) {r r' : Rule}
    (hfirst : r'.antecedent.reference = r.antecedent.reference)
    (hjoined : r'.joined.map (fun j => (j.1, j.2.reference)) =
      r.joined.map fun j => (j.1, j.2.reference)) :
    r'.strength config degree = r.strength config degree := by
  have hfold : ∀ (js : List (Connective × Assertion)) (s : α),
      js.foldl (fun s j => (j.1.operator config).apply s (degree j.2.reference)) s =
        (js.map fun j => (j.1, j.2.reference)).foldl
          (fun s j => (j.1.operator config).apply s (degree j.2)) s := by
    intro js s
    rw [List.foldl_map]
  rw [strength, strength, premiseStrength, premiseStrength, hfold, hfold, hfirst, hjoined]

/-- The strength that has been composed for what is pending. -/
def Pending.strength (config : Config) (degree : Reference → α) : Pending → α
  | opening => 0
  | premise a js _ => premiseStrength config degree a js
  | conclusion a js => premiseStrength config degree a js
  | further a js _ _ => premiseStrength config degree a js

theorem Pending.strength_after (config : Config) (degree : Reference → α) (a : Assertion)
    (js : List (Connective × Assertion)) (t : Token) :
    (Pending.after a js t).strength config degree = premiseStrength config degree a js := by
  unfold Pending.after
  split <;> rfl

end Meaning

/-! ## What a run computes -/

section Run

variable {α : Type} [Scalar α] {w : Width} {sizes : Sizes} {n : Nat}

/-- The slots when the strengths of `rules` have been stored in the first of them. -/
def Engine.stored (e : Engine α) (slots : List α) (rules : List Rule) : List α :=
  rules.mapIdx (fun i r => r.strength e.config e.antecedentDegree * e.weight i) ++
    slots.drop rules.length

/-- What the evaluation of a walk holds when the walk has come this far. -/
def Progress.composition (e : Engine α) (slots : List α) (p : Progress) :
    Engine.Composition α where
  strength := p.pending.strength e.config e.antecedentDegree
  strengths := e.stored slots p.rules

omit [Scalar α] in
theorem Engine.joining_some (e : Engine α) (j : Connective) :
    e.joining (some j) = j.operator e.config := by
  cases j <;> rfl

/-- Storing the strength of the next rule. -/
theorem Engine.stored_concat (e : Engine α) {slots : List α} {rules : List Rule}
    (hlt : rules.length < slots.length) (r : Rule) :
    (e.stored slots rules).set rules.length
        (r.strength e.config e.antecedentDegree * e.weight rules.length) =
      e.stored slots (rules ++ [r]) := by
  rw [stored, stored, List.mapIdx_append, List.set_append_right _ _ (by simp),
    List.length_mapIdx, Nat.sub_self, List.drop_eq_getElem_cons hlt, List.set_cons_zero]
  simp

theorem Engine.getElem?_stored_of_getElem? (e : Engine α) (slots : List α) {rules : List Rule}
    {i : Nat} {r : Rule} (h : rules[i]? = some r) :
    (e.stored slots rules)[i]? =
      some (r.strength e.config e.antecedentDegree * e.weight i) := by
  have hlt : i < rules.length := (List.getElem?_eq_some_iff.1 h).1
  rw [stored, List.getElem?_append_left (by simpa using hlt), List.getElem?_mapIdx, h]
  rfl

theorem Engine.getElem?_stored_of_le (e : Engine α) (slots : List α) {rules : List Rule}
    {i : Nat} (h : rules.length ≤ i) : (e.stored slots rules)[i]? = slots[i]? := by
  rw [stored, List.getElem?_append_right (by simpa using h), List.length_mapIdx,
    List.getElem?_drop, Nat.add_sub_cancel' h]

/-- One step of the walk keeps the invariant. -/
theorem Progress.compose_stepOn (e : Engine α) {slots : List α} {p : Progress} {c : Clause}
    {i : Nat} {t : Transition PremiseState PremiseEffect} (hlt : p.rules.length < slots.length)
    (ht : p.pending.state.step w c i = .ok t) :
    e.compose (p.composition e slots) (p.stepOn w c t.effect) =
      (p.read c).composition e slots := by
  rcases p with ⟨rules, pending⟩
  cases pending with
  -- the seed: the bounded sum with 0, whatever the strength of the rule before was
  | opening =>
      have heffect : t.effect = .compose none := by
        rcases PremiseState.step_premise ht with ⟨j, -, rfl⟩ | ⟨-, rfl⟩ <;> rfl
      simp only [composition, read, stepOn, heffect, Engine.compose, Pending.strength_after]
      rfl
  -- the operator is that of the connective in front of the clause
  | premise a js j =>
      have heffect : t.effect = .compose (some j) := by
        rcases PremiseState.step_premise ht with ⟨k, -, rfl⟩ | ⟨-, rfl⟩ <;> rfl
      simp only [composition, read, stepOn, heffect, Engine.compose, Pending.strength_after,
        premiseStrength_concat, Engine.joining_some]
      rfl
  -- consequents leave the strength alone until the last of them stores it
  | conclusion a js =>
      rw [Pending.state, PremiseState.step_consequents] at ht
      have htransition := (Except.ok.inj ht).symm
      by_cases hf : c.follow = .sentinel .and
      · simp [composition, read, stepOn, hf, htransition, Engine.compose, Pending.strength]
      · simp only [composition, read, stepOn, if_neg hf, htransition, Engine.compose,
          Pending.strength, ← Engine.stored_concat e hlt]
        rfl
  | further a js b bs =>
      rw [Pending.state, PremiseState.step_consequents] at ht
      have htransition := (Except.ok.inj ht).symm
      by_cases hf : c.follow = .sentinel .and
      · simp [composition, read, stepOn, hf, htransition, Engine.compose, Pending.strength]
      · simp only [composition, read, stepOn, if_neg hf, htransition, Engine.compose,
          Pending.strength, ← Engine.stored_concat e hlt]
        rfl

/-- A run keeps the invariant, if there is a slot for every rule. -/
theorem Reads.foldl_compose (e : Engine α) {slots : List α} (hslots : n ≤ slots.length)
    {p q : Progress} {items rest : List Int} {steps : List PremiseStep}
    (h : Reads w sizes n p items steps q rest) :
    steps.foldl e.compose (p.composition e slots) = q.composition e slots := by
  induction h with
  | done p items => rfl
  | step hlt hc ht _ ih =>
      rw [List.foldl_cons, Progress.compose_stepOn e (Nat.lt_of_lt_of_le hlt hslots) ht, ih]

end Run

/-! ## The rules that a stream begins with -/

section Beginning

variable {w : Width} {sizes : Sizes} {n : Nat}

/-- The stream opens with the rules, which lie inside the tables, and goes on with something other
than AND. Every stream opens with no rules. -/
structure Opens (w : Width) (sizes : Sizes) (stream : List Int) (rules : List Rule) : Prop where
  within : ∀ r ∈ rules, r.Within sizes
  items : rules ≠ [] → ∃ rest,
    stream = Sentinel.opening.code w :: (rules.flatMap (Rule.encode w) ++ rest) ∧ EndsRule w rest

theorem Opens.nil (w : Width) (sizes : Sizes) (stream : List Int) : Opens w sizes stream [] :=
  ⟨fun _ hr => absurd hr List.not_mem_nil, fun h => absurd rfl h⟩

/-- A stream that was written for rules inside the tables opens with them. -/
theorem opens_stream {rules : List Rule} (h : ∀ r ∈ rules, r.Within sizes) :
    Opens w sizes (Rule.stream w rules) rules := by
  refine ⟨h, fun _ => ⟨[Sentinel.closing.code w], rfl, Sentinel.closing.code w, [], rfl, ?_⟩⟩
  intro hcode
  cases Sentinel.code_injective hcode

/-- A stream opens with the rules that a run over it has completed. -/
theorem Reads.opens {items rest : List Int} {steps : List PremiseStep} {q : Progress}
    (h : Reads w sizes n .start items steps q rest) :
    Opens w sizes (Sentinel.opening.code w :: items) q.rules := by
  refine ⟨(h.within Progress.within_start).1, ?_⟩
  intro hne
  have hitems : q.encode w ++ rest = Sentinel.opening.code w :: items := h.encode_append
  refine ⟨q.pending.encode w ++ rest, ?_, h.endsRule (fun hnil => absurd rfl hnil) hne⟩
  rw [← hitems, Progress.encode, List.append_assoc, List.cons_append]

/-- The rules that a walk completes are the longest that the stream opens with. -/
theorem Opens.rules_prefix (hfit : sizes.Fit w) {items rest : List Int} {rules : List Rule}
    (h : Opens w sizes (Sentinel.opening.code w :: items) rules) (hle : rules.length ≤ n)
    {q : Progress} (hreads : Reads w sizes n .start items
      (premiseWalk w sizes n (Sentinel.opening.code w :: items)).steps q rest) :
    rules <+: q.rules := by
  by_cases hne : rules = []
  · rw [hne]
    exact List.nil_prefix
  · obtain ⟨left, hitems, hend⟩ := h.items hne
    obtain ⟨-, rfl⟩ := List.cons.inj hitems
    -- the walk reads these rules and then goes on, so its steps lead to both ends
    obtain ⟨steps, hrules⟩ := Reaches.rules hfit [] hle h.within hend
    obtain ⟨more, q', rest', outcome, hmore, hstop, -⟩ :=
      Progress.exists_reads w sizes n ⟨[] ++ rules, .opening⟩ left
    have hwhole := hrules.trans hmore
    have hsteps : (premiseWalk w sizes n (Sentinel.opening.code w ::
        (rules.flatMap (Rule.encode w) ++ left))).steps = steps ++ more := by
      have hwalk := hwhole.walk_eq
      rw [hstop] at hwalk
      rw [premiseWalk_cons]
      refine (congrArg Walk.steps hwalk).trans ?_
      simp [Walk.prepend, Walk.stop]
    have hend' := hreads.foldl_read
    rw [hsteps] at hend'
    have hsame : q = q' := hend'.symm.trans hwhole.foldl_read
    rw [hsame]
    exact hmore.rules_prefix

end Beginning

namespace Engine

variable {α : Type} [Scalar α] {w : Width} {sizes : Sizes} {n : Nat} {stream : List Int}

/-- What inference leaves behind, in terms of the rules that the stream opens with. -/
theorem Serves.inference_opens {e : Engine α} (h : e.Serves w sizes n stream) :
    ∃ rules, Opens w sizes stream rules ∧ rules.length ≤ n ∧
      e.inference.1.completed = rules.length ∧
      e.inference.1.strengths = e.stored e.strengths rules ∧
      ∀ rules', Opens w sizes stream rules' → rules'.length ≤ n → rules' <+: rules := by
  rw [inference_completed, inference_strengths, h.premises_eq]
  by_cases hopen : ∃ items, stream = Sentinel.opening.code w :: items
  · obtain ⟨items, rfl⟩ := hopen
    obtain ⟨q, rest, hreads, hcompleted, -⟩ := premiseWalk_reads w sizes n items
    have hfold := hreads.foldl_compose e h.slots
    refine ⟨q.rules, hreads.opens, (hreads.legal Progress.legal_start).1, hcompleted, ?_, ?_⟩
    · exact congrArg Composition.strengths hfold
    · intro rules' hrules' hle
      exact hrules'.rules_prefix h.fit hle hreads
  · have hnot : ∀ items, stream ≠ Sentinel.opening.code w :: items :=
      fun items hitems => hopen ⟨items, hitems⟩
    -- the walk has not begun, so no rule is complete and no slot was written
    rw [premiseWalk_of_not_opening hnot]
    refine ⟨[], .nil w sizes stream, Nat.zero_le n, rfl, rfl, ?_⟩
    intro rules' hrules' _
    by_cases hne : rules' = []
    · subst hne
      exact List.nil_prefix
    · obtain ⟨rest, hitems, -⟩ := hrules'.items hne
      exact absurd hitems (hnot _)

/-- The weight of a rule is its own external weight where weights are set. -/
theorem Serves.weight_spec {e : Engine α} (h : e.Serves w sizes n stream) {i : Nat}
    (hi : i < n) :
    (e.weights = none → e.weight i = 1) ∧
      ∀ ws, e.weights = some ws → ∃ x, ws[i]? = some x ∧ e.weight i = Scalar.clamp 0 1 x := by
  constructor
  · intro hnone
    simp [weight, hnone]
  · intro ws hws
    have hlt : i < ws.length := by
      have hle := h.bound.weights ws hws
      rw [h.ruleCount] at hle
      omega
    refine ⟨ws[i], List.getElem?_eq_getElem hlt, ?_⟩
    simp [weight, hws, List.getElem?_eq_getElem hlt, Scalar.unit]

/-- The degree of an antecedent inside the tables is that of the function it names. -/
theorem Serves.antecedentDegree_spec {e : Engine α} (h : e.Serves w sizes n stream)
    {a : Assertion} (ha : a.Within sizes.input) :
    ∃ m, e.inputMemberships[a.reference.index]? = some m ∧
      e.antecedentDegree a.reference =
        if a.reference.negated then 1 - Scalar.clamp 0 1 m.degree
        else Scalar.clamp 0 1 m.degree := by
  have hlt : a.reference.index < e.inputMemberships.length := by
    have hindex : a.reference.index < sizes.inputMemberships := ha.2
    rwa [← h.sizes] at hindex
  refine ⟨e.inputMemberships[a.reference.index], List.getElem?_eq_getElem hlt, ?_⟩
  simp [antecedentDegree, List.getElem?_eq_getElem hlt, Reference.polarize, Scalar.unit]

/-- At any time after setup, whether inference succeeds or not: it completes as many rules as the
stream opens with, up to the configured number; it stores for each of them the fold over its
antecedents, weighted; and it leaves all other slots as they were. -/
theorem inference_stores_strengths {architecture : Architecture} {tables : Tables α}
    {config : Config} {e₀ e : Engine α}
    (hsetup : setup w architecture tables stream n config = .ok e₀) (cs : List (Command α))
    (he : e₀.run cs = e) :
    IsGreatest {k | k ≤ n ∧ ∃ rules, Opens w tables.sizes stream rules ∧ rules.length = k}
        e.inference.1.completed ∧
      (∀ rules, Opens w tables.sizes stream rules →
        rules.length = e.inference.1.completed →
          (∀ i r, rules[i]? = some r → e.inference.1.strengths[i]? =
            some (r.strength e.config e.antecedentDegree * e.weight i)) ∧
          ∀ r ∈ rules,
            (∀ a ∈ r.antecedents, ∃ m, e.inputMemberships[a.reference.index]? = some m ∧
              e.antecedentDegree a.reference =
                if a.reference.negated then 1 - Scalar.clamp 0 1 m.degree
                else Scalar.clamp 0 1 m.degree) ∧
            ∀ r' : Rule, r'.antecedent.reference = r.antecedent.reference →
              r'.joined.map (fun j => (j.1, j.2.reference)) =
                r.joined.map (fun j => (j.1, j.2.reference)) →
              r'.strength e.config e.antecedentDegree =
                r.strength e.config e.antecedentDegree) ∧
      (∀ i, i < n → (e.weights = none → e.weight i = 1) ∧
        ∀ ws, e.weights = some ws →
          ∃ x, ws[i]? = some x ∧ e.weight i = Scalar.clamp 0 1 x) ∧
      ∀ i, e.inference.1.completed ≤ i → e.inference.1.strengths[i]? = e.strengths[i]? := by
  subst he
  have hserves := serves_run hsetup cs
  obtain ⟨rules, hopens, hle, hcompleted, hstrengths, hlongest⟩ := hserves.inference_opens
  rw [hcompleted, hstrengths]
  refine ⟨⟨⟨hle, rules, hopens, rfl⟩, ?_⟩, ?_, ?_, ?_⟩
  · rintro k ⟨hk, rules', hopens', rfl⟩
    exact (hlongest rules' hopens' hk).length_le
  · intro rules' hopens' hlength
    -- both lists open the stream, and the shorter one is a prefix of the other
    have hsame : rules' = rules :=
      (hlongest rules' hopens' (hlength ▸ hle)).eq_of_length hlength
    subst hsame
    constructor
    · intro i r hr
      exact getElem?_stored_of_getElem? _ _ hr
    · intro r hr
      constructor
      · intro a ha
        exact hserves.antecedentDegree_spec ((hopens.within r hr).1 a ha)
      · intro r' hfirst hjoined
        exact Rule.strength_eq_of_references _ _ hfirst hjoined
  · intro i hi
    exact hserves.weight_spec hi
  · intro i hi
    exact getElem?_stored_of_le _ _ hi

theorem opens_twoRules :
    Opens .byte twoRuleTables.sizes (Rule.stream .byte twoRules) twoRules := by
  apply opens_stream
  show ∀ r ∈ twoRules, r.Within ⟨2, 2, 2, 2⟩
  decide

theorem inference_stores_strengths_twoRules :
    twoRuleEngine.inference.1.completed = 2 ∧
      ∀ i r, twoRules[i]? = some r → twoRuleEngine.inference.1.strengths[i]? =
        some (r.strength twoRuleEngine.config twoRuleEngine.antecedentDegree *
          twoRuleEngine.weight i) :=
  ⟨rfl, ((inference_stores_strengths setup_twoRules [] rfl).2.1 twoRules opens_twoRules rfl).1⟩

end Engine

end FuzzyInference
