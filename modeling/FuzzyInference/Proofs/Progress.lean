import FuzzyInference.Proofs.Items
import FuzzyInference.Walk.Premise

/-!
# How far a premise walk has come

`premiseWalk` keeps a state, a rule number and a position, and none of them says which rules the
items in front of the position were. `Progress` does: it holds the rules that are complete and what
has been read of the next one (`Pending`), and writes all of it as the items read so far
(`Progress.encode`). State, rule number and position of the walk are functions of it.

`Progress.read` reads one more clause. `Progress.read_cases` says once what a step of the machine
can do: a sentinel joins the clause to what is pending and all three items are taken (`Joins`), or
the clause is the last consequent, the rule is complete and its follower stays unread (`Closes`).
The other facts about a step are read off these two cases.
-/

set_option autoImplicit false

namespace FuzzyInference

variable {w : Width} {sizes : Sizes}

/-- The items of a premise, given by its antecedents. -/
def premiseItems (w : Width) (antecedent : Assertion) (joined : List (Connective × Assertion)) :
    List Int :=
  antecedent.encode ++ joined.flatMap fun j => j.1.sentinel.code w :: j.2.encode

/-- The items of consequents. -/
def consequentItems (w : Width) (consequent : Assertion) (further : List Assertion) : List Int :=
  consequent.encode ++ further.flatMap fun a => Sentinel.and.code w :: a.encode

theorem premiseItems_concat (a b : Assertion) (js : List (Connective × Assertion))
    (j : Connective) :
    premiseItems w a (js ++ [(j, b)]) =
      premiseItems w a js ++ j.sentinel.code w :: b.encode := by
  simp [premiseItems, List.append_assoc]

/-- What has been read of a rule that is not complete. -/
inductive Pending where
  /-- Nothing. -/
  | opening
  /-- Antecedents, and a connective behind the last of them. -/
  | premise (antecedent : Assertion) (joined : List (Connective × Assertion)) (next : Connective)
  /-- A whole premise and THEN. -/
  | conclusion (antecedent : Assertion) (joined : List (Connective × Assertion))
  /-- A premise and consequents, and AND behind the last of them. -/
  | further (antecedent : Assertion) (joined : List (Connective × Assertion))
      (consequent : Assertion) (more : List Assertion)

namespace Pending

/-- The items that were read. -/
def encode (w : Width) : Pending → List Int
  | opening => []
  | premise a js j => premiseItems w a js ++ [j.sentinel.code w]
  | conclusion a js => premiseItems w a js ++ [Sentinel.implies.code w]
  | further a js c cs =>
      premiseItems w a js ++ Sentinel.implies.code w :: consequentItems w c cs ++
        [Sentinel.and.code w]

/-- The state of the machine. -/
def state : Pending → PremiseState
  | opening => .premise none
  | premise _ _ j => .premise (some j)
  | conclusion _ _ => .consequents
  | further _ _ _ _ => .consequents

/-- Whether what was read lies inside the tables. -/
def Within (sizes : Sizes) : Pending → Prop
  | opening => True
  | premise a js _ => ∀ b ∈ a :: js.map Prod.snd, b.Within sizes.input
  | conclusion a js => ∀ b ∈ a :: js.map Prod.snd, b.Within sizes.input
  | further a js c cs =>
      (∀ b ∈ a :: js.map Prod.snd, b.Within sizes.input) ∧ ∀ b ∈ c :: cs, b.Within sizes.output

/-- A premise and the token behind it. A token that cannot stand there counts as THEN; no step is
made on one. -/
def after (a : Assertion) (js : List (Connective × Assertion)) : Token → Pending
  | .sentinel .and => .premise a js .and
  | .sentinel .or => .premise a js .or
  | _ => .conclusion a js

end Pending

/-- The rules that a walk has completed, and what it has read of the next one. -/
structure Progress where
  rules : List Rule
  pending : Pending

namespace Progress

/-- Only the opening sentinel has been read. -/
def start : Progress := ⟨[], .opening⟩

/-- The items read so far. -/
def encode (w : Width) (p : Progress) : List Int :=
  Sentinel.opening.code w :: p.rules.flatMap (Rule.encode w) ++ p.pending.encode w

/-- The position in the stream. -/
def position (w : Width) (p : Progress) : Nat := (p.encode w).length

/-- Reads a clause. -/
def read (p : Progress) (c : Clause) : Progress :=
  match p.pending with
  | .opening => ⟨p.rules, .after c.toAssertion [] c.follow⟩
  | .premise a js j => ⟨p.rules, .after a (js ++ [(j, c.toAssertion)]) c.follow⟩
  | .conclusion a js =>
      if c.follow = .sentinel .and then ⟨p.rules, .further a js c.toAssertion []⟩
      else ⟨p.rules ++ [⟨a, js, c.toAssertion, []⟩], .opening⟩
  | .further a js b bs =>
      if c.follow = .sentinel .and then ⟨p.rules, .further a js b (bs ++ [c.toAssertion])⟩
      else ⟨p.rules ++ [⟨a, js, b, bs ++ [c.toAssertion]⟩], .opening⟩

/-- Whether everything read so far lies inside the tables. -/
def Within (sizes : Sizes) (p : Progress) : Prop :=
  (∀ r ∈ p.rules, r.Within sizes) ∧ p.pending.Within sizes

/-- A walk that looks for `n` rules reads nothing behind the last of them. -/
def Legal (n : Nat) (p : Progress) : Prop :=
  p.rules.length ≤ n ∧ (p.rules.length = n → p.pending = .opening)

end Progress

/-! ## One step -/

/-- The connective that a follower of an antecedent writes, none for THEN. -/
theorem PremiseState.step_premise {joined : Option Connective} {c : Clause} {i : Nat}
    {t : Transition PremiseState PremiseEffect}
    (h : (PremiseState.premise joined).step w c i = .ok t) :
    (∃ j : Connective, c.follow = .sentinel j.sentinel ∧
        t = ⟨.premise (some j), .compose joined, 3⟩) ∨
      (c.follow = .sentinel .implies ∧ t = ⟨.consequents, .compose joined, 3⟩) := by
  simp only [PremiseState.step] at h
  split at h
  · rename_i hf
    exact Or.inl ⟨.and, hf, (Except.ok.inj h).symm⟩
  · rename_i hf
    exact Or.inl ⟨.or, hf, (Except.ok.inj h).symm⟩
  · rename_i hf
    exact Or.inr ⟨hf, (Except.ok.inj h).symm⟩
  · cases h

theorem Pending.after_connective (a : Assertion) (js : List (Connective × Assertion))
    (j : Connective) : Pending.after a js (.sentinel j.sentinel) = .premise a js j := by
  cases j <;> rfl

theorem PremiseState.step_consequents (c : Clause) (i : Nat) :
    PremiseState.consequents.step w c i =
      .ok (if c.follow = .sentinel .and then ⟨.consequents, .proceed, 3⟩
        else ⟨.start, .closeRule, 2⟩) := by
  simp only [PremiseState.step]
  split <;> rfl

namespace Progress

/-- A step that joins a clause to what is pending, and takes the sentinel behind it. -/
structure Joins (w : Width) (p : Progress) (c : Clause)
    (t : Transition PremiseState PremiseEffect) (s : Sentinel) : Prop where
  follow : c.follow = .sentinel s
  rules : (p.read c).rules = p.rules
  encode : (p.read c).pending.encode w = p.pending.encode w ++ (c.toAssertion.encode ++ [s.code w])
  state : (p.read c).pending.state = t.next
  effect : t.effect ≠ .closeRule
  advance : t.advance = 3

/-- A step that completes the rule `r`, and leaves the token behind it unread. -/
structure Closes (w : Width) (p : Progress) (c : Clause)
    (t : Transition PremiseState PremiseEffect) (r : Rule) : Prop where
  follow : c.follow ≠ .sentinel .and
  read : p.read c = ⟨p.rules ++ [r], .opening⟩
  encode : r.encode w = p.pending.encode w ++ c.toAssertion.encode
  state : p.pending.state = .consequents
  transition : t = ⟨.start, .closeRule, 2⟩

variable {p : Progress} {c : Clause} {i : Nat} {t : Transition PremiseState PremiseEffect}

/-- An antecedent joins the premise that is pending. -/
theorem joins_of_after (a : Assertion) (js : List (Connective × Assertion))
    {joined : Option Connective} (hread : p.read c = ⟨p.rules, .after a js c.follow⟩)
    (hitems : premiseItems w a js = p.pending.encode w ++ c.toAssertion.encode)
    (h : (PremiseState.premise joined).step w c i = .ok t) : ∃ s, p.Joins w c t s := by
  rcases PremiseState.step_premise h with ⟨j, hf, rfl⟩ | ⟨hf, rfl⟩
  · have hp : p.read c = ⟨p.rules, .premise a js j⟩ := by
      rw [hread, hf, Pending.after_connective]
    refine ⟨j.sentinel, hf, by rw [hp], ?_, by rw [hp]; rfl, by simp, rfl⟩
    rw [hp, ← List.append_assoc, ← hitems]
    rfl
  · have hp : p.read c = ⟨p.rules, .conclusion a js⟩ := by
      rw [hread, hf]
      rfl
    refine ⟨.implies, hf, by rw [hp], ?_, by rw [hp]; rfl, by simp, rfl⟩
    rw [hp, ← List.append_assoc, ← hitems]
    rfl

/-- What a step can do: it joins the clause to what is pending, or completes a rule. -/
theorem read_cases (h : p.pending.state.step w c i = .ok t) :
    (∃ s, p.Joins w c t s) ∨ ∃ r, p.Closes w c t r := by
  rcases p with ⟨rules, pending⟩
  cases pending with
  | opening =>
      refine Or.inl (joins_of_after c.toAssertion [] rfl ?_ h)
      simp [premiseItems, Pending.encode]
  | premise a js j =>
      refine Or.inl (joins_of_after a (js ++ [(j, c.toAssertion)]) rfl ?_ h)
      simp [premiseItems_concat, Pending.encode]
  -- behind a consequent, AND alone decides between the two cases
  | conclusion a js =>
      rw [Pending.state, PremiseState.step_consequents] at h
      have ht := (Except.ok.inj h).symm
      by_cases hf : c.follow = .sentinel .and
      · rw [if_pos hf] at ht
        refine Or.inl ⟨.and, hf, ?_, ?_, ?_, ?_, ?_⟩ <;>
          simp [read, hf, ht, Pending.encode, Pending.state, consequentItems]
      · rw [if_neg hf] at ht
        refine Or.inr ⟨⟨a, js, c.toAssertion, []⟩, hf, ?_, ?_, rfl, ht⟩
        · simp [read, hf]
        · simp [Rule.encode, Rule.encodePremise, Rule.encodeConsequents, Pending.encode,
            premiseItems]
  | further a js b bs =>
      rw [Pending.state, PremiseState.step_consequents] at h
      have ht := (Except.ok.inj h).symm
      by_cases hf : c.follow = .sentinel .and
      · rw [if_pos hf] at ht
        refine Or.inl ⟨.and, hf, ?_, ?_, ?_, ?_, ?_⟩ <;>
          simp [read, hf, ht, Pending.encode, Pending.state, consequentItems]
      · rw [if_neg hf] at ht
        refine Or.inr ⟨⟨a, js, b, bs ++ [c.toAssertion]⟩, hf, ?_, ?_, rfl, ht⟩
        · simp [read, hf]
        · simp [Rule.encode, Rule.encodePremise, Rule.encodeConsequents, Pending.encode,
            premiseItems, consequentItems]

theorem read_state (h : p.pending.state.step w c i = .ok t) :
    (p.read c).pending.state = t.next := by
  rcases read_cases h with ⟨s, hj⟩ | ⟨r, hc⟩
  · exact hj.state
  · rw [hc.read, hc.transition]
    rfl

theorem read_count (h : p.pending.state.step w c i = .ok t) :
    (p.read c).rules.length = t.effect.count p.rules.length := by
  rcases read_cases h with ⟨s, hj⟩ | ⟨r, hc⟩
  · have he := hj.effect
    rw [hj.rules]
    cases hte : t.effect with
    | compose joined => rfl
    | proceed => rfl
    | closeRule => exact absurd hte he
  · rw [hc.read, hc.transition, List.length_append]
    rfl

/-- The machine takes what the progress has read. -/
theorem encode_read (h : p.pending.state.step w c i = .ok t) :
    (p.read c).encode w =
      p.encode w ++ (c.toAssertion.encode ++ [c.follow.code w]).take t.advance := by
  rcases read_cases h with ⟨s, hj⟩ | ⟨r, hc⟩
  · rw [encode, encode, hj.rules, hj.encode, hj.follow, hj.advance]
    simp [Assertion.encode, Token.code]
  · rw [encode, encode, hc.read, hc.transition]
    simp [Assertion.encode, Pending.encode, hc.encode]

theorem position_read (h : p.pending.state.step w c i = .ok t) :
    (p.read c).position w = p.position w + t.advance := by
  rw [position, encode_read h, List.length_append, position]
  rcases read_cases h with ⟨s, hj⟩ | ⟨r, hc⟩
  · rw [hj.advance]
    rfl
  · rw [hc.transition]
    rfl

theorem legal_read {n : Nat} (hlt : p.rules.length < n)
    (h : p.pending.state.step w c i = .ok t) : (p.read c).Legal n := by
  rcases read_cases h with ⟨s, hj⟩ | ⟨r, hc⟩
  · rw [Legal, hj.rules]
    exact ⟨Nat.le_of_lt hlt, fun heq => absurd heq (Nat.ne_of_lt hlt)⟩
  · rw [Legal, hc.read, List.length_append]
    exact ⟨hlt, fun _ => rfl⟩

end Progress

/-! ## Inside the tables -/

theorem Pending.within_after {a : Assertion} {js : List (Connective × Assertion)}
    (h : ∀ b ∈ a :: js.map Prod.snd, b.Within sizes.input) (t : Token) :
    (Pending.after a js t).Within sizes := by
  unfold Pending.after
  split <;> exact h

/-- What is read stays inside the tables. -/
theorem Progress.within_read {p : Progress} {c : Clause} (hp : p.Within sizes)
    (hc : c.toAssertion.Within (p.pending.state.limits sizes)) : (p.read c).Within sizes := by
  rcases p with ⟨rules, pending⟩
  obtain ⟨hrules, hpending⟩ := hp
  cases pending with
  | opening =>
      refine ⟨hrules, Pending.within_after ?_ c.follow⟩
      intro b hb
      simp only [List.map_nil, List.mem_singleton] at hb
      rw [hb]
      exact hc
  | premise a js j =>
      refine ⟨hrules, Pending.within_after ?_ c.follow⟩
      intro b hb
      simp only [List.map_append, List.map_cons, List.map_nil, ← List.cons_append,
        List.mem_append, List.mem_singleton] at hb
      rcases hb with hb | rfl
      · exact hpending b hb
      · exact hc
  | conclusion a js =>
      simp only [read]
      split
      · refine ⟨hrules, hpending, ?_⟩
        intro b hb
        rw [List.mem_singleton.1 hb]
        exact hc
      · refine ⟨?_, trivial⟩
        intro r hr
        rcases List.mem_append.1 hr with hr | hr
        · exact hrules r hr
        · rw [List.mem_singleton.1 hr]
          exact ⟨hpending, fun b hb => (List.mem_singleton.1 hb) ▸ hc⟩
  | further a js d ds =>
      obtain ⟨hpremise, hds⟩ := hpending
      have hall : ∀ b ∈ d :: (ds ++ [c.toAssertion]), b.Within sizes.output := by
        intro b hb
        rw [← List.cons_append, List.mem_append, List.mem_singleton] at hb
        rcases hb with hb | rfl
        · exact hds b hb
        · exact hc
      simp only [read]
      split
      · exact ⟨hrules, hpremise, hall⟩
      · refine ⟨?_, trivial⟩
        intro r hr
        rcases List.mem_append.1 hr with hr | hr
        · exact hrules r hr
        · rw [List.mem_singleton.1 hr]
          exact ⟨hpremise, hall⟩

end FuzzyInference
