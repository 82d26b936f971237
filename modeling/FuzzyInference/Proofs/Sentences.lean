import FuzzyInference.Proofs.Lending
import FuzzyInference.Proofs.Spelling
import FuzzyInference.Proofs.WrittenText
import Mathlib.Algebra.Ring.Nat

/-!
# Sentences

A rule base is written as a sequence of words, `IF t IS [NOT] m AND t IS [NOT] m THEN ... END`.
Words are read as phrases one by one, in whatever order the phrases stand, and each phrase writes
its code: nothing for IF and END, a sentinel for AND, OR and THEN, then a tag and a reference.
`RuleText.stream?_eq_some_iff` says which words write a stream, and which one. All its items are
items of the width (`RuleText.inWidth_stream?`).

The sentence of a rule (`Rule.sentence`) writes the rule, although the stream holds no mark of where
it begins or ends. The walk over the premises finds the limits again from what follows each clause:
what it reads, put together (`Walk.rules`), is the rules of the sentences (`Engine.Recovers`).
-/

set_option autoImplicit false

namespace FuzzyInference

variable {w : Width}

/-! ## Phrases and their words -/

/-- `tag IS [NOT] membership`. -/
def RuleText.assertion (tag membership : Int) (negated : Bool) : List Word :=
  .value tag :: .is :: ((if negated then [.not] else []) ++ [.value membership])

namespace Phrase

/-- The words of a phrase. -/
def words : Phrase → List RuleText.Word
  | clause lead tag membership negated => .lead lead :: RuleText.assertion tag membership negated
  | stop => [.stop]

/-- Whether a phrase can be written: its membership tag, cast to the width, can be referred to. -/
def Encodable (w : Width) : Phrase → Prop
  | clause _ _ membership _ => 0 ≤ w.wrap membership ∧ w.wrap membership < w.maxReference
  | stop => True

/-- The code of a phrase. -/
def code (w : Width) : Phrase → List Int
  | clause lead tag membership negated =>
      lead.encode w ++ [w.wrap tag, Reference.code ⟨(w.wrap membership).toNat, negated⟩]
  | stop => []

theorem encode?_eq_some_iff {p : Phrase} {items : List Int} :
    p.encode? w = some items ↔ p.Encodable w ∧ items = p.code w := by
  cases p with
  | stop => simp [encode?, Encodable, code, eq_comm]
  | clause lead tag membership negated =>
      by_cases hmembership : 0 ≤ w.wrap membership ∧ w.wrap membership < w.maxReference
      · simp [encode?, Reference.encode?, Encodable, code, hmembership, eq_comm]
      · simp [encode?, Reference.encode?, Encodable, hmembership]

theorem encodeAll?_eq_some_iff {ps : List Phrase} {items : List Int} :
    encodeAll? w ps = some items ↔
      (∀ p ∈ ps, p.Encodable w) ∧ items = ps.flatMap (code w) := by
  induction ps generalizing items with
  | nil => simp [encodeAll?, eq_comm]
  | cons p ps ih =>
      simp only [encodeAll?, Option.bind_eq_some_iff, Option.map_eq_some_iff, encode?_eq_some_iff,
        ih, List.forall_mem_cons, List.flatMap_cons]
      constructor
      · rintro ⟨head, ⟨hp, rfl⟩, tail, ⟨hps, rfl⟩, rfl⟩
        exact ⟨⟨hp, hps⟩, rfl⟩
      · rintro ⟨⟨hp, hps⟩, rfl⟩
        exact ⟨_, ⟨hp, rfl⟩, _, ⟨hps, rfl⟩, rfl⟩

/-- What a phrase writes are items of the width: its numbers are cast, and the membership tags that
are accepted then have a reference among the items. -/
theorem inWidth_code {p : Phrase} (h : p.Encodable w) : ∀ item ∈ p.code w, InWidth w item := by
  intro item hitem
  cases p with
  | stop => cases hitem
  | clause lead tag membership negated =>
      rcases List.mem_append.1 hitem with hlead | hclause
      · obtain ⟨s, -, rfl⟩ := List.mem_map.1 hlead
        exact s.inWidth_code w
      · obtain ⟨hnonneg, hlt⟩ := h
        rcases List.mem_cons.1 hclause with rfl | hreference
        · exact w.inWidth_wrap tag
        · obtain rfl := List.mem_singleton.1 hreference
          exact Reference.inWidth_code ((Int.toNat_lt hnonneg).2 hlt)

end Phrase

namespace RuleText

/-- A phrase is read off the front. Where NOT stands behind IS, it is not taken for a membership
tag, and without NOT the word behind IS is. -/
theorem phrases?_words_append (p : Phrase) (rest : List Word) :
    phrases? (p.words ++ rest) = (phrases? rest).map (p :: ·) := by
  cases p with
  | stop => rfl
  | clause lead tag membership negated => cases negated <;> rfl

theorem phrases?_flatMap_words (ps : List Phrase) :
    phrases? (ps.flatMap Phrase.words) = some ps := by
  induction ps with
  | nil => rfl
  | cons p ps ih => rw [List.flatMap_cons, phrases?_words_append, ih, Option.map_some]

/-- Nothing but the words of phrases is read. -/
theorem eq_flatMap_words {words : List Word} {ps : List Phrase} (h : phrases? words = some ps) :
    words = ps.flatMap Phrase.words := by
  -- by the arms of the reader: no words, END, a clause with NOT, one without, and no phrase
  fun_induction phrases? words generalizing ps with
  | case1 =>
      obtain rfl := Option.some.inj h
      rfl
  | case2 rest ih | case3 lead tag membership rest ih | case4 lead tag membership rest ih =>
      obtain ⟨qs, hqs, rfl⟩ := Option.map_eq_some_iff.1 h
      rw [ih hqs]
      rfl
  | case5 => cases h

/-- The stream that words write. -/
def stream? (w : Width) (words : List Word) : Option (List Int) :=
  (phrases? words).bind (Phrase.stream? w)

/-- Words write a stream if they are those of encodable phrases, in any order. Between the opening
and the closing sentinel stand the codes of the phrases, one after the other. -/
theorem stream?_eq_some_iff {words : List Word} {stream : List Int} :
    stream? w words = some stream ↔
      ∃ ps : List Phrase, words = ps.flatMap Phrase.words ∧ (∀ p ∈ ps, p.Encodable w) ∧
        stream =
          Sentinel.opening.code w :: ps.flatMap (Phrase.code w) ++ [Sentinel.closing.code w] := by
  simp only [stream?, Phrase.stream?, Option.bind_eq_some_iff, Option.map_eq_some_iff,
    Phrase.encodeAll?_eq_some_iff]
  constructor
  · rintro ⟨ps, hps, items, ⟨hencodable, rfl⟩, rfl⟩
    exact ⟨ps, eq_flatMap_words hps, hencodable, rfl⟩
  · rintro ⟨ps, rfl, hencodable, rfl⟩
    exact ⟨ps, phrases?_flatMap_words ps, _, ⟨hencodable, rfl⟩, rfl⟩

/-- A stream that words write holds items of the width only. -/
theorem inWidth_stream? {words : List Word} {stream : List Int}
    (h : stream? w words = some stream) : ∀ item ∈ stream, Phrase.InWidth w item := by
  obtain ⟨ps, -, hencodable, rfl⟩ := stream?_eq_some_iff.1 h
  intro item hitem
  rcases List.mem_append.1 hitem with hbody | hclosing
  · rcases List.mem_cons.1 hbody with rfl | hcode
    · exact Sentinel.opening.inWidth_code w
    · obtain ⟨p, hp, hcode⟩ := List.mem_flatMap.1 hcode
      exact Phrase.inWidth_code (hencodable p hp) item hcode
  · obtain rfl := List.mem_singleton.1 hclosing
    exact Sentinel.closing.inWidth_code w

end RuleText

/-- `IF service IS poor OR food IS NOT rancid THEN tip IS cheap END`, the variables and their fuzzy
sets numbered from 0. -/
example : (Phrase.ofText? "IF 0 IS 0 OR 1 IS NOT 1 THEN 0 IS 0 END").bind (Phrase.stream? .byte) =
    some [-128, 0, 1, -125, 1, -2, -124, 0, 1, -127] := by
  decide +kernel

/-! ## The sentence of a rule -/

/-- The words of an assertion. -/
def Assertion.words (a : Assertion) : List RuleText.Word :=
  RuleText.assertion a.tag a.reference.index a.reference.negated

namespace Rule

/-- IF and the antecedents, AND or OR between them; THEN and the consequents, AND between them;
END. -/
def sentence (r : Rule) : List RuleText.Word :=
  .lead .condition :: r.antecedent.words ++
    (r.joined.flatMap fun j => .lead j.1.lead :: j.2.words) ++
    .lead .implies :: r.consequent.words ++
    (r.further.flatMap fun a => .lead .and :: a.words) ++ [.stop]

/-- The number of items of a rule: two for each clause, and one for each AND, OR and THEN. -/
def size (r : Rule) : Nat :=
  2 * (r.antecedents.length + r.consequents.length) + (r.joined.length + 1 + r.further.length)

theorem flatMap_words_phrases (r : Rule) : r.phrases.flatMap Phrase.words = r.sentence := by
  simp [phrases, sentence, List.flatMap_map, Phrase.words, Assertion.phrase, Assertion.words]

theorem flatMap_sentence (rules : List Rule) :
    rules.flatMap sentence = (rules.flatMap phrases).flatMap Phrase.words := by
  rw [List.flatMap_assoc]
  simp only [flatMap_words_phrases]

/-- The sentences of rules inside the tables write the rules. -/
theorem stream?_sentences {sizes : Sizes} {rules : List Rule} (hfit : sizes.Fit w)
    (hrules : ∀ r ∈ rules, r.Within sizes) :
    RuleText.stream? w (rules.flatMap sentence) = some (stream w rules) := by
  rw [RuleText.stream?, flatMap_sentence, RuleText.phrases?_flatMap_words, Option.bind_some,
    stream?_phrases hfit hrules]

theorem length_encode (w : Width) (r : Rule) : (r.encode w).length = r.size := by
  have hassertion : ∀ a : Assertion, a.encode.length = 2 := fun _ => rfl
  have hjoined : (r.joined.flatMap fun j => j.1.sentinel.code w :: j.2.encode).length =
      3 * r.joined.length := by
    simp [List.length_flatMap, hassertion, List.map_const', Nat.mul_comm]
  have hfurther : (r.further.flatMap fun a => Sentinel.and.code w :: a.encode).length =
      3 * r.further.length := by
    simp [List.length_flatMap, hassertion, List.map_const', Nat.mul_comm]
  have hantecedents : r.antecedents.length = r.joined.length + 1 := by simp [antecedents]
  have hconsequents : r.consequents.length = r.further.length + 1 := by simp [consequents]
  rw [encode, encodePremise, encodeConsequents, List.length_append, List.length_append,
    List.length_cons, List.length_append, hjoined, hfurther, hassertion, hassertion, size,
    hantecedents, hconsequents]
  omega

theorem length_stream (w : Width) (rules : List Rule) :
    (stream w rules).length = 2 + (rules.map size).sum := by
  have hsizes : (fun r : Rule => (r.encode w).length) = size := funext (length_encode w)
  rw [stream, List.length_append, List.length_cons, List.length_flatMap, hsizes,
    List.length_singleton]
  omega

theorem stream_injective {rules rules' : List Rule} (h : stream w rules' = stream w rules) :
    rules' = rules := by
  simp only [stream, List.cons_append, List.cons.injEq, true_and] at h
  exact flatMap_encode_inj h

end Rule

/-! ## Reading the sentences back -/

/-- The rules that the clauses of a walk make up, in the order in which they were read. -/
def Walk.rules (walk : Walk PremiseStep) : List Rule :=
  (walk.steps.foldl (fun p s => p.read s.clause) Progress.start).rules

namespace Engine

variable {α : Type} [Scalar α]

/-- Inference over the stream of an engine finds the rules again that were written there. -/
structure Recovers (e : Engine α) (rules : List Rule) : Prop where
  succeeds : e.inference.2 = .ok ()
  completed : e.inference.1.completed = rules.length
  /-- What is read are the clauses of the rules, each with the number of its rule and with what
  introduces it. -/
  readings : e.premises.steps.map PremiseStep.reading = Rule.allReadings rules
  /-- Put together, the clauses are the rules. -/
  assembled : e.premises.rules = rules
  /-- No other rules are written in this way. -/
  unique : ∀ rules', Rule.stream e.width rules' = e.rules → rules' = rules

theorem Serves.recovers {e : Engine α} {sizes : Sizes} {rules : List Rule}
    (h : e.Serves w sizes rules.length (Rule.stream w rules))
    (hrules : ∀ r ∈ rules, r.Within sizes) : e.Recovers rules := by
  have hspells : Spells w sizes rules.length (Rule.stream w rules) rules :=
    spells_stream_iff.2 ⟨rfl, rfl, hrules⟩
  -- the walk reads the whole stream, clause by clause, so its progress ends at these rules
  obtain ⟨items, rest, steps, hreads, hwalk⟩ := hspells.exists_reads h.fit
  constructor
  · rw [inference_ok_iff, h.premises_eq, hwalk]
  · rw [inference_completed, h.premises_eq, hwalk]
  · rw [h.premises_eq]
    exact hspells.readings_eq h.fit
  · rw [h.premises_eq, hwalk]
    exact congrArg Progress.rules hreads.foldl_read
  · intro rules' hsame
    rw [h.width, h.rules] at hsame
    exact Rule.stream_injective hsame

/-- For every rule base an engine can be set up over blank tables of the greatest sizes. -/
theorem exists_setup {architecture : Architecture} {config : Config} {rules : List Rule}
    (hrules : rules ≠ []) (hfits : config.Fits architecture) :
    ∃ e₀ : Engine α, setup w architecture (.blank (.largest w) rules.length) (Rule.stream w rules)
      rules.length config = .ok e₀ := by
  have hsizes : (Tables.blank (.largest w) rules.length : Tables α).sizes = .largest w := by
    simp only [Tables.blank, Tables.sizes, List.length_replicate]
  have hslots : rules.length ≤
      (Tables.blank (.largest w) rules.length : Tables α).strengths.length :=
    Nat.le_of_eq List.length_replicate.symm
  have htags : 0 < w.maxTags := by cases w <;> decide
  have hreferences : 0 < w.maxReference := by cases w <;> decide
  have haccepted : Script.Accepted ⟨w, .largest w, rules.length, Rule.stream w rules⟩ :=
    { fit := Sizes.fit_largest w
      inputs := htags
      outputs := htags
      inputMemberships := hreferences
      outputMemberships := hreferences
      rules := List.cons_ne_nil _ _
      ruleCount := List.length_pos_iff.2 hrules }
  rw [← hsizes] at haccepted
  exact ⟨_, setup_eq_ok_iff.2 ⟨haccepted, hslots, hfits, rfl⟩⟩

/-- The text of words writes what the words write, and they write a stream exactly if they are those
of encodable phrases: the codes of the phrases, in their order, between the opening and the closing
sentinel. The sentences of encodable rules write the rules, in a stream of known length, and
inference for as many rules as there are sentences finds them again at any time after setup, over
all tables that hold what they name. There are such tables for every rule base. -/
theorem sentences_recovered (w : Width) :
    (∀ words : List RuleText.Word,
      (Phrase.ofText? (RuleText.text words)).bind (Phrase.stream? w) = RuleText.stream? w words ∧
        ∀ stream, RuleText.stream? w words = some stream ↔
          ∃ ps : List Phrase, words = ps.flatMap Phrase.words ∧ (∀ p ∈ ps, p.Encodable w) ∧
            stream =
              Sentinel.opening.code w :: ps.flatMap (Phrase.code w) ++ [Sentinel.closing.code w]) ∧
      ∀ rules : List Rule, (∀ r ∈ rules, r.Within (.largest w)) →
        RuleText.stream? w (rules.flatMap Rule.sentence) = some (Rule.stream w rules) ∧
          (Rule.stream w rules).length = 2 + (rules.map Rule.size).sum ∧
          (∀ (architecture : Architecture) (tables : Tables α) (config : Config) (e₀ : Engine α)
              (cs : List (Command α)),
            setup w architecture tables (Rule.stream w rules) rules.length config = .ok e₀ →
            (∀ r ∈ rules, r.Within tables.sizes) → (e₀.run cs).Recovers rules) ∧
          (rules ≠ [] → ∀ (architecture : Architecture) (config : Config),
            config.Fits architecture →
            ∃ e₀ : Engine α, setup w architecture (.blank (.largest w) rules.length)
              (Rule.stream w rules) rules.length config = .ok e₀) := by
  constructor
  · intro words
    constructor
    · rw [RuleText.ofText?_text, RuleText.stream?]
    · intro stream
      exact RuleText.stream?_eq_some_iff
  · intro rules hrules
    refine ⟨Rule.stream?_sentences (Sizes.fit_largest w) hrules, Rule.length_stream w rules, ?_, ?_⟩
    · intro architecture tables config e₀ cs hsetup hwithin
      exact (serves_run hsetup cs).recovers hwithin
    · intro hne architecture config hfits
      exact exists_setup hne hfits

/-- The two rules as sentences, and after a session. -/
theorem sentences_recovered_twoRules :
    RuleText.stream? .byte (twoRules.flatMap Rule.sentence) = some (Rule.stream .byte twoRules) ∧
      (twoRuleEngine.run twoRuleCommands).Recovers twoRules := by
  have hwithin : ∀ r ∈ twoRules, r.Within (.largest .byte) := by decide
  obtain ⟨hstream, -, hrecovers, -⟩ := (sentences_recovered (α := Float) .byte).2 twoRules hwithin
  exact ⟨hstream, hrecovers _ _ _ _ twoRuleCommands setup_twoRules (by decide)⟩

end Engine

end FuzzyInference
