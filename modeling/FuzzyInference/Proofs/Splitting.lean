import FuzzyInference.Proofs.Rearranged

/-!
# One consequent per rule

A rule with several consequents can be written as several rules, one for each consequent, behind
the same premise. The AND after a consequent then becomes the end of a rule and the same premise
once more. `Rule.splitAll` writes a rule base in this way, and `Rule.origins` says which rule each
of the new ones comes from.

The new rule base is the old one rearranged (`Rule.rearranges_splitAll`), and its rules assert the
same about every output, in the same order (`Rule.flatMap_ofRule_splitAll`). So nothing has to be
known of the arithmetic: the results are the same and not only close.
-/

set_option autoImplicit false

namespace FuzzyInference

namespace Rule

/-! ## Splitting -/

/-- The rules with the premise of `r` and one of its consequents each. -/
def split (r : Rule) : List Rule :=
  r.consequents.map fun a => { r with consequent := a, further := [] }

/-- Every rule split, each in its place. -/
def splitAll (rules : List Rule) : List Rule := rules.flatMap split

/-- The number of the rule that each of the split rules comes from: every number as often as its
rule has consequents. -/
def origins (rules : List Rule) : List Nat :=
  rules.zipIdx.flatMap fun r => List.replicate r.1.consequents.length r.2

/-- The split rules with the numbers of the rules they come from. -/
def splitNumbered (rules : List Rule) : List (Rule × Nat) :=
  rules.zipIdx.flatMap fun r => r.1.split.map fun r' => (r', r.2)

theorem map_fst_splitNumbered (rules : List Rule) :
    (splitNumbered rules).map Prod.fst = splitAll rules := by
  have hrules : rules.zipIdx.map Prod.fst = rules := List.zipIdx_map_fst 0 rules
  calc (splitNumbered rules).map Prod.fst
      = rules.zipIdx.flatMap fun r => r.1.split := by
        rw [splitNumbered, List.map_flatMap]
        simp [Function.comp_def]
    _ = (rules.zipIdx.map Prod.fst).flatMap split := by rw [List.flatMap_map]
    _ = splitAll rules := by rw [hrules, splitAll]

theorem map_snd_splitNumbered (rules : List Rule) :
    (splitNumbered rules).map Prod.snd = origins rules := by
  rw [splitNumbered, List.map_flatMap, origins]
  simp [Function.comp_def, split, List.map_const']

theorem zip_splitAll_origins (rules : List Rule) :
    (splitAll rules).zip (origins rules) = splitNumbered rules :=
  (List.zip_of_prod (map_fst_splitNumbered rules) (map_snd_splitNumbered rules)).symm

theorem mem_splitNumbered {rules : List Rule} {r' : Rule} {i : Nat} :
    (r', i) ∈ splitNumbered rules ↔ ∃ r, rules[i]? = some r ∧ r' ∈ r.split := by
  simp [splitNumbered, List.mem_zipIdx_iff_getElem?]

theorem mem_split {r r' : Rule} :
    r' ∈ r.split ↔ ∃ a ∈ r.consequents, { r with consequent := a, further := [] } = r' :=
  List.mem_map

/-- A rule names what the rules name that it is split into. -/
theorem within_split {sizes : Sizes} {r : Rule} :
    (∀ r' ∈ r.split, r'.Within sizes) ↔ r.Within sizes := by
  constructor
  · intro h
    have hfirst := h { r with further := [] }
      (mem_split.2 ⟨r.consequent, by simp [consequents], rfl⟩)
    refine ⟨hfirst.1, fun a ha => ?_⟩
    exact (h _ (mem_split.2 ⟨a, ha, rfl⟩)).2 a (by simp [consequents])
  · intro h r' hr'
    obtain ⟨a, ha, rfl⟩ := mem_split.1 hr'
    refine ⟨h.1, fun b hb => ?_⟩
    obtain rfl : b = a := by simpa [consequents] using hb
    exact h.2 b ha

/-- The split rules are the rules in another arrangement. -/
theorem rearranges_splitAll (rules : List Rule) :
    Rearranges (origins rules) rules (splitAll rules) := by
  constructor
  case length =>
    rw [← map_fst_splitNumbered, ← map_snd_splitNumbered, List.length_map, List.length_map]
  case mem_iff =>
    intro i
    rw [← map_snd_splitNumbered]
    constructor
    · intro hi
      obtain ⟨⟨r', j⟩, hmem, rfl⟩ := List.mem_map.1 hi
      obtain ⟨r, hr, -⟩ := mem_splitNumbered.1 hmem
      exact (List.getElem?_eq_some_iff.1 hr).1
    · intro hi
      -- a rule has a first consequent, so that its number is there at least once
      have hmem : ({ rules[i] with further := [] }, i) ∈ splitNumbered rules :=
        mem_splitNumbered.2 ⟨rules[i], List.getElem?_eq_getElem hi,
          mem_split.2 ⟨rules[i].consequent, by simp [consequents], rfl⟩⟩
      exact List.mem_map_of_mem hmem
  case premise =>
    intro i j r hij hr
    rw [← map_snd_splitNumbered, List.getElem?_map] at hij
    obtain ⟨⟨r', j'⟩, hi, rfl⟩ := Option.map_eq_some_iff.1 hij
    obtain ⟨r₀, hr₀, hr'⟩ := mem_splitNumbered.1 (List.mem_of_getElem? hi)
    obtain rfl : r₀ = r := Option.some.inj (hr₀.symm.trans hr)
    obtain ⟨a, -, rfl⟩ := mem_split.1 hr'
    refine ⟨{ r₀ with consequent := a, further := [] }, ?_, rfl, rfl⟩
    rw [← map_fst_splitNumbered, List.getElem?_map, hi, Option.map_some]
  case within =>
    intro sizes
    simp only [splitAll, List.forall_mem_flatMap, within_split]

/-! ## What split rules assert -/

variable {α : Type} [Scalar α]

theorem flatMap_ofRule_split (o : Nat) (r : Rule) (strength : α) :
    r.split.flatMap (fun r' => Firing.ofRule o r' strength) = Firing.ofRule o r strength := by
  -- a rule with one consequent asserts one thing or nothing
  have hone : ∀ a : Assertion,
      Firing.ofRule o { r with consequent := a, further := [] } strength =
        (Firing.ofAssertion? strength o a).toList := by
    intro a
    rw [← Firing.filterMap_ofAssertion?]
    cases h : Firing.ofAssertion? strength o a with
    | none => simp [consequents, h]
    | some f => simp [consequents, h]
  rw [split, List.flatMap_map, ← Firing.filterMap_ofAssertion?, List.filterMap_eq_flatMap_toList]
  simp only [hone]

/-- Split rules that have the strengths of the rules they come from assert what these assert. -/
theorem flatMap_ofRule_splitAll (o : Nat) (strength : Nat → α) (rules : List Rule) :
    ((splitAll rules).zip (origins rules)).flatMap
        (fun r => Firing.ofRule o r.1 (strength r.2)) =
      rules.zipIdx.flatMap fun r => Firing.ofRule o r.1 (strength r.2) := by
  rw [zip_splitAll_origins, splitNumbered, List.flatMap_assoc]
  simp only [List.flatMap_map, flatMap_ofRule_split]

end Rule

namespace Engine

variable {α : Type} [Scalar α]

/-- Engines that are related by splitting tell the same about every output. -/
theorem Rearranged.toldAlike_of_split {rules : List Rule} {e e' : Engine α}
    (h : Rearranged (Rule.origins rules) rules (Rule.splitAll rules) e e')
    (hstatus : e.status = .succeeded) (o : Nat) (out : Output α) : ToldAlike e e' o out := by
  have hfiring : e'.firing o = e.firing o := by
    rw [h.firing_eq hstatus, h.firing_eq' (Rule.rearranges_splitAll rules) hstatus]
    exact Rule.flatMap_ofRule_splitAll o (fun j => e.strengths[j]?.getD 0) rules
  constructor
  case curve =>
    intro _
    rw [h.curve_eq, hfiring, curve_eq_degree]
  case sums =>
    intro _
    rw [hfiring]
    exact ⟨rfl, rfl⟩

/-- Rules can be split into rules with one consequent each. Where an engine over the rules can be set
up, so can one over the split rules, whose number is by as much larger as consequents were set
apart. Under the same commands, with each weight repeated for the rules that its rule was split
into, it accepts the rules whenever the first one does, each rule has the strength of the rule it
comes from, and all outputs are the same: the samples, the accumulators, the regions and the crisp
values. -/
theorem splitting_preserves_meaning {w : Width} {architecture : Architecture} {tables : Tables α}
    {rules : List Rule} {n : Nat} {config : Config} {e₀ : Engine α}
    (hsetup : setup w architecture tables (Rule.stream w rules) n config = .ok e₀) {n' : Nat}
    (hcount : n' + rules.length = n + (Rule.splitAll rules).length) {slots : List α}
    (hslots : n' ≤ slots.length) :
    ∃ e₀', setup w architecture { tables with strengths := slots }
        (Rule.stream w (Rule.splitAll rules)) n' config = .ok e₀' ∧
      ∀ (cs : List (Command α)) (e e' : Engine α), e₀.run cs = e →
        e₀'.run (cs.map (Command.rearranged (Rule.origins rules))) = e' →
        AnswersAlike (Rule.origins rules) e e' := by
  have horder := Rule.rearranges_splitAll rules
  obtain ⟨e₀', hsetup', hstart⟩ := exists_rearranged horder hsetup hcount hslots
  refine ⟨e₀', hsetup', ?_⟩
  rintro cs e e' rfl rfl
  have hrun : Rearranged (Rule.origins rules) rules (Rule.splitAll rules) (e₀.run cs)
      (e₀'.run (cs.map (Command.rearranged (Rule.origins rules)))) :=
    hstart.run horder cs fun pre _ hstatus f' hf' o out _ => hf'.toldAlike_of_split hstatus o out
  exact hrun.answersAlike horder (exists_ready hsetup cs rfl) (exists_ready hsetup' _ rfl)
    fun hstatus o out _ => hrun.toldAlike_of_split hstatus o out

/-- The two rules become three. -/
theorem splitting_preserves_meaning_twoRules :
    ∃ e₀', setup .byte .mamdani { twoRuleTables with strengths := [0, 0, 0] }
        (Rule.stream .byte (Rule.splitAll twoRules)) 3 .mamdaniClassic = .ok e₀' ∧
      AnswersAlike [0, 0, 1] (twoRuleEngine.run twoRuleCommands)
        (e₀'.run (twoRuleCommands.map (Command.rearranged [0, 0, 1]))) := by
  have hcount : 3 + twoRules.length = 2 + (Rule.splitAll twoRules).length := rfl
  have hslots : 3 ≤ ([0, 0, 0] : List Float).length := by decide
  obtain ⟨e₀', hsetup', halike⟩ := splitting_preserves_meaning setup_twoRules hcount hslots
  exact ⟨e₀', hsetup', halike twoRuleCommands _ _ rfl rfl⟩

end Engine

end FuzzyInference
