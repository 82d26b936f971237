import FuzzyInference.Proofs.Bisection
import FuzzyInference.Proofs.OperatorAlgebra
import FuzzyInference.Proofs.Strength

/-!
# The dual of a rule

The dual of a rule asserts the opposite of each of its antecedents and joins them by the other
connective. In exact arithmetic, with minimum and maximum or with product and probabilistic sum,
inference gives the dual the complement of the rule's strength.

`Complements` relates a degree to its complement. It holds of the kept degree of a reference and of
its flip, whatever number was kept, because the degree is confined before it is negated. The
operators of a connective and of its dual preserve it (`Complements.apply`), the seed of a premise
does (`Complements.seed`), and so it is carried from clause to clause (`complements_premise`).
-/

set_option autoImplicit false

namespace FuzzyInference

open Extended

/-! ## Duals -/

/-- The other connective. -/
def Connective.dual : Connective → Connective
  | .and => .or
  | .or => .and

/-- The same membership function with the opposite polarity. -/
def Reference.flip (r : Reference) : Reference := { r with negated := !r.negated }

/-- The opposite assertion. -/
def Assertion.flip (a : Assertion) : Assertion := { a with reference := a.reference.flip }

/-- The rule with the opposite antecedents, joined by the other connectives. Its consequents are the
same. -/
def Rule.dual (r : Rule) : Rule :=
  { r with
    antecedent := r.antecedent.flip
    joined := r.joined.map fun j => (j.1.dual, j.2.flip) }

@[simp]
theorem Connective.dual_dual (j : Connective) : j.dual.dual = j := by
  cases j <;> rfl

@[simp]
theorem Reference.flip_flip (r : Reference) : r.flip.flip = r := by
  simp [flip]

@[simp]
theorem Assertion.flip_flip (a : Assertion) : a.flip.flip = a := by
  simp [flip]

@[simp]
theorem Rule.dual_dual (r : Rule) : r.dual.dual = r := by
  simp [dual, Function.comp_def]

theorem Rule.antecedents_dual (r : Rule) : r.dual.antecedents = r.antecedents.map Assertion.flip := by
  simp [antecedents, dual]

/-- A rule and its dual name the same entries of the tables. -/
theorem Rule.within_dual_iff {sizes : Sizes} {r : Rule} : r.dual.Within sizes ↔ r.Within sizes := by
  have hantecedents : (∀ a ∈ r.dual.antecedents, a.Within sizes.input) ↔
      ∀ a ∈ r.antecedents, a.Within sizes.input := by
    rw [antecedents_dual, List.forall_mem_map]
    rfl
  exact and_congr hantecedents Iff.rfl

/-- Minimum and maximum, or product and probabilistic sum. -/
def Config.DeMorgan (c : Config) : Prop :=
  (c.andOperator = .min ∧ c.orOperator = .max) ∨
    (c.andOperator = .product ∧ c.orOperator = .probabilisticOr)

/-! ## Complements -/

section Complements

variable {K : Type} [Field K] [LinearOrder K] [IsStrictOrderedRing K]

/-- The operators of dual connectives are complementary. -/
theorem onDegrees_dual {config : Config} (hconfig : config.DeMorgan) (j : Connective) (x y : K) :
    (j.dual.operator config).onDegrees (1 - x) (1 - y) =
      1 - (j.operator config).onDegrees x y := by
  have hpair : config.andOperator.dual? = some config.orOperator ∧
      config.orOperator.dual? = some config.andOperator := by
    rcases hconfig with ⟨hand, hor⟩ | ⟨hand, hor⟩
    · rw [hand, hor]
      exact ⟨rfl, rfl⟩
    · rw [hand, hor]
      exact ⟨rfl, rfl⟩
  apply Operator.onDegrees_dual?
  cases j with
  | and => exact hpair.1
  | or => exact hpair.2

/-- Two degrees that add up to 1. -/
def Complements (a b : Extended K) : Prop := ∃ x ∈ Set.Icc 0 1, a = finite x ∧ b = finite (1 - x)

variable [Elementary K] {a a' b b' : Extended K} {config : Config}

/-- The seed of a premise leaves its first degree as it is. -/
theorem sum_apply_zero {x : K} (hx : x ∈ Set.Icc 0 1) :
    Operator.sum.apply 0 (finite x) = finite x := by
  rw [zero_eq, Operator.apply_finite _ ⟨le_refl 0, zero_le_one⟩ hx, Operator.onDegrees, zero_add,
    min_eq_right hx.2]

namespace Complements

omit [Elementary K] in
theorem symm (h : Complements a b) : Complements b a := by
  obtain ⟨x, hx, rfl, rfl⟩ := h
  exact ⟨1 - x, one_sub_mem hx, rfl, by rw [sub_sub_cancel]⟩

theorem seed (h : Complements a b) :
    Complements (Operator.sum.apply 0 a) (Operator.sum.apply 0 b) := by
  obtain ⟨x, hx, rfl, rfl⟩ := h
  rw [sum_apply_zero hx, sum_apply_zero (one_sub_mem hx)]
  exact ⟨x, hx, rfl, rfl⟩

theorem apply (hconfig : config.DeMorgan) (j : Connective) (h : Complements a b)
    (h' : Complements a' b') :
    Complements ((j.operator config).apply a a') ((j.dual.operator config).apply b b') := by
  obtain ⟨x, hx, rfl, rfl⟩ := h
  obtain ⟨y, hy, rfl, rfl⟩ := h'
  rw [Operator.apply_finite _ hx hy, Operator.apply_finite _ (one_sub_mem hx) (one_sub_mem hy),
    onDegrees_dual hconfig]
  exact ⟨_, Operator.onDegrees_mem _ hx hy, rfl, rfl⟩

omit [IsStrictOrderedRing K] in
/-- The weight of rules for which none is set changes nothing. -/
theorem unweighted (h : Complements a b) : Complements (a * 1) (b * 1) := by
  obtain ⟨x, hx, rfl, rfl⟩ := h
  rw [one_eq, finite_mul, finite_mul, mul_one, mul_one]
  exact ⟨x, hx, rfl, rfl⟩

end Complements

variable {degree degree' : Reference → Extended K}
  (hdegree : ∀ r : Reference, Complements (degree r) (degree' r.flip))

include hdegree

/-- The degrees of a premise of any length are composed to complements. -/
theorem complements_premise (hconfig : config.DeMorgan) (a : Assertion)
    (js : List (Connective × Assertion)) :
    Complements (premiseStrength config degree a js)
      (premiseStrength config degree' a.flip (js.map fun j => (j.1.dual, j.2.flip))) := by
  induction js using List.reverseRecOn with
  | nil => exact (hdegree a.reference).seed
  | append_singleton js j ih =>
      rw [List.map_append, List.map_singleton, premiseStrength_concat, premiseStrength_concat]
      exact ih.apply hconfig j.1 (hdegree j.2.reference)

theorem complements_dual {r : Rule} (h : config.DeMorgan ∨ r.joined = []) :
    Complements (r.strength config degree) (r.dual.strength config degree') := by
  rcases h with hconfig | hsingle
  · exact complements_premise hdegree hconfig r.antecedent r.joined
  · rw [Rule.strength, Rule.strength, Rule.dual, hsingle]
    exact (hdegree r.antecedent.reference).seed

end Complements

/-! ## Engines -/

namespace Engine

variable {K : Type} [Field K] [LinearOrder K] [IsStrictOrderedRing K] [Elementary K]
  {e e' : Engine (Extended K)}

/-- Over the same kept degrees the flip of a reference has the complementary degree, whatever number
was kept. -/
theorem complements_antecedentDegree
    (hdegrees : e'.inputMemberships.map Membership.degree =
      e.inputMemberships.map Membership.degree) (r : Reference) :
    Complements (e.antecedentDegree r) (e'.antecedentDegree r.flip) := by
  have hkept : e'.inputMemberships[r.index]?.map (fun m => m.degree) =
      e.inputMemberships[r.index]?.map fun m => m.degree := by
    rw [← List.getElem?_map, ← List.getElem?_map]
    exact congrArg (·[r.index]?) hdegrees
  obtain ⟨x, hx, hunit⟩ := within_unit_iff.1 (Scalar.within_unit
    ((e.inputMemberships[r.index]?.map fun m => m.degree).getD 0))
  have hcomplement : Complements (finite x) (1 - finite x) := ⟨x, hx, rfl, finite_sub 1 x⟩
  simp only [antecedentDegree, Reference.polarize, Reference.flip, hkept, hunit]
  cases r.negated with
  | false => exact hcomplement
  | true => exact hcomplement.symm

/-- An inference without weights stores the strength of a rule that its stream opens with. -/
theorem Serves.getElem?_strengths {α : Type} [Scalar α] {e : Engine α} {w : Width} {sizes : Sizes}
    {n : ℕ} {stream : List Int} (h : e.Serves w sizes n stream) (hweights : e.weights = none)
    {rules : List Rule} (hopens : Opens w sizes stream rules) (hlength : rules.length ≤ n) {i : ℕ}
    {r : Rule} (hr : rules[i]? = some r) :
    e.inference.1.strengths[i]? = some (r.strength e.config e.antecedentDegree * 1) := by
  obtain ⟨completed, -, -, -, hstrengths, hlongest⟩ := h.inference_opens
  obtain ⟨later, hlater⟩ := hlongest rules hopens hlength
  have hlt := (List.getElem?_eq_some_iff.1 hr).1
  have hcompleted : completed[i]? = some r := by
    rw [← hlater, List.getElem?_append_left hlt, hr]
  have hweight := (h.weight_spec (Nat.lt_of_lt_of_le hlt hlength)).1 hweights
  rw [hstrengths, getElem?_stored_of_getElem? e e.strengths hcompleted, hweight]

/-- In exact arithmetic, let two engines hold the same kept degrees, whatever these are, bind the
same operators to the connectives and have no weights. Then inference gives a rule of one and its
dual in the other complementary strengths, if the operators are dual or the rule has one antecedent
only. With one antecedent the strength is the kept degree, confined, or its complement if the
antecedent is negated. -/
theorem dual_strength_complements {w w' : Width} {architecture architecture' : Architecture}
    {tables tables' : Tables (Extended K)} {stream stream' : List Int} {n n' : ℕ}
    {config config' : Config} {e₀ e₀' : Engine (Extended K)}
    (hsetup : setup w architecture tables stream n config = .ok e₀)
    (hsetup' : setup w' architecture' tables' stream' n' config' = .ok e₀')
    (cs cs' : List (Command (Extended K))) (he : e₀.run cs = e) (he' : e₀'.run cs' = e')
    (hdegrees : e'.inputMemberships.map Membership.degree =
      e.inputMemberships.map Membership.degree)
    (hand : e'.config.andOperator = e.config.andOperator)
    (hor : e'.config.orOperator = e.config.orOperator)
    (hweights : e.weights = none) (hweights' : e'.weights = none) {rules rules' : List Rule}
    (hopens : Opens w tables.sizes stream rules) (hlength : rules.length ≤ n)
    (hopens' : Opens w' tables'.sizes stream' rules') (hlength' : rules'.length ≤ n') :
    (∀ (i j : ℕ) (r : Rule), rules[i]? = some r → rules'[j]? = some r.dual →
      e.config.DeMorgan ∨ r.joined = [] →
      ∃ s ∈ Set.Icc (0 : K) 1, e.inference.1.strengths[i]? = some (finite s) ∧
        e'.inference.1.strengths[j]? = some (finite (1 - s))) ∧
      ∀ (i : ℕ) (r : Rule), rules[i]? = some r → r.joined = [] →
        ∃ m, e.inputMemberships[r.antecedent.reference.index]? = some m ∧
          ∃ s ∈ Set.Icc (0 : K) 1, Scalar.unit m.degree = finite s ∧
            e.inference.1.strengths[i]? =
              some (finite (if r.antecedent.reference.negated then 1 - s else s)) := by
  have hserves : e.Serves w tables.sizes n stream := by
    rw [← he]
    exact serves_run hsetup cs
  have hserves' : e'.Serves w' tables'.sizes n' stream' := by
    rw [← he']
    exact serves_run hsetup' cs'
  constructor
  · intro i j r hr hdual hcase
    -- the premise of the dual is composed with the operators of the first engine
    have hoperators : ∀ degree : Reference → Extended K,
        r.dual.strength e'.config degree = r.dual.strength e.config degree := by
      intro degree
      have hsame : ∀ c : Connective, c.operator e'.config = c.operator e.config := by
        intro c
        cases c with
        | and => exact hand
        | or => exact hor
      rw [Rule.strength, Rule.strength, premiseStrength, premiseStrength]
      simp only [hsame]
    obtain ⟨s, hs, hstrength, hstrength'⟩ :=
      (complements_dual (complements_antecedentDegree hdegrees) hcase).unweighted
    refine ⟨s, hs, ?_, ?_⟩
    · rw [hserves.getElem?_strengths hweights hopens hlength hr, hstrength]
    · rw [hserves'.getElem?_strengths hweights' hopens' hlength' hdual, hoperators, hstrength']
  · intro i r hr hsingle
    have hwithin := (hopens.within r (List.mem_of_getElem? hr)).1 r.antecedent
      List.mem_cons_self
    obtain ⟨m, hm, hdegree⟩ := hserves.antecedentDegree_spec hwithin
    obtain ⟨s, hs, hunit⟩ := within_unit_iff.1 (Scalar.within_unit m.degree)
    have hpolar : e.antecedentDegree r.antecedent.reference =
        finite (if r.antecedent.reference.negated then 1 - s else s) := by
      rw [hdegree, ← Scalar.unit, hunit, one_eq, finite_sub]
      split <;> rfl
    have hmem : (if r.antecedent.reference.negated then 1 - s else s) ∈ Set.Icc (0 : K) 1 := by
      split
      · exact one_sub_mem hs
      · exact hs
    refine ⟨m, hm, s, hs, hunit, ?_⟩
    rw [hserves.getElem?_strengths hweights hopens hlength hr, Rule.strength, premiseStrength,
      hsingle, List.foldl_nil, hpolar, sum_apply_zero hmem, one_eq, finite_mul, mul_one]

/-- The engine of the two dual rules in rational numbers. -/
def rationalDuals : Engine (Extended ℚ) :=
  { rationalTwoRules with rules := Rule.stream .byte (twoRules.map Rule.dual) }

theorem setup_rationalDuals :
    setup .byte .mamdani (.blank ⟨2, 2, 2, 2⟩ 2) (Rule.stream .byte (twoRules.map Rule.dual)) 2
      .mamdaniClassic = .ok rationalDuals := rfl

/-- The same session with the two rules and with their duals. -/
theorem dual_strength_complements_twoRules :
    ∃ s ∈ Set.Icc (0 : ℚ) 1,
      (rationalTwoRules.run twoRuleBisection).inference.1.strengths[0]? = some (finite s) ∧
      (rationalDuals.run twoRuleBisection).inference.1.strengths[0]? = some (finite (1 - s)) := by
  have hwithin : ∀ r ∈ twoRules, r.Within ⟨2, 2, 2, 2⟩ := by decide
  have hduals : ∀ r ∈ twoRules.map Rule.dual, r.Within ⟨2, 2, 2, 2⟩ :=
    List.forall_mem_map.2 fun r hr => Rule.within_dual_iff.2 (hwithin r hr)
  have hdegrees : (rationalDuals.run twoRuleBisection).inputMemberships.map Membership.degree =
      (rationalTwoRules.run twoRuleBisection).inputMemberships.map Membership.degree := by
    decide +kernel
  have hconfig : (rationalDuals.run twoRuleBisection).config =
      (rationalTwoRules.run twoRuleBisection).config := by
    decide +kernel
  have hoperators : (rationalTwoRules.run twoRuleBisection).config.DeMorgan :=
    .inl ⟨by decide +kernel, by decide +kernel⟩
  obtain ⟨hcomplements, -⟩ := dual_strength_complements setup_rationalTwoRules setup_rationalDuals
    twoRuleBisection twoRuleBisection rfl rfl hdegrees (congrArg Config.andOperator hconfig)
    (congrArg Config.orOperator hconfig) (by decide +kernel) (by decide +kernel)
    (opens_stream hwithin) (Nat.le_refl 2) (opens_stream hduals) (Nat.le_refl 2)
  exact hcomplements 0 0 _ rfl rfl (.inl hoperators)

end Engine

end FuzzyInference
