import FuzzyInference.Proofs.Exact
import FuzzyInference.Proofs.Rearranged

/-!
# The order of rules

With exact numbers it does not matter in which order the rules of a system are written. The rules
are independent of each other until the outputs collect what they assert, and there either degrees
are folded by an operator that is commutative and associative on them, or numbers are added.

A permutation of the rules is a permutation `order` of their numbers, and `pick order` carries it
out, on the rules as on their weights. Undefined and infinite numbers need no exception: the
operators confine them, and a sum of extended numbers does not depend on the order either.
-/

set_option autoImplicit false

namespace FuzzyInference

/-! ## Permuted lists -/

section Pick

variable {β γ : Type} {order : List Nat} {xs : List β}

theorem pick_range (xs : List β) : pick (List.range xs.length) xs = xs := by
  apply List.ext_getElem?
  intro i
  rw [getElem?_pick fun j hj => List.mem_range.1 hj]
  by_cases hi : i < xs.length
  · simp [hi]
  · simp [hi]

theorem map_pick (f : β → γ) : (pick order xs).map f = pick order (xs.map f) := by
  simp [pick, List.map_filterMap]

theorem pick_perm (h : order.Perm (List.range xs.length)) : (pick order xs).Perm xs := by
  have hpick : (pick order xs).Perm (pick (List.range xs.length) xs) := h.filterMap _
  rwa [pick_range] at hpick

/-- What is picked, with the numbers of the places. -/
theorem zip_pick (h : order.Perm (List.range xs.length)) :
    (pick order xs).zip order = pick order xs.zipIdx := by
  have hnumber : ∀ i ∈ order, (List.range xs.length)[i]? = some i := fun i hi =>
    List.getElem?_range (List.mem_range.1 (h.mem_iff.1 hi))
  have hnumbers : pick order (List.range xs.length) = order :=
    (List.filterMap_congr hnumber).trans List.filterMap_some
  refine (List.zip_of_prod ?_ ?_).symm
  · rw [map_pick, List.zipIdx_map_fst]
  · rw [map_pick, List.zipIdx_map_snd, ← List.range_eq_range', hnumbers]

end Pick

/-- Permuted rules are the rules in another arrangement. -/
theorem Rearranges.of_perm {order : List Nat} {rules : List Rule}
    (h : order.Perm (List.range rules.length)) : Rearranges order rules (pick order rules) := by
  have hmem : ∀ i, i ∈ order ↔ i < rules.length := fun i => h.mem_iff.trans List.mem_range
  constructor
  case length => exact length_pick_eq_iff.2 fun i hi => (hmem i).1 hi
  case mem_iff => exact hmem
  case premise =>
    intro i j r hij hr
    refine ⟨r, ?_, rfl, rfl⟩
    rw [getElem?_pick fun i hi => (hmem i).1 hi, hij, Option.bind_some, hr]
  case within =>
    intro sizes
    simp only [(pick_perm h).mem_iff]

/-! ## Folds and sums over permuted consequents -/

namespace Operator

variable {α : Type} [Scalar α] [Scalar.Lawful α]

/-- The operator applied to a degree and any number. The result is a degree. -/
def onto (op : Operator) (y : {y : α // Scalar.Within 0 1 y}) (x : α) :
    {y : α // Scalar.Within 0 1 y} :=
  ⟨op.apply y.1 x, op.within_apply y.1 x⟩

theorem foldl_onto {β : Type} (op : Operator) (x : β → α) (l : List β)
    (y : {y : α // Scalar.Within 0 1 y}) :
    (l.foldl (fun y b => op.onto y (x b)) y).1 = l.foldl (fun y b => op.apply y (x b)) y.1 := by
  induction l generalizing y with
  | nil => rfl
  | cons b l ih => exact ih (op.onto y (x b))

end Operator

variable {K : Type} [Field K] [LinearOrder K] [Elementary K]

namespace Firing

variable {fs fs' : List (Firing (Extended K))}

theorem sumW_eq_of_perm (h : fs'.Perm fs) : sumW fs' = sumW fs :=
  h.foldl_eq' (fun f _ f' _ sum => Extended.add_right_comm sum f.strength f'.strength) 0

theorem sumWZ_eq_of_perm (h : fs'.Perm fs) (z : Firing (Extended K) → Extended K) :
    sumWZ z fs' = sumWZ z fs :=
  h.foldl_eq' (fun f _ f' _ sum =>
    Extended.add_right_comm sum (f.strength * z f) (f'.strength * z f')) 0

variable [IsStrictOrderedRing K]

/-- Implied degrees are degrees, and so is what they are folded into. -/
theorem degree_eq_of_perm (h : fs'.Perm fs) (config : Config)
    (memberships : List (Membership (Extended K))) :
    degree config memberships fs' = degree config memberships fs := by
  funext v
  have hdegree : ∀ fs : List (Firing (Extended K)), degree config memberships fs v =
      (fs.foldl (fun y f => config.aggregation.onto y (f.implied config memberships v))
        ⟨0, Scalar.within_zero⟩).1 :=
    fun fs => (Operator.foldl_onto config.aggregation _ fs ⟨0, Scalar.within_zero⟩).symm
  rw [hdegree, hdegree]
  congr 1
  -- the operands may be exchanged only on degrees, hence the fold over the numbers of the range
  refine h.foldl_eq' (fun f _ f' _ y => ?_) _
  apply Subtype.ext
  exact config.aggregation.apply_right_comm y.2 (config.implication.within_apply ..)
    (config.implication.within_apply ..)

end Firing

namespace Engine

/-! ## Permuted rule bases -/

section Permuted

variable {α : Type} [Scalar α]

/-- Permuted rules assert about an output what the rules assert, in another order. -/
theorem Rearranged.firing_perm {order : List Nat} {rules : List Rule} {e e' : Engine α}
    (h : Rearranged order rules (pick order rules) e e')
    (horder : order.Perm (List.range rules.length)) (hstatus : e.status = .succeeded) (o : Nat) :
    (e'.firing o).Perm (e.firing o) := by
  have hpairs : (pick order rules.zipIdx).Perm rules.zipIdx :=
    pick_perm (by rwa [List.length_zipIdx])
  rw [h.firing_eq hstatus, h.firing_eq' (.of_perm horder) hstatus, zip_pick horder]
  exact hpairs.flatMap_right _

end Permuted

variable [IsStrictOrderedRing K]

/-- With exact numbers, an engine over permuted rules tells the same about every output. -/
theorem Rearranged.toldAlike_of_perm {order : List Nat} {rules : List Rule}
    {e e' : Engine (Extended K)} (h : Rearranged order rules (pick order rules) e e')
    (horder : order.Perm (List.range rules.length)) (hstatus : e.status = .succeeded) (o : Nat)
    (out : Output (Extended K)) : ToldAlike e e' o out := by
  have hperm := h.firing_perm horder hstatus o
  constructor
  case curve =>
    intro _
    rw [h.curve_eq, Firing.degree_eq_of_perm hperm, curve_eq_degree]
  case sums =>
    intro _
    exact ⟨Firing.sumWZ_eq_of_perm hperm _, Firing.sumW_eq_of_perm hperm⟩

/-- With exact numbers the order of the rules does not matter. Where an engine over rules can be set
up, so can one over the permuted rules. Under the same commands, with the weights permuted like the
rules, it accepts the rules whenever the first one does, the strengths are permuted like the rules,
and all outputs are the same: the curve at every sample of a Mamdani system, the sums of any other,
and the crisp values of every method. The shapes may return any numbers. -/
theorem rule_order_irrelevant {w : Width} {architecture : Architecture}
    {tables : Tables (Extended K)} {rules : List Rule} {n : Nat} {config : Config}
    {e₀ : Engine (Extended K)}
    (hsetup : setup w architecture tables (Rule.stream w rules) n config = .ok e₀)
    {order : List Nat} (horder : order.Perm (List.range rules.length)) :
    ∃ e₀', setup w architecture tables (Rule.stream w (pick order rules)) n config = .ok e₀' ∧
      ∀ (cs : List (Command (Extended K))) (e e' : Engine (Extended K)), e₀.run cs = e →
        e₀'.run (cs.map (Command.rearranged order)) = e' → AnswersAlike order e e' := by
  have hrearranges : Rearranges order rules (pick order rules) := .of_perm horder
  have hslots : n ≤ tables.strengths.length := (setup_eq_ok_iff.1 hsetup).2.1
  obtain ⟨e₀', hsetup', hstart⟩ := exists_rearranged hrearranges hsetup
    (by rw [(pick_perm horder).length_eq]) hslots
  refine ⟨e₀', hsetup', ?_⟩
  rintro cs e e' rfl rfl
  have hrun : Rearranged order rules (pick order rules) (e₀.run cs)
      (e₀'.run (cs.map (Command.rearranged order))) :=
    hstart.run hrearranges cs fun pre _ hstatus f' hf' o out _ =>
      hf'.toldAlike_of_perm horder hstatus o out
  exact hrun.answersAlike hrearranges (exists_ready hsetup cs rfl) (exists_ready hsetup' _ rfl)
    fun hstatus o out _ => hrun.toldAlike_of_perm horder hstatus o out

/-- A session with two rules in rational numbers, with a weight for each. -/
def twoRuleWeighing : List (Command (Extended ℚ)) :=
  [.setWeights [0.5, 0.75], .setupInput 0 0 10.0, .setupOutput 1 (-1) 1,
    .setInputMembership 0 0 (.curve .triangular) [0, 5.0, 10.0] 1,
    .setOutputMembership 1 1 (.curve .linearZ) [-1, 1] 0.75, .setInput 0 3.0, .fuzzify, .inference]

/-- The two rules exchanged. -/
theorem rule_order_irrelevant_twoRules :
    ∃ e₀ e₀' : Engine (Extended ℚ),
      setup .byte .mamdani (.blank ⟨2, 2, 2, 2⟩ 2) (Rule.stream .byte twoRules) 2 .mamdaniClassic =
        .ok e₀ ∧
      [1, 0].Perm (List.range twoRules.length) ∧
      setup .byte .mamdani (.blank ⟨2, 2, 2, 2⟩ 2) (Rule.stream .byte (pick [1, 0] twoRules)) 2
        .mamdaniClassic = .ok e₀' ∧
      AnswersAlike [1, 0] (e₀.run twoRuleWeighing)
        (e₀'.run (twoRuleWeighing.map (Command.rearranged [1, 0]))) := by
  obtain ⟨e₀, hsetup⟩ : ∃ e₀ : Engine (Extended ℚ), setup .byte .mamdani (.blank ⟨2, 2, 2, 2⟩ 2)
      (Rule.stream .byte twoRules) 2 .mamdaniClassic = .ok e₀ := ⟨_, rfl⟩
  have horder : [1, 0].Perm (List.range twoRules.length) := by decide
  obtain ⟨e₀', hsetup', halike⟩ := rule_order_irrelevant hsetup horder
  exact ⟨e₀, e₀', hsetup, horder, hsetup', halike twoRuleWeighing _ _ rfl rfl⟩

end Engine

end FuzzyInference
