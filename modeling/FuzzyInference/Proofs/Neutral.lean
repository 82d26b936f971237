import FuzzyInference.Proofs.SignedZero
import FuzzyInference.Proofs.Weighted

/-!
# Contributions of zero

What a rule without strength would add is a zero (`Operator.isZero_implies`), and a zero folded into
a degree by an aggregation leaves the degree the same (`Operator.same_aggregates`). Neither depends
on what is asserted: undefined, infinite and misplaced degrees are combined with the strength first.

The maximum can change the sign of a degree 0 all the same, so the degree of all consequents and
that of the consequents with strength are compared by `Scalar.Same` (`Firing.same_degree`). A sum
that begins at 0 is settled, and such sums are equal (`Firing.foldl_add_filter`).
-/

set_option autoImplicit false

namespace FuzzyInference

variable {α : Type} [Scalar α]

/-! ## Operations on the same numbers -/

namespace Scalar

variable {a a' b b' : α}

theorem Same.refl (a : α) : Same a a := .inl rfl

theorem Same.symm (h : Same a b) : Same b a := by
  rcases h with rfl | ⟨ha, hb⟩
  · exact .inl rfl
  · exact .inr ⟨hb, ha⟩

theorem Same.trans {c : α} (hab : Same a b) (hbc : Same b c) : Same a c := by
  rcases hab with rfl | ⟨ha, hb⟩
  · exact hbc
  · rcases hbc with rfl | ⟨-, hc⟩
    · exact .inr ⟨ha, hb⟩
    · exact .inr ⟨ha, hc⟩

theorem Settled.add_eq {s : α} (hs : Settled s) (h : Same a b) : s + a = s + b := by
  rcases h with rfl | ⟨ha, hb⟩
  · rfl
  · rw [hs a ha, hs b hb]

section Neutral

variable [NeutralZero α]

theorem Same.le_iff (h : Same a a') (h' : Same b b') : a ≤ b ↔ a' ≤ b' := by
  have hleft : a ≤ b ↔ a' ≤ b := by
    rcases h with rfl | ⟨ha, ha'⟩
    · rfl
    · rw [NeutralZero.zero_le_iff b ha, NeutralZero.zero_le_iff b ha']
  have hright : a' ≤ b ↔ a' ≤ b' := by
    rcases h' with rfl | ⟨hb, hb'⟩
    · rfl
    · rw [NeutralZero.le_zero_iff a' hb, NeutralZero.le_zero_iff a' hb']
  exact hleft.trans hright

theorem Same.add (h : Same a a') (h' : Same b b') : Same (a + b) (a' + b') := by
  have hleft : Same (a + b) (a' + b) := by
    rcases h with rfl | ⟨ha, ha'⟩
    · exact .refl _
    · exact (NeutralZero.zero_add b ha).trans (NeutralZero.zero_add b ha').symm
  apply hleft.trans
  rcases h' with rfl | ⟨hb, hb'⟩
  · exact .refl _
  · exact (NeutralZero.add_zero a' hb).trans (NeutralZero.add_zero a' hb').symm

theorem Same.sub (h : Same a a') (h' : Same b b') : Same (a - b) (a' - b') := by
  have hleft : Same (a - b) (a' - b) := by
    rcases h with rfl | ⟨ha, ha'⟩
    · exact .refl _
    · exact NeutralZero.zero_sub b ha ha'
  apply hleft.trans
  rcases h' with rfl | ⟨hb, hb'⟩
  · exact .refl _
  · exact (NeutralZero.sub_zero a' hb).trans (NeutralZero.sub_zero a' hb').symm

theorem Same.mul_left (x : α) (h : Same a b) : Same (x * a) (x * b) := by
  rcases h with rfl | ⟨ha, hb⟩
  · exact .refl _
  · exact NeutralZero.mul_zero x ha hb

theorem Same.mul_right (x : α) (h : Same a b) : Same (a * x) (b * x) := by
  rw [NeutralZero.mul_comm a, NeutralZero.mul_comm b]
  exact h.mul_left x

theorem Same.abs (h : Same a b) : Same (Scalar.abs a) (Scalar.abs b) := by
  rcases h with rfl | ⟨ha, hb⟩
  · exact .refl _
  · exact .inr ⟨NeutralZero.abs_zero ha, NeutralZero.abs_zero hb⟩

variable [Lawful α]

theorem Same.lt_iff (h : Same a a') (h' : Same b b') : a < b ↔ a' < b' := by
  rw [Lawful.lt_iff, Lawful.lt_iff, h.le_iff h', h'.le_iff h]

omit [NeutralZero α] in
theorem isZero_zero : IsZero (0 : α) := ⟨within_zero.lower, within_zero.lower⟩

/-- Zeros are degrees. -/
theorem IsZero.within (ha : IsZero a) : Within 0 1 a := by
  refine ⟨(Lawful.defined_of_le ha.2).2, ha.2, ?_⟩
  rw [NeutralZero.zero_le_iff 1 ha]
  exact le_of_lt Lawful.zero_lt_one

omit [NeutralZero α] in
theorem isZero_of_not_pos (ha : Within 0 1 a) (hnot : ¬ 0 < a) : IsZero a :=
  ⟨le_of_not_lt within_zero.defined ha.defined hnot, ha.lower⟩

omit [NeutralZero α] in
theorem unit_eq (ha : Within 0 1 a) : unit a = a := clamp_of_within ha

theorem Same.unit (h : Same a b) : Same (Scalar.unit a) (Scalar.unit b) := by
  rcases h with rfl | ⟨ha, hb⟩
  · exact .refl _
  · rw [unit_eq ha.within, unit_eq hb.within]
    exact .inr ⟨ha, hb⟩

/-- What is undefined or not above 0 is confined to a zero. -/
theorem isZero_unit (h : IsNaN a ∨ a ≤ 0) : IsZero (Scalar.unit a) := by
  by_cases hlow : IsNaN a ∨ a < 0
  · rw [Scalar.unit, clamp, if_pos hlow]
    exact isZero_zero
  · obtain ⟨hdefined, hnot⟩ := not_or.1 hlow
    have ha : IsZero a :=
      ⟨h.resolve_left hdefined, le_of_not_lt hdefined within_zero.defined hnot⟩
    rw [unit_eq ha.within]
    exact ha

end Neutral

end Scalar

open Scalar

/-! ## Operators -/

namespace Operator

variable [NeutralZero α] [Lawful α] {y y' z s : α}

theorem same_apply (op : Operator) (h : Same y y') (z : α) :
    Same (op.apply y z) (op.apply y' z) := by
  apply Same.unit
  cases op with
  | min =>
      simp only [combine, h.lt_iff (.refl z)]
      split
      · exact h
      · exact .refl z
  | max =>
      simp only [combine, (Same.refl z).lt_iff h]
      split
      · exact h
      · exact .refl z
  | product => exact h.mul_right z
  | probabilisticOr => exact (h.add (.refl z)).sub (h.mul_right z)
  | sum => exact h.add (.refl z)

/-- No aggregation changes a degree by a zero, except for the sign of a zero. -/
theorem same_aggregates {op : Operator} (hop : Role.aggregation.accepts op = true)
    (hy : Within 0 1 y) (hz : IsZero z) : Same (op.apply y z) y := by
  have hcombine : Same (op.combine y z) y := by
    cases op with
    | min | product => cases hop
    | max =>
        simp only [combine]
        split
        case isTrue => exact .refl y
        case isFalse hnot =>
          -- the degree is not above a zero, so it is a zero
          have hle : y ≤ z := le_of_not_lt hz.within.defined hy.defined hnot
          exact .inr ⟨hz, (NeutralZero.le_zero_iff y hz).1 hle, hy.lower⟩
    | probabilisticOr =>
        have hdefined := (Lawful.within_mul hz.within hy).defined
        have hproduct : IsZero (y * z) := by
          rw [NeutralZero.mul_comm]
          exact (NeutralZero.isZero_mul y hz).resolve_right hdefined
        exact ((NeutralZero.add_zero y hz).sub (.refl _)).trans (NeutralZero.sub_zero y hproduct)
    | sum => exact NeutralZero.add_zero y hz
  have hunit := hcombine.unit
  rwa [unit_eq hy] at hunit

/-- Without strength a rule implies a zero, whatever degree it asserts. -/
theorem isZero_implies {op : Operator} (hop : op = .min ∨ op = .product) (hs : IsZero s) (z : α) :
    IsZero (op.apply s z) := by
  rcases hop with rfl | rfl
  · simp only [apply, combine]
    split
    case isTrue =>
      rw [unit_eq hs.within]
      exact hs
    case isFalse hnot =>
      apply isZero_unit
      by_cases hz : IsNaN z
      · exact .inl hz
      · exact .inr ((NeutralZero.le_zero_iff z hs).1 (le_of_not_lt hs.within.defined hz hnot))
  · apply isZero_unit
    rcases NeutralZero.isZero_mul z hs with hzero | hnan
    · exact .inr hzero.1
    · exact .inl hnan

/-- By the other implications a rule without strength implies the degree that it asserts. -/
theorem same_implies {op : Operator} (hop : op = .max ∨ op = .probabilisticOr) (hs : IsZero s)
    (hz : Within 0 1 z) : Same (op.apply s z) z := by
  have hcombine : Same (op.combine s z) z := by
    rcases hop with rfl | rfl
    · have hnot : ¬ z < s := fun hlt =>
        not_le_of_lt hlt ((NeutralZero.zero_le_iff z hs).2 hz.lower)
      rw [combine, if_neg hnot]
      exact .refl z
    · have hproduct : IsZero (s * z) :=
        (NeutralZero.isZero_mul z hs).resolve_right (Lawful.within_mul hs.within hz).defined
      exact ((NeutralZero.zero_add z hs).sub (.refl _)).trans (NeutralZero.sub_zero z hproduct)
  have hunit := hcombine.unit
  rwa [unit_eq hz] at hunit

end Operator

/-! ## Folds -/

namespace Firing

variable [NeutralZero α] [Lawful α]

/-- Consequents without strength do not change the degree that consequents have together. -/
theorem same_degree {config : Config}
    (himplication : config.implication = .min ∨ config.implication = .product)
    (haggregation : Role.aggregation.accepts config.aggregation = true) {fs : List (Firing α)}
    (hfs : ∀ f ∈ fs, Within 0 1 f.strength) (memberships : List (Membership α))
    (v : Variable α) :
    Same (degree config memberships fs v)
      (degree config memberships (fs.filter fun f => 0 < f.strength) v) := by
  suffices hfold : ∀ y y' : α, Within 0 1 y → Same y y' →
      Same (fs.foldl (fun y f => config.aggregation.apply y (f.implied config memberships v)) y)
        ((fs.filter fun f => 0 < f.strength).foldl
          (fun y f => config.aggregation.apply y (f.implied config memberships v)) y') from
    hfold 0 0 within_zero (.refl 0)
  -- the degree of all consequents has to stay a degree: a zero is neutral for degrees only
  induction fs with
  | nil => exact fun y y' _ h => h
  | cons f fs ih =>
      have ih := ih fun f' hf' => hfs f' (List.mem_cons_of_mem f hf')
      intro y y' hy h
      have hwithin := config.aggregation.within_apply y (f.implied config memberships v)
      by_cases hfires : 0 < f.strength
      · rw [List.filter_cons, if_pos (decide_eq_true hfires)]
        exact ih _ _ hwithin (config.aggregation.same_apply h _)
      · have hstrength := isZero_of_not_pos (hfs f List.mem_cons_self) hfires
        have himplied : IsZero (f.implied config memberships v) :=
          Operator.isZero_implies himplication hstrength _
        have hidle := Operator.same_aggregates haggregation hy himplied
        rw [List.filter_cons, if_neg (mt of_decide_eq_true hfires)]
        exact ih _ _ hwithin (hidle.trans h)

omit [Lawful α] in
/-- Summands that are zeros do not change a settled sum. -/
theorem foldl_add_filter {β : Type} {p : β → Prop} [DecidablePred p] {g : β → α} {l : List β}
    (hzero : ∀ b ∈ l, ¬ p b → IsZero (g b)) {s : α} (hs : Settled s) :
    l.foldl (fun sum b => sum + g b) s =
      (l.filter fun b => p b).foldl (fun sum b => sum + g b) s := by
  -- equality, not only up to signs: the sum is settled at every step
  induction l generalizing s with
  | nil => rfl
  | cons b l ih =>
      have ih := @ih (fun b' hb' => hzero b' (List.mem_cons_of_mem b hb'))
      rw [List.foldl_cons]
      by_cases hb : p b
      · rw [List.filter_cons, if_pos (decide_eq_true hb), List.foldl_cons]
        exact ih (NeutralZero.settled_add (g b) hs)
      · rw [List.filter_cons, if_neg (mt of_decide_eq_true hb),
          hs _ (hzero b List.mem_cons_self hb)]
        exact ih hs

end Firing

end FuzzyInference
