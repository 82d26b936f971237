import FuzzyInference.Proofs.Lawful
import Mathlib

/-!
# Doubles are lawful

The double-precision numbers satisfy the laws of `Scalar.Lawful`. A double is worked with through
its parts: a sign, a mantissa of at most 53 bits and an exponent, or one of the special values.

Comparison is oriented (`compare_swap`) and undefined only where an operand is
(`compare_eq_none_iff`); the laws of comparison follow. For the law of products, `Degree` names the
parts of the numbers between 0 and 1. A product of two of them is rounded to one of them
(`degree_mul`): it is at most 1 before it is rounded, and when rounding makes its mantissa too long
by one bit, the exponent was still below that of 1. Packing keeps it one of them (`degree_pack`).
-/

set_option autoImplicit false

namespace FuzzyInference.Double

open Float.Model Float.Model.UnpackedFloat

/-- The parts of a double. -/
def parts (x : Float) : UnpackedFloat := x.toModel.unpack

/-! ## Comparison -/

theorem compare_finite_swap (m m' : Nat) (e e' : Int) :
    (compare e' e).then (compare m' m) = ((compare e e').then (compare m m')).swap := by
  rw [Ordering.swap_then, @Std.OrientedCmp.eq_swap _ compare _ e' e,
    @Std.OrientedCmp.eq_swap _ compare _ m' m]

/-- Comparison is oriented. -/
theorem compare_swap (a b : UnpackedFloat) : b.compare a = (a.compare b).map Ordering.swap := by
  rcases a with (_ | _) | _ | (_ | _) | ⟨_ | _, m, e, h⟩ <;>
    rcases b with (_ | _) | _ | (_ | _) | ⟨_ | _, m', e', h'⟩ <;>
    first
    | rfl
    | exact congrArg some (compare_finite_swap m m' e e')
    | exact congrArg (fun o => some (Ordering.swap o)) (compare_finite_swap m m' e e')

/-- Only an undefined number does not compare. -/
theorem compare_eq_none_iff (a b : UnpackedFloat) :
    a.compare b = none ↔ a = .notANumber ∨ b = .notANumber := by
  rcases a with (_ | _) | _ | (_ | _) | ⟨_ | _, m, e, h⟩ <;>
    rcases b with (_ | _) | _ | (_ | _) | ⟨_ | _, m', e', h'⟩ <;>
    simp [UnpackedFloat.compare]

theorem compare_self {a : UnpackedFloat} (h : a ≠ .notANumber) : a.compare a = some .eq := by
  have hswap := compare_swap a a
  cases hcompare : a.compare a with
  | none => exact absurd (or_self_iff.1 ((compare_eq_none_iff a a).1 hcompare)) h
  | some o =>
      rw [hcompare] at hswap
      cases o with
      | lt => cases hswap
      | eq => rfl
      | gt => cases hswap

theorem le_iff {x y : Float} : x ≤ y ↔ (parts x).le (parts y) = true := by
  show decide (x.toModel ≤ y.toModel) = true ↔ _
  exact decide_eq_true_iff

theorem lt_iff {x y : Float} : x < y ↔ (parts x).lt (parts y) = true := by
  show decide (x.toModel < y.toModel) = true ↔ _
  exact decide_eq_true_iff

theorem isNaN_iff {x : Float} : Scalar.IsNaN x ↔ parts x = .notANumber := by
  rw [Scalar.IsNaN, show x ≤ x ↔ _ from le_iff, UnpackedFloat.le]
  constructor
  · intro hnot
    by_cases h : parts x = .notANumber
    · exact h
    · rw [compare_self h] at hnot
      exact absurd rfl hnot
  · intro h
    rw [h]
    exact nofun

theorem defined_of_le {x y : Float} (h : x ≤ y) : ¬ Scalar.IsNaN x ∧ ¬ Scalar.IsNaN y := by
  rw [isNaN_iff, isNaN_iff, ← not_or, ← compare_eq_none_iff]
  intro hnone
  rw [le_iff, UnpackedFloat.le, hnone] at h
  cases h

theorem lt_iff_le_not_le {x y : Float} : x < y ↔ x ≤ y ∧ ¬ y ≤ x := by
  rw [lt_iff, le_iff, le_iff, UnpackedFloat.lt, UnpackedFloat.le, UnpackedFloat.le,
    compare_swap (parts x) (parts y)]
  cases (parts x).compare (parts y) with
  | none => simp
  | some o => cases o <;> simp

theorem le_or_le {x y : Float} (hx : ¬ Scalar.IsNaN x) (hy : ¬ Scalar.IsNaN y) :
    x ≤ y ∨ y ≤ x := by
  rw [isNaN_iff] at hx hy
  rw [le_iff, le_iff, UnpackedFloat.le, UnpackedFloat.le, compare_swap (parts x) (parts y)]
  cases hcompare : (parts x).compare (parts y) with
  | none => exact absurd ((compare_eq_none_iff _ _).1 hcompare) (not_or.2 ⟨hx, hy⟩)
  | some o => cases o <;> simp

/-! ## The numbers between 0 and 1 -/

/-- The mantissa and the exponent of a number that is at most 1. -/
def Small (m : Nat) (e : Int) : Prop := (m < 2 ^ 53 ∧ e ≤ -53) ∨ (m ≤ 2 ^ 52 ∧ e = -52)

/-- The numbers between 0 and 1. -/
inductive Degree : UnpackedFloat → Prop where
  | zero (s : Sign) : Degree (.zero s)
  | finite {m : Nat} {e : Int} (h : 0 < m) (hsmall : Small m e) :
      Degree (.finite .positive m e h)

theorem isLE_compare_iff {m : Nat} {e : Int} (hm : m < 2 ^ 53) :
    ((compare e (-52)).then (compare m (2 ^ 52))).isLE = true ↔ Small m e := by
  rw [Ordering.isLE_then_iff_or, Int.compare_eq_lt, Int.compare_eq_eq, Nat.isLE_compare, Small]
  omega

theorem degree_iff {u : UnpackedFloat} (hbits : ∀ s m e h, u = .finite s m e h → m < 2 ^ 53) :
    ((UnpackedFloat.zero .positive).le u = true ∧
      u.le (.finite .positive (2 ^ 52) (-52) (by decide)) = true) ↔ Degree u := by
  constructor
  · rintro ⟨hlower, hupper⟩
    rcases u with (_ | _) | _ | s | ⟨_ | _, m, e, h⟩
    · cases hlower
    · cases hupper
    · cases hlower
    · exact .zero s
    · cases hlower
    · exact .finite h ((isLE_compare_iff (hbits _ m e h rfl)).1 hupper)
  · intro h
    cases h with
    | zero s => exact ⟨rfl, rfl⟩
    | @finite m e h hsmall =>
        exact ⟨rfl, (isLE_compare_iff (hbits _ m e h rfl)).2 hsmall⟩

/-! ## Rounding -/

theorem mantissa_shiftRight (em : ExtendedMantissa) (n : Nat) :
    (em >>> n).mantissa = em.mantissa / 2 ^ n := by
  show (Nat.repeat ExtendedMantissa.shiftRightOne n em).mantissa = _
  induction n with
  | zero => simp [Nat.repeat]
  | succ n ih =>
      rw [Nat.repeat, ExtendedMantissa.shiftRightOne, ih, Nat.div_div_eq_div_mul, Nat.pow_succ]

theorem roundedMantissa_le (em : ExtendedMantissa) : em.roundedMantissa ≤ em.mantissa + 1 := by
  rw [ExtendedMantissa.roundedMantissa]
  rcases em.accuracy with _ | _ | _ | _
  all_goals simp [Accuracy.roundToNearestEven]
  omega

/-- Where a shift to the target exponent leads. -/
theorem shiftToTargetExponent_exact (m : Nat) (e : Int) :
    ∃ n : Nat, (n : Int) = max 0 (max (m.log2 + 1 + e - 53) (-1074) - e) ∧
      (shiftToTargetExponent .binary64 m e .exact).1.mantissa = m / 2 ^ n ∧
      (shiftToTargetExponent .binary64 m e .exact).2 = e + n := by
  refine ⟨_, ?_, mantissa_shiftRight _ _, rfl⟩
  have hmin : Format.binary64.minExponent = -1074 := by decide
  have hbits : (Format.binary64.mantissaBits : Int) = 53 := by decide
  rw [Format.targetExponent, totalExponent, hmin, hbits]
  omega

theorem degree_of_small {m : Nat} {e : Int} (h : Small m e) :
    Degree (if hm : m = 0 then .zero .positive
      else .finite .positive m e (Nat.pos_of_ne_zero hm)) := by
  split
  · exact .zero .positive
  · exact .finite _ h

/-- A mantissa of at most 53 bits, or the next power of two, at an exponent below that of 1. -/
theorem small_shift {m n : Nat} {e : Int} (hm : m ≤ 2 ^ 53) (he : e ≤ -53)
    (hn : (n : Int) = max 0 (max (m.log2 + 1 + e - 53) (-1074) - e)) :
    Small (m / 2 ^ n) (e + n) := by
  rcases Nat.lt_or_eq_of_le hm with hlt | rfl
  · have hlog : m.log2 ≤ 52 := by
      by_cases hzero : m = 0
      · rw [hzero]; decide
      · exact Nat.le_of_lt_succ ((Nat.log2_lt hzero).2 hlt)
    exact Or.inl ⟨Nat.lt_of_le_of_lt (Nat.div_le_self _ _) hlt, by omega⟩
  · have hlog : (2 ^ 53).log2 = 53 := Nat.log2_two_pow
    rw [hlog] at hn
    -- the mantissa has become too long by one bit, which the shift takes away again
    have hhalf : 2 ^ 53 / 2 ^ n ≤ 2 ^ 52 := by
      have hn' : 2 ^ 1 ≤ 2 ^ n := Nat.pow_le_pow_right (by decide) (by omega)
      exact Nat.div_le_div_left hn' (by decide)
    by_cases hexponent : e + n ≤ -53
    · exact Or.inl ⟨Nat.lt_of_le_of_lt hhalf (by decide), hexponent⟩
    · exact Or.inr ⟨hhalf, by omega⟩

/-- A product of less than 1 is rounded to at most 1. -/
theorem degree_round {m k : Nat} {e : Int} (he : e = -(k : Int)) (hk : 53 ≤ k) (hm : 0 < m)
    (hlt : m < 2 ^ k) : Degree (roundWithAccuracy .binary64 .positive m e .exact) := by
  obtain ⟨n, hn, hmantissa, hexponent⟩ := shiftToTargetExponent_exact m e
  rw [roundWithAccuracy]
  generalize shiftToTargetExponent .binary64 m e .exact = shifted at hmantissa hexponent
  rcases shifted with ⟨em, e₁⟩
  dsimp only at hmantissa hexponent ⊢
  have hlog : m.log2 < k := (Nat.log2_lt (Nat.ne_of_gt hm)).2 hlt
  have hshort : em.mantissa < 2 ^ 53 := by
    rw [hmantissa, Nat.div_lt_iff_lt_mul (Nat.two_pow_pos n), ← Nat.pow_add]
    refine Nat.lt_of_lt_of_le Nat.lt_log2_self (Nat.pow_le_pow_right (by decide) ?_)
    omega
  have hrounded : em.roundedMantissa ≤ 2 ^ 53 :=
    Nat.le_trans (roundedMantissa_le em) hshort
  obtain ⟨n', hn', hmantissa', hexponent'⟩ := shiftToTargetExponent_exact em.roundedMantissa e₁
  refine degree_of_small ?_
  rw [hmantissa', hexponent']
  exact small_shift hrounded (by omega) hn'

/-- A number that is at most 1 is 1 or less than 1. -/
theorem Small.eq_or_lt {m : Nat} {e : Int} (h : Small m e) :
    (m = 2 ^ 52 ∧ e = -52) ∨ ∃ k : Nat, e = -(k : Int) ∧ 52 ≤ k ∧ m < 2 ^ k := by
  rcases h with ⟨hm, he⟩ | ⟨hm, rfl⟩
  · refine Or.inr ⟨(-e).toNat, by omega, by omega, Nat.lt_of_lt_of_le hm ?_⟩
    exact Nat.pow_le_pow_right (by decide) (by omega)
  · rcases Nat.lt_or_eq_of_le hm with hlt | rfl
    · exact Or.inr ⟨52, rfl, Nat.le_refl 52, hlt⟩
    · exact Or.inl ⟨rfl, rfl⟩

theorem degree_mul {u v : UnpackedFloat} (hu : Degree u) (hv : Degree v) :
    Degree (UnpackedFloat.mul .binary64 u v) := by
  cases hu with
  | zero s => cases hv <;> exact .zero _
  | @finite m e hm hsmall =>
      cases hv with
      | zero s => exact .zero _
      | @finite m' e' hm' hsmall' =>
          show Degree (roundWithAccuracy .binary64 .positive (m * m') (e + e') .exact)
          have hpos : 0 < m * m' := Nat.mul_pos hm hm'
          rcases hsmall.eq_or_lt with ⟨rfl, rfl⟩ | ⟨k, rfl, hk, hlt⟩
          · rcases hsmall'.eq_or_lt with ⟨rfl, rfl⟩ | ⟨k', rfl, hk', hlt'⟩
            · exact .finite (by decide) (Or.inr ⟨Nat.le_refl _, rfl⟩)
            · refine degree_round (k := 52 + k') (by omega) (by omega) hpos ?_
              rw [Nat.pow_add]
              exact Nat.mul_lt_mul_of_pos_left hlt' (by decide)
          · rcases hsmall'.eq_or_lt with ⟨rfl, rfl⟩ | ⟨k', rfl, hk', hlt'⟩
            · refine degree_round (k := k + 52) (by omega) (by omega) hpos ?_
              rw [Nat.pow_add]
              exact Nat.mul_lt_mul_of_pos_right hlt (by decide)
            · refine degree_round (k := k + k') (by omega) (by omega) hpos ?_
              rw [Nat.pow_add]
              exact Nat.mul_lt_mul'' hlt hlt'

/-! ## Packing -/

theorem toNat_implicit (v : BitVec 52) : (1#1 ++ v).toNat = 2 ^ 52 + v.toNat := by
  rw [BitVec.toNat_append, Nat.shiftLeft_eq]
  exact (Nat.two_pow_add_eq_or_of_lt v.isLt 1).symm

/-- Bits that encode a number of at most 1. -/
theorem degree_unpack {ev : BitVec 11} {mv : BitVec 52}
    (h : ev.toNat ≤ 1022 ∨ (ev.toNat = 1023 ∧ mv.toNat = 0)) :
    Degree (UnpackedFloat.unpack .binary64 (packComponents .binary64 .positive ev mv)) := by
  have hbias : (Format.binary64.exponentBias : Int) = 1023 := rfl
  have hfull : ev ≠ -1#11 := by
    intro heq
    have hev : ev.toNat = 2047 := by rw [heq]; rfl
    omega
  have hmv := mv.isLt
  rw [UnpackedFloat.unpack]
  simp only [unpackMantissa_packComponents, unpackExponent_packComponents,
    unpackSign_packComponents, Sign.ofBitVec_toBitVec]
  rw [if_neg hfull]
  split
  · rename_i hzero
    split
    · exact .zero _
    · refine .finite _ (Or.inl ⟨by omega, ?_⟩)
      rw [hzero, hbias]
      decide
  · refine .finite _ ?_
    rw [toNat_implicit, hbias]
    rcases h with h | ⟨h, hmv⟩
    · exact Or.inl ⟨by omega, by omega⟩
    · exact Or.inr ⟨by omega, by omega⟩

theorem degree_pack {u : UnpackedFloat} (h : Degree u) :
    Degree (UnpackedFloat.unpack .binary64 (UnpackedFloat.pack .binary64 u)) := by
  cases h with
  | zero s => cases s <;> exact .zero _
  | @finite m e hm hsmall =>
      have hle : e ≤ -52 := by rcases hsmall with h | h <;> omega
      have hbiased : (e + Format.binary64.exponentBias +
          Format.binary64.mantissaBitsWithoutImplicit).toNat = (e + 1075).toNat := by
        show (e + (1023 : Nat) + (52 : Nat)).toNat = (e + 1075).toNat
        omega
      have hbits : Format.binary64.mantissaBits = 53 := rfl
      rw [UnpackedFloat.pack]
      simp only [hbiased, hbits]
      rw [if_neg (by omega)]
      split
      · rename_i hlog
        refine degree_unpack ?_
        rw [BitVec.toNat_ofNat, BitVec.toNat_ofNat]
        rcases hsmall with ⟨hm', he⟩ | ⟨hm', rfl⟩
        · left
          omega
        · have hlower : 2 ^ 52 ≤ m := (Nat.le_log2 (Nat.ne_of_gt hm)).1 (by omega)
          right
          omega
      · exact degree_unpack (Or.inl (Nat.zero_le _))

/-! ## The laws -/

theorem mantissa_parts {x : Float} {s : Sign} {m : Nat} {e : Int} {h : 0 < m}
    (hx : parts x = .finite s m e h) : m < 2 ^ 53 := by
  rw [parts, Float.Model.unpack, UnpackedFloat.unpack] at hx
  dsimp only at hx
  split at hx
  · split at hx <;> cases hx
  · split at hx
    · split at hx
      · cases hx
      · cases hx
        exact Nat.lt_of_lt_of_le (BitVec.isLt _) (by decide)
    · cases hx
      exact BitVec.isLt _

theorem within_iff {x : Float} :
    Scalar.Within (Zero.zero : Float) (One.one : Float) x ↔ Degree (parts x) := by
  rw [← degree_iff fun _ _ _ _ => mantissa_parts]
  have hzero : (Zero.zero : Float) ≤ x ↔ (UnpackedFloat.zero .positive).le (parts x) = true :=
    le_iff
  have hone : x ≤ (One.one : Float) ↔
      (parts x).le (.finite .positive (2 ^ 52) (-52) (by decide)) = true := le_iff
  constructor
  · intro h
    exact ⟨hzero.1 h.lower, hone.1 h.upper⟩
  · rintro ⟨hlower, hupper⟩
    exact ⟨(defined_of_le (hzero.2 hlower)).2, hzero.2 hlower, hone.2 hupper⟩

theorem within_mul {x y : Float} (hx : Scalar.Within (Zero.zero : Float) (One.one : Float) x)
    (hy : Scalar.Within (Zero.zero : Float) (One.one : Float) y) :
    Scalar.Within (Zero.zero : Float) (One.one : Float) (x * y) := by
  rw [within_iff] at hx hy ⊢
  exact degree_pack (degree_mul hx hy)

instance : Scalar.Lawful Float where
  defined_of_le := defined_of_le
  lt_iff := lt_iff_le_not_le
  le_or_le := le_or_le
  zero_lt_one := by decide +kernel
  neg_one_lt_one := by decide +kernel
  within_mul := within_mul

end FuzzyInference.Double
