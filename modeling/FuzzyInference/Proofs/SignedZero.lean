import FuzzyInference.Proofs.Undefined

/-!
# Zeros of either sign

A double has two zeros. They compare equal, so no comparison tells them apart, but they are two
numbers, and adding one to the other can change it. `Scalar.Same` identifies them and nothing else.
`Scalar.NeutralZero` collects the laws by which zeros are neutral: sums and differences with a zero
are the same number again, and a product with a zero is a zero, unless the other factor is infinite
or undefined.

A sum that has been started at 0 does not even change its sign when a zero is added. It is
`Scalar.Settled`, and stays so whatever is added to it (`NeutralZero.settled_add`). For doubles this
says that no sum but that of two negative zeros is a negative zero (`Double.negZero_of_add`): an
exact cancellation gives the positive one, and a sum that is not 0 is not rounded to 0, because
every double is a multiple of the smallest one.
-/

set_option autoImplicit false

namespace FuzzyInference

/-! ## The laws -/

namespace Scalar

variable {α : Type} [Scalar α]

/-- A zero of either sign. -/
def IsZero (a : α) : Prop := a ≤ 0 ∧ 0 ≤ a

/-- Equal up to the sign of a zero. -/
def Same (a b : α) : Prop := a = b ∨ IsZero a ∧ IsZero b

/-- Adding a zero of either sign does not change `s`. -/
def Settled (s : α) : Prop := ∀ a, IsZero a → s + a = s

/-- Neither infinite nor undefined. -/
def IsFinite (z : α) : Prop := ¬ IsNaN (z - z)

instance (z : α) : Decidable (IsFinite z) := inferInstanceAs (Decidable (¬ IsNaN (z - z)))

/-- The laws by which zeros are neutral. -/
class NeutralZero (α : Type) [Scalar α] : Prop where
  zero_le_iff {a : α} (b : α) : IsZero a → (a ≤ b ↔ 0 ≤ b)
  le_zero_iff {a : α} (b : α) : IsZero a → (b ≤ a ↔ b ≤ 0)
  add_zero {a : α} (x : α) : IsZero a → Same (x + a) x
  zero_add {a : α} (x : α) : IsZero a → Same (a + x) x
  sub_zero {a : α} (x : α) : IsZero a → Same (x - a) x
  zero_sub {a b : α} (x : α) : IsZero a → IsZero b → Same (a - x) (b - x)
  mul_zero {a b : α} (x : α) : IsZero a → IsZero b → Same (x * a) (x * b)
  mul_comm (a b : α) : a * b = b * a
  isZero_mul {a : α} (x : α) : IsZero a → IsZero (a * x) ∨ IsNaN (a * x)
  defined_mul {a x : α} : IsZero a → IsFinite x → ¬ IsNaN (a * x)
  abs_zero {a : α} : IsZero a → IsZero (Scalar.abs a)
  settled_zero : Settled (0 : α)
  settled_add {s : α} (x : α) : Settled s → Settled (s + x)

end Scalar

/-! ## Doubles -/

namespace Double

open Float.Model Float.Model.UnpackedFloat

/-! ### Packing what was unpacked -/

/-- Bits are their sign, exponent and mantissa. -/
theorem packComponents_fields (bits : BitVec Format.binary64.numBits) :
    packComponents .binary64 (Sign.ofBitVec (unpackSign bits)) (unpackExponent bits)
      (unpackMantissa bits) = bits := by
  have hsign : ∀ b : BitVec 1, (Sign.ofBitVec b).toBitVec = b := by decide
  simp only [packComponents, hsign, unpackSign, unpackExponent, unpackMantissa, BitVec.extractLsb]
  ext i hi
  grind

/-- Valid bits are what their parts are packed to: the exponent says which kind of number they are,
and validity leaves one undefined number. -/
theorem pack_unpack {bits : BitVec Format.binary64.numBits} (hvalid : Format.binary64.Valid bits) :
    UnpackedFloat.pack .binary64 (UnpackedFloat.unpack .binary64 bits) = bits := by
  have hself := packComponents_fields bits
  have hbias : Format.binary64.exponentBias = 1023 := rfl
  have hlength : Format.binary64.mantissaBits = 53 := rfl
  have hm : (unpackMantissa bits).toNat < 2 ^ 52 := (unpackMantissa bits).isLt
  have he : (unpackExponent bits).toNat < 2 ^ 11 := (unpackExponent bits).isLt
  rw [UnpackedFloat.unpack]
  split
  case isTrue hfull =>
    split
    case isTrue hzero =>
      rw [hfull, hzero] at hself
      exact hself
    case isFalse hnonzero => exact (hvalid.eq_packedNaN hfull hnonzero).symm
  case isFalse hfull =>
    have hnotFull : (unpackExponent bits).toNat ≠ 2047 :=
      fun h => hfull (BitVec.eq_of_toNat_eq h)
    split
    case isTrue hlow =>
      split
      case isTrue hzero =>
        rw [hlow, hzero] at hself
        exact hself
      case isFalse hnonzero =>
        have hexponent : (unpackExponent bits).toNat = 0 := by
          rw [hlow]
          rfl
        have hpos : (unpackMantissa bits).toNat ≠ 0 := fun h => hnonzero (BitVec.eq_of_toNat_eq h)
        -- a subnormal number has too few bits for the normal form
        have hshort : (unpackMantissa bits).toNat.log2 < 52 := (Nat.log2_lt hpos).2 hm
        rw [UnpackedFloat.pack]
        simp only [hbias, hlength, hexponent]
        rw [if_neg (by decide), if_neg (by omega), BitVec.ofNat_toNat, BitVec.setWidth_eq]
        rw [hlow] at hself
        exact hself
    case isFalse hlow =>
      have hexponent : (unpackExponent bits).toNat ≠ 0 := fun h => hlow (BitVec.eq_of_toNat_eq h)
      have hmantissa := toNat_implicit (unpackMantissa bits)
      -- with its implicit bit a mantissa has full length, so packing does not shift it
      have hlog : (1#1 ++ unpackMantissa bits).toNat.log2 = 52 := by
        rw [Nat.log2_eq_iff (by omega)]
        omega
      have hbiased : ((unpackExponent bits).toNat - ((1023 : ℕ) + (52 : ℕ) : ℤ) + (1023 : ℕ) +
          (52 : ℕ)).toNat = (unpackExponent bits).toNat := by omega
      rw [UnpackedFloat.pack]
      simp only [hbias, hlength, hlog, hbiased]
      rw [if_neg (by omega), if_pos trivial]
      have himplicit : BitVec.ofNat 52 (1#1 ++ unpackMantissa bits).toNat =
          unpackMantissa bits := by
        apply BitVec.eq_of_toNat_eq
        rw [BitVec.toNat_ofNat, hmantissa]
        omega
      rw [himplicit, BitVec.ofNat_toNat, BitVec.setWidth_eq]
      exact hself

/-- A double is what its parts are packed to. -/
theorem pack_parts (x : Float) : Float.ofModel (Float.Model.pack (parts x)) = x := by
  obtain ⟨⟨bits, hvalid⟩⟩ := x
  have hbits : UnpackedFloat.pack .binary64 (UnpackedFloat.unpack .binary64 bits.toBitVec) =
      bits.toBitVec := pack_unpack hvalid
  simp only [parts, Float.Model.pack, Float.Model.unpack, hbits]

/-! ### Rounding what is not 0 -/

/-- Every double is a multiple of the smallest one. -/
theorem exponent_parts {x : Float} {s : Sign} {m : Nat} {e : Int} {h : 0 < m}
    (hx : parts x = .finite s m e h) : -1074 ≤ e := by
  have hbias : Format.binary64.exponentBias = 1023 := rfl
  rw [parts, Float.Model.unpack, UnpackedFloat.unpack] at hx
  simp only [hbias] at hx
  split at hx
  case isTrue => split at hx <;> cases hx
  case isFalse =>
    split at hx
    case isTrue =>
      split at hx
      case isTrue => cases hx
      case isFalse =>
        cases hx
        omega
    case isFalse hlow =>
      have hexponent : (@unpackExponent .binary64 x.toModel.toBits.toBitVec).toNat ≠ 0 :=
        fun hzero => hlow (BitVec.eq_of_toNat_eq hzero)
      cases hx
      omega

theorem le_roundedMantissa (em : ExtendedMantissa) : em.mantissa ≤ em.roundedMantissa := by
  rw [ExtendedMantissa.roundedMantissa]
  rcases em.accuracy with _ | _ | _ | _
  all_goals simp [Accuracy.roundToNearestEven]

/-- A shift to the target exponent takes bits from a mantissa that is too long only. -/
theorem shift_bounds {m n : Nat} {e : Int} (hm : 0 < m) (he : -1074 ≤ e)
    (hn : (n : Int) = max 0 (max (m.log2 + 1 + e - 53) (-1074) - e)) :
    0 < m / 2 ^ n ∧ m / 2 ^ n < 2 ^ 53 := by
  have hlower := Nat.log2_self_le hm.ne'
  have hupper := Nat.lt_log2_self (n := m)
  constructor
  · apply Nat.div_pos _ (Nat.two_pow_pos n)
    exact (Nat.pow_le_pow_right (by decide) (by omega)).trans hlower
  · rw [Nat.div_lt_iff_lt_mul (Nat.two_pow_pos n), ← Nat.pow_add]
    exact hupper.trans_le (Nat.pow_le_pow_right (by decide) (by omega))

theorem round_finite (s : Sign) {m : Nat} {e : Int} (hm : 0 < m) (he : -1074 ≤ e) :
    ∃ m' e' h, UnpackedFloat.round .binary64 s m e = .finite s m' e' h ∧ m' < 2 ^ 53 ∧
      -1074 ≤ e' := by
  have hmin : Format.binary64.minExponent = -1074 := by decide
  simp only [UnpackedFloat.round, decreaseExponent]
  generalize hshift :
    (e - Format.binary64.targetExponent (totalExponent m e)).toNat = shift
  have htarget : -1074 ≤ Format.binary64.targetExponent (totalExponent m e) := by
    rw [Format.targetExponent, hmin]
    exact le_max_right _ _
  have hm₁ : 0 < m <<< shift := by
    rw [Nat.shiftLeft_eq]
    exact Nat.mul_pos hm (Nat.two_pow_pos shift)
  have he₁ : -1074 ≤ e - shift := by omega
  generalize m <<< shift = m₁ at hm₁
  generalize e - (shift : Int) = e₁ at he₁
  -- the mantissa is shifted, rounded up or down, and shifted again
  obtain ⟨n, hn, hmantissa, hexponent⟩ := shiftToTargetExponent_exact m₁ e₁
  obtain ⟨hpos, -⟩ := shift_bounds hm₁ he₁ hn
  rw [roundWithAccuracy]
  generalize shiftToTargetExponent .binary64 m₁ e₁ .exact = shifted at hmantissa hexponent
  rcases shifted with ⟨em, e₂⟩
  dsimp only at hmantissa hexponent ⊢
  have hrounded : 0 < em.roundedMantissa := by
    have hle := le_roundedMantissa em
    omega
  obtain ⟨n', hn', hmantissa', hexponent'⟩ := shiftToTargetExponent_exact em.roundedMantissa e₂
  obtain ⟨hpos', hlt'⟩ := shift_bounds hrounded (by omega) hn'
  rw [← hmantissa'] at hpos' hlt'
  rw [dif_neg hpos'.ne']
  exact ⟨_, _, hpos', rfl, hlt', by omega⟩

theorem unpack_eq_zero {bits : BitVec Format.binary64.numBits} {s : Sign}
    (h : UnpackedFloat.unpack .binary64 bits = .zero s) :
    (unpackExponent bits).toNat = 0 ∧ (unpackMantissa bits).toNat = 0 := by
  rw [UnpackedFloat.unpack] at h
  split at h
  case isTrue => split at h <;> cases h
  case isFalse =>
    split at h
    case isTrue hexponent =>
      split at h
      case isTrue hmantissa =>
        rw [hexponent, hmantissa]
        exact ⟨rfl, rfl⟩
      case isFalse => cases h
    case isFalse => cases h

/-- A number that is not 0 is not packed to a zero. -/
theorem unpack_pack_finite {s s' : Sign} {m : Nat} {e : Int} {h : 0 < m} (hm : m < 2 ^ 53)
    (he : -1074 ≤ e) : (Float.Model.pack (.finite s m e h)).unpack ≠ .zero s' := by
  intro hzero
  obtain ⟨hexponent, hmantissa⟩ := unpack_eq_zero (show UnpackedFloat.unpack .binary64
    (UnpackedFloat.pack .binary64 (.finite s m e h)) = .zero s' from hzero)
  have hbias : Format.binary64.exponentBias = 1023 := rfl
  have hlength : Format.binary64.mantissaBits = 53 := rfl
  rw [UnpackedFloat.pack] at hexponent hmantissa
  simp only [hbias, hlength] at hexponent hmantissa
  split at hexponent
  case isTrue =>
    rw [packedInfinity, unpackExponent_packComponents] at hexponent
    exact absurd hexponent (by decide)
  case isFalse hfits =>
    rw [if_neg hfits] at hmantissa
    split at hexponent
    case isTrue =>
      rw [unpackExponent_packComponents, BitVec.toNat_ofNat] at hexponent
      omega
    case isFalse hshort =>
      rw [if_neg hshort, unpackMantissa_packComponents, BitVec.toNat_ofNat] at hmantissa
      have hlog : m.log2 < 53 := (Nat.log2_lt h.ne').2 hm
      have hlt : m < 2 ^ 52 := (Nat.log2_lt h.ne').1 (by omega)
      rw [Nat.mod_eq_of_lt hlt] at hmantissa
      omega

theorem parts_add (x y : Float) :
    parts (x + y) =
      (Float.Model.pack (UnpackedFloat.add .binary64 (parts x) (parts y))).unpack := rfl

theorem unpack_pack_infinity (s : Sign) :
    (Float.Model.pack (.infinity s)).unpack = .infinity s := by
  cases s <;> rfl

/-- What is computed from mantissas at an exponent of doubles is no negative zero. -/
theorem unpack_pack_normalize (m : Int) {e : Int} (he : -1074 ≤ e) :
    (Float.Model.pack (normalize .binary64 m e .positive)).unpack ≠ .zero .negative := by
  simp only [UnpackedFloat.normalize]
  split
  case h_1 hlt =>
    have hneg : m < 0 := Int.compare_eq_lt.1 hlt
    obtain ⟨m', e', h, hround, hm', he'⟩ :=
      round_finite .negative (show 0 < (-m).toNat by omega) he
    rw [hround]
    exact unpack_pack_finite hm' he'
  case h_2 =>
    rw [unpack_pack_zero]
    exact nofun
  case h_3 hgt =>
    have hpos : 0 < m := Int.compare_eq_gt.1 hgt
    obtain ⟨m', e', h, hround, hm', he'⟩ :=
      round_finite .positive (show 0 < m.toNat by omega) he
    rw [hround]
    exact unpack_pack_finite hm' he'

/-- A sum that is a negative zero was one before its last summand. -/
theorem negZero_of_add {x y : Float} (h : parts (x + y) = .zero .negative) :
    parts x = .zero .negative := by
  rw [parts_add] at h
  cases hx : parts x with
  | notANumber =>
      rw [hx, UnpackedFloat.add, unpack_pack_notANumber] at h
      cases h
  | infinity s =>
      cases hy : parts y with
      | notANumber =>
          simp only [hx, hy, UnpackedFloat.add, unpack_pack_notANumber] at h
          cases h
      | infinity s' =>
          simp only [hx, hy, UnpackedFloat.add] at h
          split at h
          · rw [unpack_pack_infinity] at h
            cases h
          · rw [unpack_pack_notANumber] at h
            cases h
      | zero s' | finite s' m' e' hm' =>
          simp only [hx, hy, UnpackedFloat.add, unpack_pack_infinity] at h
          cases h
  | zero s =>
      cases hy : parts y with
      | notANumber =>
          simp only [hx, hy, UnpackedFloat.add, unpack_pack_notANumber] at h
          cases h
      | infinity s' =>
          simp only [hx, hy, UnpackedFloat.add, unpack_pack_infinity] at h
          cases h
      | zero s' =>
          cases s with
          | negative => rfl
          | positive =>
              -- zeros of different signs add up to the positive one
              simp only [hx, hy, UnpackedFloat.add] at h
              split at h <;> cases h
      | finite s' m' e' hm' =>
          simp only [hx, hy, UnpackedFloat.add] at h
          exact absurd h (unpack_pack_finite (mantissa_parts hy) (exponent_parts hy))
  | finite s m e hm =>
      have he := exponent_parts hx
      cases hy : parts y with
      | notANumber =>
          simp only [hx, hy, UnpackedFloat.add, unpack_pack_notANumber] at h
          cases h
      | infinity s' =>
          simp only [hx, hy, UnpackedFloat.add, unpack_pack_infinity] at h
          cases h
      | zero s' =>
          simp only [hx, hy, UnpackedFloat.add] at h
          exact absurd h (unpack_pack_finite (mantissa_parts hx) he)
      | finite s' m' e' hm' =>
          -- both mantissas are brought to the smaller exponent, which is one of doubles again
          have he' := exponent_parts hy
          simp only [hx, hy, UnpackedFloat.add] at h
          exact absurd h (unpack_pack_normalize _ (le_min he he'))

/-! ### The laws -/

theorem isZero_iff {x : Float} : Scalar.IsZero x ↔ ∃ s, parts x = .zero s := by
  have hle : x ≤ Zero.zero ↔ (parts x).le (.zero .positive) = true := le_iff
  have hge : Zero.zero ≤ x ↔ (UnpackedFloat.zero .positive).le (parts x) = true := le_iff
  rw [show Scalar.IsZero x ↔ _ from and_congr hle hge]
  generalize parts x = u
  constructor
  · rintro ⟨hupper, hlower⟩
    rcases u with (_ | _) | _ | s | ⟨_ | _, m, e, h⟩
    · cases hlower
    · cases hupper
    · cases hlower
    · exact ⟨s, rfl⟩
    · cases hlower
    · cases hupper
  · rintro ⟨s, rfl⟩
    exact ⟨rfl, rfl⟩

theorem pack_of_parts {x : Float} {u : UnpackedFloat} (h : parts x = u) :
    Float.ofModel (Float.Model.pack u) = x := by
  rw [← h, pack_parts]

/-- An operation that keeps zeros among the zeros and every other number as it is. -/
theorem same_pack (f : UnpackedFloat → UnpackedFloat) (x : Float)
    (hzero : ∀ s, ∃ s', f (.zero s) = .zero s') (hnan : f .notANumber = .notANumber)
    (hinfinity : ∀ s, f (.infinity s) = .infinity s)
    (hfinite : ∀ s m e h, f (.finite s m e h) = .finite s m e h) :
    Scalar.Same (Float.ofModel (Float.Model.pack (f (parts x)))) x := by
  cases hx : parts x with
  | zero s =>
      obtain ⟨s', hs'⟩ := hzero s
      right
      rw [hs', isZero_iff, isZero_iff]
      exact ⟨⟨s', unpack_pack_zero s'⟩, ⟨s, hx⟩⟩
  | notANumber =>
      left
      rw [hnan, pack_of_parts hx]
  | infinity s =>
      left
      rw [hinfinity, pack_of_parts hx]
  | finite s m e h =>
      left
      rw [hfinite, pack_of_parts hx]

section Zeros

variable {a b : Float} (x : Float)

theorem add_zero (ha : Scalar.IsZero a) : Scalar.Same (x + a) x := by
  obtain ⟨s, hs⟩ := isZero_iff.1 ha
  show Scalar.Same (Float.ofModel (.pack (UnpackedFloat.add .binary64 (parts x) (parts a)))) x
  rw [hs]
  refine same_pack (fun u => UnpackedFloat.add .binary64 u (.zero s)) x ?_ rfl (fun _ => rfl)
    fun _ _ _ _ => rfl
  intro s'
  cases s <;> cases s' <;> exact ⟨_, rfl⟩

theorem zero_add (ha : Scalar.IsZero a) : Scalar.Same (a + x) x := by
  obtain ⟨s, hs⟩ := isZero_iff.1 ha
  show Scalar.Same (Float.ofModel (.pack (UnpackedFloat.add .binary64 (parts a) (parts x)))) x
  rw [hs]
  refine same_pack (fun u => UnpackedFloat.add .binary64 (.zero s) u) x ?_ rfl (fun _ => rfl)
    fun _ _ _ _ => rfl
  intro s'
  cases s <;> cases s' <;> exact ⟨_, rfl⟩

theorem sub_zero (ha : Scalar.IsZero a) : Scalar.Same (x - a) x := by
  obtain ⟨s, hs⟩ := isZero_iff.1 ha
  show Scalar.Same (Float.ofModel (.pack (UnpackedFloat.sub .binary64 (parts x) (parts a)))) x
  rw [hs]
  refine same_pack (fun u => UnpackedFloat.sub .binary64 u (.zero s)) x ?_ rfl (fun _ => rfl)
    fun _ _ _ _ => rfl
  intro s'
  cases s <;> cases s' <;> exact ⟨_, rfl⟩

theorem parts_sub (x y : Float) :
    parts (x - y) =
      (Float.Model.pack (UnpackedFloat.sub .binary64 (parts x) (parts y))).unpack := rfl

theorem zero_sub (ha : Scalar.IsZero a) (hb : Scalar.IsZero b) : Scalar.Same (a - x) (b - x) := by
  obtain ⟨s, hs⟩ := isZero_iff.1 ha
  obtain ⟨s', hs'⟩ := isZero_iff.1 hb
  cases hx : parts x with
  | zero s'' =>
      right
      rw [isZero_iff, isZero_iff, parts_sub, parts_sub, hx, hs, hs']
      constructor
      · cases s <;> cases s'' <;> exact ⟨_, rfl⟩
      · cases s' <;> cases s'' <;> exact ⟨_, rfl⟩
  | notANumber | infinity s'' | finite s'' m e h =>
      left
      show Float.ofModel (.pack (UnpackedFloat.sub .binary64 (parts a) (parts x))) =
        .ofModel (.pack (UnpackedFloat.sub .binary64 (parts b) (parts x)))
      rw [hs, hs', hx]
      rfl

theorem parts_mul (x y : Float) :
    parts (x * y) =
      (Float.Model.pack (UnpackedFloat.mul .binary64 (parts x) (parts y))).unpack := rfl

theorem mul_zero (ha : Scalar.IsZero a) (hb : Scalar.IsZero b) :
    Scalar.Same (x * a) (x * b) := by
  obtain ⟨s, hs⟩ := isZero_iff.1 ha
  obtain ⟨s', hs'⟩ := isZero_iff.1 hb
  cases hx : parts x with
  | zero s'' | finite s'' m e h =>
      right
      rw [isZero_iff, isZero_iff, parts_mul, parts_mul, hx, hs, hs', UnpackedFloat.mul,
        UnpackedFloat.mul, unpack_pack_zero, unpack_pack_zero]
      exact ⟨⟨_, rfl⟩, ⟨_, rfl⟩⟩
  | notANumber | infinity s'' =>
      left
      show Float.ofModel (.pack (UnpackedFloat.mul .binary64 (parts x) (parts a))) =
        .ofModel (.pack (UnpackedFloat.mul .binary64 (parts x) (parts b)))
      rw [hs, hs', hx]
      rfl

theorem isZero_mul (ha : Scalar.IsZero a) :
    Scalar.IsZero (a * x) ∨ Scalar.IsNaN (a * x) := by
  obtain ⟨s, hs⟩ := isZero_iff.1 ha
  rw [isZero_iff, isNaN_iff, parts_mul, hs]
  cases parts x with
  | zero s' | finite s' m e h =>
      left
      rw [UnpackedFloat.mul, unpack_pack_zero]
      exact ⟨_, rfl⟩
  | notANumber | infinity s' => exact .inr unpack_pack_notANumber

/-- A zero times a number that can be subtracted from itself is defined. -/
theorem defined_mul {x : Float} (ha : Scalar.IsZero a) (hx : Scalar.IsFinite x) :
    ¬ Scalar.IsNaN (a * x) := by
  obtain ⟨s, hs⟩ := isZero_iff.1 ha
  rw [Scalar.IsFinite, isNaN_iff, parts_sub] at hx
  rw [isNaN_iff, parts_mul, hs]
  cases h : parts x with
  | notANumber =>
      rw [h, UnpackedFloat.sub] at hx
      exact absurd unpack_pack_notANumber hx
  | infinity s' =>
      rw [h] at hx
      cases s' <;> exact absurd unpack_pack_notANumber hx
  | zero s' | finite s' m e hm =>
      rw [UnpackedFloat.mul, unpack_pack_zero]
      exact UnpackedFloat.noConfusion

theorem abs_zero (ha : Scalar.IsZero a) : Scalar.IsZero (Scalar.abs a) := by
  obtain ⟨s, hs⟩ := isZero_iff.1 ha
  have habs : parts (Scalar.abs a) = (Float.Model.pack (parts a).abs).unpack := rfl
  rw [isZero_iff, habs, hs, UnpackedFloat.abs, unpack_pack_zero]
  exact ⟨.positive, rfl⟩

end Zeros

theorem mul_comm (x y : Float) : x * y = y * x := by
  have hsign : ∀ s s' : Sign, s * s' = s' * s := by
    intro s s'
    cases s <;> cases s' <;> rfl
  show Float.ofModel (.pack (UnpackedFloat.mul .binary64 (parts x) (parts y))) =
    .ofModel (.pack (UnpackedFloat.mul .binary64 (parts y) (parts x)))
  congr 2
  rcases parts x with s | _ | s | ⟨s, m, e, h⟩ <;>
    rcases parts y with s' | _ | s' | ⟨s', m', e', h'⟩ <;>
    first
    | rfl
    | exact congrArg UnpackedFloat.infinity (hsign _ _)
    | exact congrArg UnpackedFloat.zero (hsign _ _)
    | simp only [UnpackedFloat.mul, hsign s', Nat.mul_comm m', Int.add_comm e']

/-- No comparison tells the zeros apart. -/
theorem compare_zero (s : Sign) (u : UnpackedFloat) :
    (UnpackedFloat.zero s).compare u = (UnpackedFloat.zero .positive).compare u := by
  rcases u with (_ | _) | _ | (_ | _) | ⟨_ | _, m, e, h⟩ <;> rfl

theorem zero_le_iff {a : Float} (b : Float) (ha : Scalar.IsZero a) : a ≤ b ↔ Zero.zero ≤ b := by
  obtain ⟨s, hs⟩ := isZero_iff.1 ha
  rw [le_iff, le_iff, parts_zero, hs, UnpackedFloat.le, UnpackedFloat.le, compare_zero]

theorem le_zero_iff {a : Float} (b : Float) (ha : Scalar.IsZero a) : b ≤ a ↔ b ≤ Zero.zero := by
  obtain ⟨s, hs⟩ := isZero_iff.1 ha
  rw [le_iff, le_iff, parts_zero, hs, UnpackedFloat.le, UnpackedFloat.le, compare_swap (.zero s),
    compare_swap (.zero .positive), compare_zero]

/-- A double is settled unless it is the negative zero. -/
theorem settled_iff {x : Float} : Scalar.Settled x ↔ parts x ≠ .zero .negative := by
  constructor
  · intro hsettled hx
    have hzero := hsettled Zero.zero (isZero_iff.2 ⟨_, parts_zero⟩)
    have hsum : parts (x + Zero.zero) = .zero .positive := by
      rw [parts_add, hx, parts_zero]
      rfl
    rw [hzero, hx] at hsum
    cases hsum
  · intro hx a ha
    rcases add_zero x ha with hsame | ⟨-, hzero⟩
    · exact hsame
    · obtain ⟨s, hs⟩ := isZero_iff.1 ha
      obtain ⟨s', hs'⟩ := isZero_iff.1 hzero
      cases s' with
      | negative => exact absurd hs' hx
      | positive =>
          refine Eq.trans ?_ (pack_of_parts hs')
          show Float.ofModel (.pack (UnpackedFloat.add .binary64 (parts x) (parts a))) = _
          rw [hs', hs]
          cases s <;> rfl

theorem settled_zero : Scalar.Settled (Zero.zero : Float) := by
  rw [settled_iff, parts_zero]
  exact nofun

instance : Scalar.NeutralZero Float where
  zero_le_iff := zero_le_iff
  le_zero_iff := le_zero_iff
  add_zero := add_zero
  zero_add := zero_add
  sub_zero := sub_zero
  zero_sub := zero_sub
  mul_zero := mul_zero
  mul_comm := mul_comm
  isZero_mul := isZero_mul
  defined_mul := defined_mul
  abs_zero := abs_zero
  settled_zero := settled_zero
  settled_add _ h := settled_iff.2 fun hx => settled_iff.1 h (negZero_of_add hx)

end Double

/-! ## Exact numbers -/

namespace Extended

variable {K : Type} [Field K] [LinearOrder K] [Elementary K]

/-- There is one zero. -/
theorem isZero_iff {a : Extended K} : Scalar.IsZero a ↔ a = 0 := by
  constructor
  · rintro ⟨hupper, hlower⟩
    exact Extended.le_antisymm hupper hlower
  · rintro rfl
    exact ⟨le_refl (0 : K), le_refl (0 : K)⟩

theorem settled (a : Extended K) : Scalar.Settled a := by
  intro z hz
  rw [isZero_iff.1 hz, zero_eq]
  cases a with
  | nan | negInf | posInf => rfl
  | finite x => rw [finite_add, add_zero]

theorem sub_zero_eq (a : Extended K) : a - 0 = a := by
  cases a with
  | nan | negInf | posInf => rfl
  | finite x => rw [zero_eq, finite_sub, sub_zero]

theorem isFinite_iff {a : Extended K} : Scalar.IsFinite a ↔ ∃ x, a = finite x := by
  rw [Scalar.IsFinite, isNaN_iff]
  cases a with
  | nan | negInf | posInf =>
      constructor
      · intro h
        exact absurd rfl h
      · rintro ⟨x, ⟨⟩⟩
  | finite x => exact ⟨fun _ => ⟨x, rfl⟩, fun _ => nofun⟩

theorem isZero_mul {a : Extended K} (b : Extended K) (ha : Scalar.IsZero a) :
    Scalar.IsZero (a * b) ∨ Scalar.IsNaN (a * b) := by
  rw [isZero_iff] at ha ⊢
  rw [isNaN_iff, ha, zero_eq]
  cases b with
  | nan => exact .inr rfl
  | negInf | posInf =>
      right
      show infinite (SignType.sign (0 : K) * _) = nan
      rw [sign_zero, zero_mul]
      rfl
  | finite x => exact .inl (by rw [finite_mul, zero_mul])

variable [IsStrictOrderedRing K]

instance : Scalar.NeutralZero (Extended K) where
  zero_le_iff b ha := by rw [isZero_iff.1 ha]
  le_zero_iff b ha := by rw [isZero_iff.1 ha]
  add_zero x ha := .inl (settled x _ ha)
  zero_add x ha := .inl ((Extended.add_comm _ x).trans (settled x _ ha))
  sub_zero x ha := .inl (by rw [isZero_iff.1 ha, sub_zero_eq])
  zero_sub x ha hb := by
    rw [isZero_iff.1 ha, isZero_iff.1 hb]
    exact .inl rfl
  mul_zero x ha hb := by
    rw [isZero_iff.1 ha, isZero_iff.1 hb]
    exact .inl rfl
  mul_comm := Extended.mul_comm
  isZero_mul := isZero_mul
  defined_mul {a z} ha hz := by
    obtain ⟨x, rfl⟩ := isFinite_iff.1 hz
    rw [isZero_iff.1 ha, zero_eq, finite_mul]
    exact finite_defined _
  abs_zero ha := by
    rw [isZero_iff.1 ha, isZero_iff, zero_eq]
    exact congrArg finite abs_zero
  settled_zero := settled 0
  settled_add x _ := settled _

end Extended

end FuzzyInference
