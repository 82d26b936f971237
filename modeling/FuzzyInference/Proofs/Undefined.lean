import FuzzyInference.Defuzz.Accumulator
import FuzzyInference.Proofs.Double
import FuzzyInference.Proofs.Exact

/-!
# Zero and the undefined number

A crisp value is a quotient in two of the methods, and where there is nothing to divide by it is
undefined. `Scalar.LawfulZero` collects the laws behind that: what is computed from an undefined
number is undefined, 0 divided by 0 is undefined, and sums of zeros are 0. Doubles satisfy them and
so do the extended numbers of an ordered field.

`Accumulator.Massless` is what the laws are for. A fresh accumulator is massless, samples of degree
0 and the second sweep of the bisector keep it so, whatever the range is, and six of the seven
methods read an undefined value off it (`isNaN_finalize`). The sum is the seventh: it is 0.
-/

set_option autoImplicit false

namespace FuzzyInference

/-! ## The laws -/

/-- The laws of 0 and of the undefined number. A product with 0 can be undefined or a zero of
either sign, so the law of products speaks of what it adds to 0. -/
class Scalar.LawfulZero (α : Type) [Scalar α] : Prop where
  isNaN_nan : Scalar.IsNaN (Scalar.nan : α)
  isNaN_add {a : α} (b : α) : Scalar.IsNaN a → Scalar.IsNaN (a + b)
  isNaN_div {a : α} (b : α) : Scalar.IsNaN a → Scalar.IsNaN (a / b)
  isNaN_zero_div_zero : Scalar.IsNaN ((0 : α) / 0)
  zero_add_zero : (0 : α) + 0 = 0
  zero_add_mul_zero {x : α} : ¬ Scalar.IsNaN (0 + x * 0) → (0 : α) + x * 0 = 0
  neg_one_le_zero : (-1 : α) ≤ 0

namespace Double

open Float.Model Float.Model.UnpackedFloat

theorem unpack_pack_notANumber : (Float.Model.pack .notANumber).unpack = .notANumber := rfl

theorem unpack_pack_zero (s : Sign) : (Float.Model.pack (.zero s)).unpack = .zero s := by
  cases s <;> rfl

theorem zero_eq : (Zero.zero : Float) = .ofModel (Float.Model.pack (.zero .positive)) := rfl

theorem parts_zero : parts (Zero.zero : Float) = .zero .positive := rfl

theorem isNaN_add {x : Float} (y : Float) (h : Scalar.IsNaN x) : Scalar.IsNaN (x + y) := by
  rw [isNaN_iff] at h ⊢
  show (Float.Model.pack (UnpackedFloat.add .binary64 (parts x) (parts y))).unpack = _
  rw [h, UnpackedFloat.add, unpack_pack_notANumber]

theorem isNaN_div {x : Float} (y : Float) (h : Scalar.IsNaN x) : Scalar.IsNaN (x / y) := by
  rw [isNaN_iff] at h ⊢
  show (Float.Model.pack (UnpackedFloat.div .binary64 (parts x) (parts y))).unpack = _
  rw [h, UnpackedFloat.div, unpack_pack_notANumber]

/-- A number times 0 is undefined or a zero. -/
theorem parts_mul_zero (x : Float) :
    parts (x * (Zero.zero : Float)) = .notANumber ∨
      ∃ s, parts (x * (Zero.zero : Float)) = .zero s := by
  have hmul : parts (x * (Zero.zero : Float)) =
      (Float.Model.pack (UnpackedFloat.mul .binary64 (parts x) (parts Zero.zero))).unpack := rfl
  rw [hmul, parts_zero]
  cases parts x with
  | notANumber => exact .inl (by rw [UnpackedFloat.mul, unpack_pack_notANumber])
  | infinity s => exact .inl (by rw [UnpackedFloat.mul, unpack_pack_notANumber])
  | zero s => exact .inr ⟨_, by rw [UnpackedFloat.mul, unpack_pack_zero]⟩
  | finite s m e hm => exact .inr ⟨_, by rw [UnpackedFloat.mul, unpack_pack_zero]⟩

/-- Zeros of either sign add up to 0. -/
theorem zero_add_mul_zero {x : Float}
    (h : ¬ Scalar.IsNaN ((Zero.zero : Float) + x * (Zero.zero : Float))) :
    (Zero.zero : Float) + x * (Zero.zero : Float) = Zero.zero := by
  have hadd : ∀ y : Float, (Zero.zero : Float) + y =
      .ofModel (Float.Model.pack (UnpackedFloat.add .binary64 (.zero .positive) (parts y))) :=
    fun _ => rfl
  rw [hadd] at h ⊢
  rcases parts_mul_zero x with hnan | ⟨s, hzero⟩
  · rw [hnan] at h
    exact absurd (isNaN_iff.2 unpack_pack_notANumber) h
  · rw [hzero, zero_eq]
    cases s <;> rfl

instance : Scalar.LawfulZero Float where
  isNaN_nan := by decide +kernel
  isNaN_add := isNaN_add
  isNaN_div := isNaN_div
  isNaN_zero_div_zero := by decide +kernel
  zero_add_zero := rfl
  zero_add_mul_zero := zero_add_mul_zero
  neg_one_le_zero := by decide +kernel

end Double

namespace Extended

variable {K : Type} [Field K] [LinearOrder K] [Elementary K]

theorem isNaN_add {a : Extended K} (b : Extended K) (h : Scalar.IsNaN a) :
    Scalar.IsNaN (a + b) := by
  rw [isNaN_iff] at h ⊢
  rw [h]
  rfl

theorem isNaN_div {a : Extended K} (b : Extended K) (h : Scalar.IsNaN a) :
    Scalar.IsNaN (a / b) := by
  rw [isNaN_iff] at h ⊢
  rw [h]
  rfl

theorem isNaN_zero_div_zero : Scalar.IsNaN ((0 : Extended K) / 0) := by
  rw [isNaN_iff]
  show (if (0 : K) = 0 then infinite (SignType.sign (0 : K)) else finite (0 / 0)) = nan
  rw [if_pos rfl, sign_zero]
  rfl

theorem zero_add_mul_zero {a : Extended K} (h : ¬ Scalar.IsNaN (0 + a * 0)) :
    (0 : Extended K) + a * 0 = 0 := by
  rw [isNaN_iff] at h
  cases a with
  | nan => exact absurd rfl h
  | negInf | posInf =>
      refine absurd ?_ h
      show finite (0 : K) + infinite (_ * SignType.sign (0 : K)) = nan
      rw [sign_zero, mul_zero]
      rfl
  | finite x => rw [zero_eq, finite_mul, finite_add, mul_zero, add_zero]

variable [IsStrictOrderedRing K]

instance : Scalar.LawfulZero (Extended K) where
  isNaN_nan := isNaN_iff.2 rfl
  isNaN_add := isNaN_add
  isNaN_div := isNaN_div
  isNaN_zero_div_zero := isNaN_zero_div_zero
  zero_add_zero := congrArg finite (add_zero 0)
  zero_add_mul_zero := zero_add_mul_zero
  neg_one_le_zero := (finite_le (-1) 0).2 neg_one_lt_zero.le

end Extended

/-! ## Accumulators that saw no membership -/

variable {α : Type} [Scalar α]

theorem Scalar.zero_le_zero [Scalar.Lawful α] : (0 : α) ≤ 0 := within_zero.lower

namespace Accumulator

/-- No membership was fed to the accumulator. The moment of a centroid can be undefined all the
same, where a sample point is infinite. -/
def Massless : Accumulator α → Prop
  | .idle => True
  | .centroid sumXY sumY => (sumXY = 0 ∨ Scalar.IsNaN sumXY) ∧ sumY = 0
  | .area total _ _ _ => total = 0
  | .maximum peak _ _ _ => peak ≤ 0
  | .weighted sumWZ sumW => sumWZ = 0 ∧ sumW = 0

theorem massless_beginBisection {acc : Accumulator α} (h : acc.Massless) :
    acc.beginBisection.Massless := by
  cases acc <;> exact h

/-- The second sweep of the bisector does not change the area. -/
theorem massless_scanArea (x y : α) {acc : Accumulator α} (h : acc.Massless) :
    (acc.scanArea x y).1.Massless := by
  cases acc <;> exact h

end Accumulator

namespace Method

variable [Scalar.LawfulZero α]

theorem massless_init (m : Method) (v : Variable α) : (m.init v).Massless := by
  cases m with
  | centroid => exact ⟨.inl rfl, rfl⟩
  | bisector => exact rfl
  | meanOfMaximum | largestOfMaximum | smallestOfMaximum =>
      exact Scalar.LawfulZero.neg_one_le_zero
  | weightedAverage | weightedSum => exact ⟨rfl, rfl⟩

variable [Scalar.Lawful α]

/-- A sample of degree 0 brings no membership. -/
theorem massless_accumulate (m : Method) (x : α) {acc : Accumulator α} (h : acc.Massless) :
    (m.accumulate x 0 acc).Massless := by
  cases acc with
  | idle => cases m <;> exact h
  | centroid sumXY sumY =>
      cases m with
      | centroid =>
          obtain ⟨hmoment, rfl⟩ := h
          refine ⟨?_, Scalar.LawfulZero.zero_add_zero⟩
          rcases hmoment with rfl | hnan
          · by_cases hdefined : Scalar.IsNaN (0 + x * 0)
            · exact .inr hdefined
            · exact .inl (Scalar.LawfulZero.zero_add_mul_zero hdefined)
          · exact .inr (Scalar.LawfulZero.isNaN_add _ hnan)
      | _ => exact h
  | area total half current crossing =>
      cases m with
      | bisector =>
          obtain rfl : total = 0 := h
          exact Scalar.LawfulZero.zero_add_zero
      | _ => exact h
  | maximum peak smallest largest plateau =>
      -- the peak stays or becomes the degree of the sample
      have hpeak : peak ≤ 0 := h
      cases m with
      | meanOfMaximum | largestOfMaximum =>
          simp only [accumulate]
          split
          · exact Scalar.zero_le_zero
          · split <;> exact hpeak
      | smallestOfMaximum =>
          simp only [accumulate]
          split
          · exact Scalar.zero_le_zero
          · exact hpeak
      | _ => exact h
  | weighted sumWZ sumW => cases m <;> exact h

/-- All methods but one report that there was no membership. -/
theorem isNaN_finalize {m : Method} (hmethod : m ≠ .weightedSum) {acc : Accumulator α}
    (h : acc.Massless) : Scalar.IsNaN (m.finalize acc) := by
  have hnan : Scalar.IsNaN (Scalar.nan : α) := Scalar.LawfulZero.isNaN_nan
  cases acc with
  | idle => cases m <;> exact hnan
  | centroid sumXY sumY =>
      cases m with
      | centroid =>
          obtain ⟨rfl | hmoment, rfl⟩ := h
          · exact Scalar.LawfulZero.isNaN_zero_div_zero
          · exact Scalar.LawfulZero.isNaN_div _ hmoment
      | _ => exact hnan
  | area total half current crossing =>
      cases m with
      | bisector =>
          obtain rfl : total = 0 := h
          rw [finalize, if_pos Scalar.zero_le_zero]
          exact hnan
      | _ => exact hnan
  | maximum peak smallest largest plateau =>
      have hpeak : peak ≤ 0 := h
      cases m with
      | meanOfMaximum | largestOfMaximum | smallestOfMaximum =>
          rw [finalize, if_pos hpeak]
          exact hnan
      | _ => exact hnan
  | weighted sumWZ sumW =>
      cases m with
      | weightedAverage =>
          obtain ⟨rfl, rfl⟩ := h
          exact Scalar.LawfulZero.isNaN_zero_div_zero
      | weightedSum => exact absurd rfl hmethod
      | _ => exact hnan

end Method

end FuzzyInference
