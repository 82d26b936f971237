import FuzzyInference.Proofs.Exact
import Mathlib.Analysis.SpecialFunctions.Pow.Real
import Mathlib.Analysis.SpecialFunctions.Trigonometric.Basic

/-!
# Elementary functions

Exact arithmetic takes the elementary functions as a parameter (`Elementary`). What statements about
shapes assume of them is collected here, in a class for each purpose: bounds (`Elementary.Bounded`)
and inverse functions (`Elementary.Invertible`). Only finite arguments are spoken of, and a value is
taken to be finite only where the bounds make it so: an exponential may overflow to an infinity, and
a power of 0 with a negative exponent is infinite.

The functions of real analysis have all of these properties.
-/

set_option autoImplicit false

namespace FuzzyInference

open Extended

namespace Elementary

section Laws

variable (K : Type) [Field K] [LinearOrder K] [Elementary K]

/-- The bounds of exponentials, powers and cosines. -/
class Bounded : Prop where
  exp_pos (t : K) : (0 : Extended K) < exp (finite t)
  exp_le_one {t : K} (h : t ≤ 0) : exp (finite t) ≤ (1 : Extended K)
  pow_nonneg {x : K} (h : 0 ≤ x) (p : K) : (0 : Extended K) ≤ pow (finite x) (finite p)
  cos_within (t : K) : Scalar.Within (-1 : Extended K) 1 (cos (finite t))

/-- A square root undoes a square, and an exponential undoes a logarithm. -/
class Invertible : Prop where
  sqrt_spec {t : K} (h : 0 ≤ t) : ∃ r, 0 ≤ r ∧ r * r = t ∧ sqrt (finite t) = finite r
  log_spec {x : K} (h : 0 < x) : ∃ t, log (finite x) = finite t ∧ exp (finite t) = finite x

/-- What is assumed of square roots alone. They are monotone then. -/
def SquareRoots : Prop :=
  ∀ t : K, 0 ≤ t → ∃ r, 0 ≤ r ∧ r * r = t ∧ Elementary.sqrt (finite t) = finite r

theorem squareRoots [Invertible K] : SquareRoots K := fun _ h => Invertible.sqrt_spec h

end Laws

end Elementary

/-- Real analysis, continued to the extended numbers by limits where there are any. Powers of
negative and of infinite numbers are left undefined: a shape takes no power of a negative number. -/
noncomputable instance : Elementary ℝ where
  sqrt
    | .nan | .negInf => .nan
    | .posInf => .posInf
    | .finite x => if x < 0 then .nan else .finite (Real.sqrt x)
  exp
    | .nan => .nan
    | .negInf => .finite 0
    | .posInf => .posInf
    | .finite x => .finite (Real.exp x)
  log
    | .nan | .negInf => .nan
    | .posInf => .posInf
    | .finite x => if x < 0 then .nan else if x = 0 then .negInf else .finite (Real.log x)
  cos
    | .nan | .negInf | .posInf => .nan
    | .finite x => .finite (Real.cos x)
  pow
    | .finite x, .finite p =>
        if x < 0 then .nan else if x = 0 ∧ p < 0 then .posInf else .finite (x ^ p)
    | _, _ => .nan

namespace Elementary

instance : Bounded ℝ where
  exp_pos t := (finite_lt 0 _).2 (Real.exp_pos t)
  exp_le_one h := (finite_le _ 1).2 (Real.exp_le_one_iff.2 h)
  pow_nonneg {x} h p := by
    show (0 : Extended ℝ) ≤ if x < 0 then nan else if x = 0 ∧ p < 0 then posInf else finite (x ^ p)
    rw [if_neg (not_lt.2 h)]
    split
    case isTrue => trivial
    case isFalse => exact (finite_le 0 _).2 (Real.rpow_nonneg h p)
  cos_within t := ⟨finite_defined _, (finite_le (-1) _).2 (Real.neg_one_le_cos t),
    (finite_le _ 1).2 (Real.cos_le_one t)⟩

instance : Invertible ℝ where
  sqrt_spec {t} h := ⟨Real.sqrt t, Real.sqrt_nonneg t, Real.mul_self_sqrt h, if_neg (not_lt.2 h)⟩
  log_spec {x} h := by
    refine ⟨Real.log x, ?_, ?_⟩
    · exact (if_neg (not_lt.2 h.le)).trans (if_neg h.ne')
    · exact congrArg finite (Real.exp_log h)

end Elementary

end FuzzyInference
