import FuzzyInference.Proofs.Exact
import FuzzyInference.Proofs.Weighted
import Mathlib.Algebra.BigOperators.Intervals
import Mathlib.Tactic.Positivity

/-!
# Sampled curves

A sweep over an output feeds the accumulator of its method one sample after the other. `Method.fed`
is the accumulator after the first samples of any two sequences of points and degrees, and
`Output.accumulator_swept` says that a sweep computes it. Statements about a method are proved of
`Method.fed`, by induction on the number of samples.

In exact arithmetic the points of a sweep over a finite range form a grid (`gridPoint`): they are
strictly increasing, and all of them lie strictly inside the range.
-/

set_option autoImplicit false

namespace FuzzyInference

section Feeding

variable {α : Type} [Scalar α]

/-- The accumulator after the first samples: `n` of them, sample `k` with the degree `y k` at
`x k`. -/
def Method.fed (m : Method) (v : Variable α) (x y : ℕ → α) : ℕ → Accumulator α
  | 0 => m.init v
  | n + 1 => m.accumulate (x n) (y n) (m.fed v x y n)

variable {m : Method} {v : Variable α} {x y x' y' : ℕ → α} {n : ℕ}

/-- Later samples are not read. -/
theorem Method.fed_congr (hx : ∀ k < n, x' k = x k) (hy : ∀ k < n, y' k = y k) :
    m.fed v x' y' n = m.fed v x y n := by
  induction n with
  | zero => rfl
  | succ n ih =>
      have hbefore := ih (fun k hk => hx k (Nat.lt_succ_of_lt hk))
        (fun k hk => hy k (Nat.lt_succ_of_lt hk))
      rw [fed, fed, hbefore, hx n (Nat.lt_succ_self n), hy n (Nat.lt_succ_self n)]

/-- The centroid adds up moments and degrees, from left to right. -/
theorem Method.fed_centroid (v : Variable α) (x y : ℕ → α) (n : ℕ) :
    Method.centroid.fed v x y n =
      .centroid ((List.range n).foldl (fun sum k => sum + x k * y k) 0)
        ((List.range n).foldl (fun sum k => sum + y k) 0) := by
  induction n with
  | zero => rfl
  | succ n ih =>
      rw [fed, ih, List.range_succ, List.foldl_append, List.foldl_append]
      rfl

namespace Output

variable {curve : Variable α → α} {points k : ℕ} {out base : Output α}

/-- A sweep feeds the samples from `k` on to an accumulator that has been fed the samples before. -/
theorem accumulator_sweep (hrange : out.range = base.range) (left : ℕ)
    (hacc : out.accumulator = m.fed v (fun i => base.samplePoint i points)
      (fun i => curve (base.sampleAt i points)) k) :
    (out.sweep m curve points left k).accumulator =
      m.fed v (fun i => base.samplePoint i points) (fun i => curve (base.sampleAt i points))
        (k + left) := by
  induction left generalizing k out with
  | zero => exact hacc
  | succ left ih =>
      have hx : (out.sampled curve k points).x = base.samplePoint k points :=
        (sampled_eq_of_range hrange).1
      have hy : (out.sampled curve k points).y = curve (base.sampleAt k points) :=
        (sampled_eq_of_range hrange).2
      rw [sweep, show k + (left + 1) = k + 1 + left by omega]
      refine ih hrange ?_
      show m.accumulate (out.sampled curve k points).x (out.sampled curve k points).y
        out.accumulator = _
      rw [hx, hy, hacc, Method.fed]

variable (m curve points out)

/-- A whole sweep, with the accumulator fresh at its beginning. -/
theorem accumulator_swept (k : ℕ) :
    ((out.reset m).sweep m curve points k 0).accumulator =
      m.fed out.toVariable (fun i => out.samplePoint i points)
        (fun i => curve (out.sampleAt i points)) k := by
  have hreset : (out.reset m).range = out.range := rfl
  rw [accumulator_sweep hreset k rfl, Nat.zero_add]

variable {m}

/-- No method but the bisector sweeps twice. -/
theorem accumulator_traced (hmethod : m ≠ .bisector) :
    (out.traced m curve points).accumulator =
      m.fed out.toVariable (fun i => out.samplePoint i points)
        (fun i => curve (out.sampleAt i points)) points := by
  rw [traced, if_neg hmethod]
  exact accumulator_swept ..

end Output

end Feeding

/-! ## The grid of sample points -/

section Grid

variable {K : Type} [Field K] [LinearOrder K] [IsStrictOrderedRing K] {a b : K} {n k : ℕ}

/-- The middle of the `k`-th of `n` equal parts of the range from `a` to `b`. -/
def gridPoint (a b : K) (n k : ℕ) : K := a + (k + 1 / 2) * ((b - a) / n)

theorem gridPoint_strictMono (hab : a < b) (hn : 0 < n) : StrictMono (gridPoint a b n) := by
  have hstep : 0 < (b - a) / n := div_pos (sub_pos.2 hab) (Nat.cast_pos.2 hn)
  intro i j hij
  have hij : (i : K) < j := Nat.cast_lt.2 hij
  unfold gridPoint
  gcongr

theorem gridPoint_mem (hab : a < b) (hk : k < n) : gridPoint a b n k ∈ Set.Ioo a b := by
  have hn : (0 : K) < n := Nat.cast_pos.2 (Nat.zero_lt_of_lt hk)
  have hlength := sub_pos.2 hab
  have hinside : (k : K) + 1 / 2 < n := by
    have hlast : (k : K) + 1 ≤ n := by exact_mod_cast hk
    linarith
  constructor
  · exact lt_add_of_pos_right a (by positivity)
  · calc gridPoint a b n k
        < a + n * ((b - a) / n) := by
          unfold gridPoint
          gcongr
      _ = b := by rw [mul_div_cancel₀ _ hn.ne', add_sub_cancel]

variable [Elementary K] {v : Variable (Extended K)}

/-- Over a finite range the sample points are the grid. -/
theorem Variable.samplePoint_finite (hlower : v.lower = .finite a) (hupper : v.upper = .finite b)
    (hn : 0 < n) (k : ℕ) : v.samplePoint k n = .finite (gridPoint a b n k) := by
  have hhalf : (Scalar.ofNat k + 0.5 : Extended K) = .finite ((k : K) + 1 / 2) := by
    show Extended.finite ((k : K) + 0.5) = _
    norm_num
  have hstep : (Extended.finite (b - a) / Scalar.ofNat n : Extended K) =
      .finite ((b - a) / n) := if_neg (Nat.cast_pos.2 hn).ne'
  rw [samplePoint, hlower, hupper, Extended.finite_sub, hhalf, hstep, Extended.finite_mul,
    Extended.finite_add, gridPoint]

end Grid

end FuzzyInference
