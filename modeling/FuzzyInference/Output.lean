import FuzzyInference.Defuzz.Accumulator

/-!
# Outputs

An output is a variable together with what its defuzzification needs: the current sample and its
aggregated degree, the accumulator, and, if a caller attached one, a region that records the
sampled curve.
-/

set_option autoImplicit false

namespace FuzzyInference

/-- Two buffers that receive the sampled curve of an output. -/
structure Region (α : Type) where
  xs : Array α
  ys : Array α

namespace Region

variable {α : Type}

/-- The number of samples that the region can hold: the length of its shorter buffer. -/
def capacity (r : Region α) : Nat := min r.xs.size r.ys.size

/-- Writes sample `k`. A sample beyond the capacity is dropped. -/
def record (k : Nat) (x y : α) (r : Region α) : Region α :=
  if k < r.capacity then ⟨r.xs.setIfInBounds k x, r.ys.setIfInBounds k y⟩ else r

end Region

/-- An output variable. -/
structure Output (α : Type) extends Variable α where
  /-- The current sample point. -/
  x : α
  /-- The aggregated degree at the sample point. -/
  y : α
  accumulator : Accumulator α
  region : Option (Region α)

namespace Output

variable {α : Type} [Scalar α]

/-- An output that nobody has set up yet. -/
def blank : Output α := { Variable.blank with x := 0, y := 0, accumulator := .idle, region := none }

/-- Positions the output at the middle of the `k`-th of `points` equal parts of its range, with
the degree 0. The sample point becomes the output's value, at which shapes are evaluated. -/
def beginSample (k points : Nat) (o : Output α) : Output α :=
  let step := (o.upper - o.lower) / Scalar.ofNat points
  let x := o.lower + (Scalar.ofNat k + 0.5) * step
  { o with x := x, y := 0, value := x }

/-- Feeds the current sample to the accumulator and records it. -/
def takeSample (m : Method) (k : Nat) (o : Output α) : Output α :=
  { o with
    accumulator := m.accumulate o.x o.y o.accumulator
    region := o.region.map (Region.record k o.x o.y) }

/-- Gives the output a fresh accumulator. -/
def reset (m : Method) (o : Output α) : Output α :=
  { o with accumulator := m.init o.toVariable }

/-- Writes the crisp value, confined to the range. -/
def settle (m : Method) (o : Output α) : Output α :=
  { o with value := Scalar.clamp o.lower o.upper (m.finalize o.accumulator) }

end Output

end FuzzyInference
