import FuzzyInference.Proofs.Attached
import FuzzyInference.Proofs.Residue

/-!
# Room for the sampled curve

A region that is attached to an output receives one sample for each evaluation point, as far as it
has room: an evaluation fills it up to its capacity, and the other samples are dropped. Two settings
see to it that none is dropped: one refuses a region that is too short, the other a number of points
that is too large. No other command changes the number of points or what a region can hold, so
within one engine the two suffice (`Engine.perform_roomy`).

A controller comes by a number of points in two more ways: with a whole configuration, and by
falling back to its own when the configuration of an engine is given up but the tables are kept.
Neither is checked against the regions that are attached by then. `Controller.Outgrows` are the
calls after which a region is too short, and nothing else leads there (`Change.roomy_iff`). A caller
who hands over regions for as many samples as are ever asked for makes no such call
(`Lendable.run_allotted`); after others samples are dropped
(`Controller.regions_outgrown_constant`).
-/

set_option autoImplicit false

namespace FuzzyInference

variable {α : Type}

/-! ## What a sweep writes -/

namespace Region

variable {r : Region α} {j k : Nat} {x y : α}

theorem getElem?_record_self (hk : k < r.capacity) :
    (r.record k x y).xs[k]? = some x ∧ (r.record k x y).ys[k]? = some y := by
  obtain ⟨hxs, hys⟩ := Nat.lt_min.1 hk
  rw [record, if_pos hk]
  exact ⟨Array.getElem?_setIfInBounds_self_of_lt hxs, Array.getElem?_setIfInBounds_self_of_lt hys⟩

theorem getElem?_record_of_ne (h : j ≠ k ∨ r.capacity ≤ j) :
    (r.record k x y).xs[j]? = r.xs[j]? ∧ (r.record k x y).ys[j]? = r.ys[j]? := by
  unfold record
  split
  · rename_i hk
    have hne : k ≠ j := by omega
    exact ⟨Array.getElem?_setIfInBounds_ne hne, Array.getElem?_setIfInBounds_ne hne⟩
  · exact ⟨rfl, rfl⟩

/-- `r'` is `r` with the samples `k`, ..., `k + left - 1` of a curve written into it, as far as
there is room for them. -/
structure Records (point degree : Nat → α) (k left : Nat) (r r' : Region α) : Prop where
  xs_size : r'.xs.size = r.xs.size
  ys_size : r'.ys.size = r.ys.size
  written : ∀ j, k ≤ j → j < k + left → j < r.capacity →
    r'.xs[j]? = some (point j) ∧ r'.ys[j]? = some (degree j)
  kept : ∀ j, j < k ∨ k + left ≤ j ∨ r.capacity ≤ j →
    r'.xs[j]? = r.xs[j]? ∧ r'.ys[j]? = r.ys[j]?

variable {point degree : Nat → α} {left : Nat} {r' : Region α}

theorem records_nil : Records point degree k 0 r r := by
  refine ⟨rfl, rfl, ?_, ?_⟩
  · intro j hle hlt
    omega
  · intro j _
    exact ⟨rfl, rfl⟩

/-- A sample more in front. No later sample comes to its place again. -/
theorem records_cons (h : Records point degree (k + 1) left (r.record k (point k) (degree k)) r') :
    Records point degree k (left + 1) r r' := by
  refine ⟨h.xs_size.trans size_record.1, h.ys_size.trans size_record.2, ?_, ?_⟩
  · intro j hle hlt hroom
    by_cases hj : j = k
    · subst hj
      obtain ⟨hx, hy⟩ := h.kept j (Or.inl (Nat.lt_succ_self j))
      rw [hx, hy]
      exact getElem?_record_self hroom
    · apply h.written j
      · omega
      · omega
      · rw [capacity_record]
        exact hroom
  · intro j hj
    have hlater : j < k + 1 ∨ k + 1 + left ≤ j ∨
        (r.record k (point k) (degree k)).capacity ≤ j := by
      rw [capacity_record]
      omega
    have hother : j ≠ k ∨ r.capacity ≤ j := by omega
    obtain ⟨hx, hy⟩ := h.kept j hlater
    obtain ⟨hx', hy'⟩ := getElem?_record_of_ne (x := point k) (y := degree k) hother
    exact ⟨hx.trans hx', hy.trans hy'⟩

/-- Up to the capacity the samples are written, and nothing else is changed. -/
theorem Records.split {n : Nat} (h : Records point degree 0 n r r') :
    (∀ k, k < min r.capacity n → r'.xs[k]? = some (point k) ∧ r'.ys[k]? = some (degree k)) ∧
      ∀ k, min r.capacity n ≤ k → r'.xs[k]? = r.xs[k]? ∧ r'.ys[k]? = r.ys[k]? := by
  refine ⟨fun k hk => h.written k (Nat.zero_le k) ?_ ?_, fun k hk => h.kept k ?_⟩
  · omega
  · omega
  · omega

end Region

namespace Output

variable [Scalar α]

/-- A sweep writes its samples into the region, if there is one. -/
theorem records_sweep (m : Method) (curve : Variable α → α) (points left k : Nat) (out : Output α)
    {r : Region α} (hr : out.region = some r) :
    ∃ r', (out.sweep m curve points left k).region = some r' ∧
      r.Records (fun j => out.samplePoint j points) (fun j => curve (out.sampleAt j points)) k left
        r' := by
  induction left generalizing k out r with
  | zero => exact ⟨r, hr, Region.records_nil⟩
  | succ left ih =>
      -- the sample that is taken first moves the output but not its range
      have htaken : ((out.sampled curve k points).takeSample m k).region =
          some (r.record k (out.samplePoint k points) (curve (out.sampleAt k points))) := by
        show out.region.map _ = _
        rw [hr]
        rfl
      obtain ⟨r', hr', hrecords⟩ := ih (k + 1) _ htaken
      exact ⟨r', hr', Region.records_cons hrecords⟩

end Output

/-! ## Engines -/

/-- Every attached region has room for a number of samples. -/
def Tables.Roomy (t : Tables α) (points : Nat) : Prop := ∀ n ∈ t.capacities, points ≤ n

instance (t : Tables α) (points : Nat) : Decidable (t.Roomy points) :=
  inferInstanceAs (Decidable (∀ n ∈ t.capacities, points ≤ n))

theorem Tables.roomy_iff {t : Tables α} {points : Nat} :
    t.Roomy points ↔ ∀ out ∈ t.outputs, ∀ n ∈ out.room, points ≤ n := by
  constructor
  · intro h out hout n hn
    exact h n (List.mem_filterMap.2 ⟨out, hout, hn⟩)
  · intro h n hn
    obtain ⟨out, hout, hroom⟩ := List.mem_filterMap.1 hn
    exact h out hout n hroom

namespace Engine

/-- Every attached region has room for the samples that the engine takes. -/
def Roomy (e : Engine α) : Prop := e.toTables.Roomy e.config.evalPoints

theorem checkRegion_ok {points : Nat} {r : Region α} (h : checkRegion points r = .ok ()) :
    points ≤ r.capacity := by
  unfold checkRegion at h
  split at h
  · cases h
  · rename_i hroom
    exact Nat.not_lt.1 hroom

variable [Scalar α]

/-- What the engine records is the curve of the output, sample by sample. -/
theorem records_crisp {e : Engine α} (harch : e.architecture = .mamdani) (o : Nat)
    {out : Output α} {r : Region α} (hr : out.region = some r) :
    ∃ r', (e.crisp o out).region = some r' ∧
      r.Records (fun k => out.samplePoint k e.config.evalPoints)
        (fun k => e.curve o (out.sampleAt k e.config.evalPoints)) 0 e.config.evalPoints r' := by
  rw [region_crisp harch]
  exact (out.reset e.config.method).records_sweep e.config.method (e.curve o) e.config.evalPoints
    e.config.evalPoints 0 hr

/-- Two settings touch the relation, each from its side, and each checks it. -/
theorem Setting.roomy {e e' : Engine α} (hsetting : Setting e e') (h : e.Roomy) : e'.Roomy := by
  unfold Engine.Roomy at h ⊢
  rw [Tables.roomy_iff] at h ⊢
  cases hsetting with
  | outputRange o _ => exact forall_mem_modify o h h
  | @operator role op _ =>
      have hpoints : (e.config.bind op role).evalPoints = e.config.evalPoints := by
        cases role <;> rfl
      intro out hout
      rw [hpoints]
      exact h out hout
  | evalPoints _ hregions =>
      intro out hout n hn
      obtain ⟨r, hr, rfl⟩ := Option.map_eq_some_iff.1 hn
      apply checkRegion_ok
      exact forM_eq_ok_iff.1 hregions r (List.mem_filterMap.2 ⟨out, hout, hr⟩)
  | region o hregion =>
      apply forall_mem_modify o h
      intro out _ n hn
      obtain rfl := Option.some.inj hn
      exact checkRegion_ok hregion
  | _ => exact h

theorem perform_roomy (e : Engine α) (c : Command α) (hconfirmed : e.Confirmed) (h : e.Roomy) :
    (e.perform c).1.Roomy := by
  rcases perform_cases e c with rfl | rfl | rfl | ⟨-, -, hsetting⟩
  · exact h
  · obtain ⟨status, hengine, -⟩ := e.inference_eq
    show e.inference.1.Roomy
    rw [hengine]
    exact h
  · -- a defuzzification brings no region, and leaves the number of points
    intro n hn
    have hpoints : e.defuzzify.1.config.evalPoints = e.config.evalPoints := by
      rw [(outputsOnly_defuzzify e).eq]
    rcases mem_capacities_perform hconfirmed .defuzzify hn with hfound | ⟨_, _, hstore, -⟩
    · exact hpoints ▸ h n hfound
    · cases hstore
  · exact hsetting.roomy h

theorem run_roomy {e : Engine α} (hconfirmed : e.Confirmed) (h : e.Roomy)
    (cs : List (Command α)) : (e.run cs).Roomy := by
  have hrun := run_induction (P := fun e => e.Confirmed ∧ e.Roomy)
    (fun e c h => ⟨perform_confirmed e c h.1, perform_roomy e c h.1 h.2⟩) ⟨hconfirmed, h⟩ cs
  exact hrun.2

end Engine

/-! ## Controllers -/

/-- Whether the command asks for no more than `points` evaluation points, and hands over no region
for less. -/
def Command.Allots (points : Nat) : Command α → Prop
  | .setEvalPoints n => n ≤ points
  | .storeRegion _ r => points ≤ r.capacity
  | _ => True

/-- Whether everything that a call asks for does so. -/
def Request.Allots (points : Nat) : Request α → Prop
  | .setConfig config => config.evalPoints ≤ points
  | .configure cs _ | .session cs => ∀ c ∈ cs, c.Allots points
  | .setWeights _ | .evaluate _ => True

namespace Controller

/-- Every attached region has room for the samples that an evaluation takes. -/
def Roomy (s : Controller α) : Prop := s.tables.Roomy s.config.evalPoints

instance (s : Controller α) : Decidable s.Roomy :=
  inferInstanceAs (Decidable (s.tables.Roomy s.config.evalPoints))

variable [Scalar α]

/-- A call that makes a region too short. Either the controller gets a configuration with more
points than before, and than the region holds. Or an engine, when it had fewer points than the
controller, is given the region, and the controller is left with the region and its own number of
points. -/
def Outgrows (s : Controller α) : Request α → Prop
  | .setConfig config => config.Fits s.architecture ∧
      ∃ n ∈ s.tables.capacities, s.config.evalPoints ≤ n ∧ n < config.evalPoints
  | .configure cs (.error _) | .session cs =>
      ∃ tag r, Command.storeRegion tag r ∈ cs ∧ r.capacity ∈ (s.fresh.run cs).capacities ∧
        (s.fresh.run cs).config.evalPoints ≤ r.capacity ∧ r.capacity < s.config.evalPoints
  | .configure _ (.ok ()) | .setWeights _ | .evaluate _ => False

variable {s s' : Controller α} {r : Request α}

omit [Scalar α] in
theorem confirmed_fresh (s : Controller α) : s.fresh.Confirmed := by
  intro hsucceeded
  cases hsucceeded

/-- What an engine leaves behind is too short for its controller only if it was brought then. -/
theorem roomy_run_iff (h : s.Roomy) (cs : List (Command α)) :
    (s.fresh.run cs).toTables.Roomy s.config.evalPoints ↔ ¬ s.Outgrows (.session cs) := by
  constructor
  · rintro hroomy ⟨tag, r, -, hleft, -, hshort⟩
    exact Nat.not_le.2 hshort (hroomy _ hleft)
  · intro hnot n hn
    by_contra hshort
    rcases Engine.mem_capacities_run s.confirmed_fresh hn with hbefore | ⟨tag, r, hstored, rfl⟩
    · exact hshort (h n hbefore)
    · have hchecked : (s.fresh.run cs).Roomy := Engine.run_roomy s.confirmed_fresh h cs
      exact hnot ⟨tag, r, hstored, hn, hchecked _ hn, Nat.not_le.1 hshort⟩

/-- The capacities after a cycle are those before it. -/
theorem roomy_cycled {points : Nat} (h : s.tables.Roomy points) (values : List α) :
    (s.assigned values).fresh.cycled.1.toTables.Roomy points := by
  rw [← Engine.run_cycled]
  intro n hn
  rcases Engine.mem_capacities_run (s.assigned values).confirmed_fresh hn with
    hbefore | ⟨tag, r, hstored, -⟩
  · exact h n hbefore
  · simp at hstored

/-- The calls that outgrow a region are all that can make one too short, and they do. -/
theorem Change.roomy_iff (hchange : Change s r s') (h : s.Roomy) : s'.Roomy ↔ ¬ s.Outgrows r := by
  cases hchange with
  | refused hcheck => exact ⟨fun _ hgrows => hcheck hgrows.1, fun _ => h⟩
  | @config config hfits =>
      constructor
      · rintro hroomy ⟨-, n, hn, -, hshort⟩
        exact Nat.not_le.2 hshort (hroomy n hn)
      · intro hnot n hn
        by_contra hshort
        exact hnot ⟨hfits, n, hn, h n hn, Nat.not_le.1 hshort⟩
  | weights ws => exact ⟨fun _ => id, fun _ => h⟩
  | configured cs =>
      exact ⟨fun _ => id, fun _ => Engine.run_roomy s.confirmed_fresh h cs⟩
  | dropped cs err => exact roomy_run_iff h cs
  | session cs => exact roomy_run_iff h cs
  | evaluated values => exact ⟨fun _ => id, fun _ => roomy_cycled h values⟩

/-- If no call outgrows a region when its turn comes, no region is ever too short. -/
theorem Lendable.run_roomy {rs : List (Request α)} (h : s.Lendable)
    (hrs : ∀ r ∈ rs, r.Sized s.script) (hroomy : s.Roomy)
    (hnot : ∀ before r after, rs = before ++ r :: after → ¬ (s.run before).Outgrows r) :
    (s.run rs).Roomy := by
  induction rs generalizing s with
  | nil => exact hroomy
  | cons r rs ih =>
      have hchange := h.change_perform r
      refine ih (hchange.lendable h (hrs r List.mem_cons_self)) ?_ ?_ ?_
      · intro r' hr'
        rw [hchange.script]
        exact hrs r' (List.mem_cons_of_mem r hr')
      · exact (hchange.roomy_iff hroomy).2 (hnot [] r rs rfl)
      · intro before r' after hsplit
        exact hnot (r :: before) r' after (congrArg (r :: ·) hsplit)

/-- No evaluation takes more than `points` samples, and no attached region holds less. -/
structure Allotted (s : Controller α) (points : Nat) : Prop where
  samples : s.config.evalPoints ≤ points
  regions : s.tables.Roomy points

theorem Change.allotted {points : Nat} (hchange : Change s r s') (hr : r.Allots points)
    (h : s.Allotted points) : s'.Allotted points := by
  have hregions : ∀ cs : List (Command α), (∀ c ∈ cs, c.Allots points) →
      (s.fresh.run cs).toTables.Roomy points := by
    intro cs hcs n hn
    rcases Engine.mem_capacities_run s.confirmed_fresh hn with hbefore | ⟨tag, r, hstored, rfl⟩
    · exact h.regions n hbefore
    · exact hcs _ hstored
  cases hchange with
  | refused _ => exact h
  | config _ => exact ⟨hr, h.regions⟩
  | weights ws => exact ⟨h.samples, h.regions⟩
  | configured cs =>
      refine ⟨?_, hregions cs hr⟩
      rcases s.fresh.evalPoints_run cs with hsame | ⟨n, hset, hpoints⟩
      · exact hsame ▸ h.samples
      · exact hpoints ▸ hr _ hset
  | dropped cs err => exact ⟨h.samples, hregions cs hr⟩
  | session cs => exact ⟨h.samples, hregions cs hr⟩
  | evaluated values => exact ⟨h.samples, roomy_cycled h.regions values⟩

theorem Lendable.run_allotted {points : Nat} {rs : List (Request α)} (h : s.Lendable)
    (hrs : ∀ r ∈ rs, r.Sized s.script) (hallots : ∀ r ∈ rs, r.Allots points)
    (hs : s.Allotted points) : (s.run rs).Allotted points := by
  induction rs generalizing s with
  | nil => exact hs
  | cons r rs ih =>
      have hchange := h.change_perform r
      refine ih (hchange.lendable h (hrs r List.mem_cons_self)) ?_ ?_ ?_
      · intro r' hr'
        rw [hchange.script]
        exact hrs r' (List.mem_cons_of_mem r hr')
      · exact fun r' hr' => hallots r' (List.mem_cons_of_mem r hr')
      · exact hchange.allotted (hallots r List.mem_cons_self) hs

omit [Scalar α] in
theorem Allotted.roomy {points : Nat} (h : s.Allotted points) : s.Roomy :=
  fun n hn => Nat.le_trans h.samples (h.regions n hn)

/-- A successful evaluation of a Mamdani system writes into each region the samples of the curve of
its output, as far as there is room for them. -/
theorem evaluate_records {values outs : List α} (hok : (s.evaluate values).2 = .ok outs)
    (harch : s.architecture = .mamdani) :
    ∃ (e : Engine α) (rules : List Rule), (s.assigned values).Lends e ∧ e.Ready rules ∧
      e.config = s.config ∧ (s.evaluate values).1.tables = e.defuzzify.1.toTables ∧
      ∀ (o : Nat) (out : Output α), s.tables.outputs[o]? = some out →
        ∀ r : Region α, out.region = some r →
        ∃ (out' : Output α) (r' : Region α),
          (s.evaluate values).1.tables.outputs[o]? = some out' ∧ out'.region = some r' ∧
          r.Records (fun k => out.samplePoint k s.config.evalPoints)
            (fun k => Firing.degree s.config e.outputMemberships
              (Firing.ofRules e.strengths o rules) (out.sampleAt k s.config.evalPoints))
            0 s.config.evalPoints r' := by
  obtain ⟨e₀, hengine, hinference, hdefuzzify, hs', -⟩ := evaluate_ok hok
  have hlends : (s.assigned values).Lends e₀.fuzzify.inference.1 :=
    (lends_engine hengine).run [.fuzzify, .inference]
  have hconfig₀ : e₀.config = s.config := (engine_eq_ok_iff.1 hengine).2 ▸ rfl
  have htables₀ : e₀.outputs = s.tables.outputs := (engine_eq_ok_iff.1 hengine).2 ▸ rfl
  obtain ⟨status, hf, -⟩ := e₀.fuzzify.inference_eq
  have hconfig : e₀.fuzzify.inference.1.config = s.config := by
    rw [hf]
    exact hconfig₀
  have houtputs : e₀.fuzzify.inference.1.outputs = s.tables.outputs := by
    rw [hf]
    exact htables₀
  have harch' : e₀.fuzzify.inference.1.architecture = .mamdani := hlends.architecture.trans harch
  obtain ⟨e₁, cs, hsetup, hrun⟩ := hlends
  obtain ⟨rules, hready⟩ := Engine.exists_ready hsetup cs hrun
    (Engine.status_of_defuzzify_ok hdefuzzify)
  refine ⟨_, rules, ⟨e₁, cs, hsetup, hrun⟩, hready, hconfig, by rw [hs'], ?_⟩
  intro o out hout r hr
  obtain ⟨r', hr', hrecords⟩ := Engine.records_crisp harch' o hr
  rw [hready.curve_eq o, hconfig] at hrecords
  refine ⟨_, r', ?_, hr', hrecords⟩
  have hget := hready.getElem?_defuzzify o
  rw [houtputs, hout, Option.map_some] at hget
  rw [hs']
  exact hget

/-- At any time after it was built, a controller of a Mamdani system whose evaluation succeeds has
filled every attached region with the samples of its output, up to the capacity of the region or to
the number of points, and has changed nothing else of it. If all samples have room, they have room
after the next call unless this call outgrows a region; they always have, if no call ever did; and
no call does, if none asks for more than so many points and all regions are for so many at least. -/
theorem roomy_unless_outgrown {w : Width} {architecture : Architecture} {sizes : Sizes} {n : Nat}
    {rules : List Int} {config : Config} {s₀ : Controller α}
    (hbuild : build w architecture sizes n rules config = .ok s₀) {rs : List (Request α)}
    (hrs : ∀ r ∈ rs, r.Sized s₀.script) (hs : s₀.run rs = s) :
    (∀ values outs, (s.evaluate values).2 = .ok outs → architecture = .mamdani →
      ∃ (e : Engine α) (rules' : List Rule), (s.assigned values).Lends e ∧ e.Ready rules' ∧
        e.config = s.config ∧ (s.evaluate values).1.tables = e.defuzzify.1.toTables ∧
        ∀ (o : Nat) (out : Output α), s.tables.outputs[o]? = some out →
          ∀ r : Region α, out.region = some r →
          ∃ (out' : Output α) (r' : Region α),
            (s.evaluate values).1.tables.outputs[o]? = some out' ∧ out'.region = some r' ∧
            (∀ k, k < min r.capacity s.config.evalPoints →
              r'.xs[k]? = some (out.samplePoint k s.config.evalPoints) ∧
              r'.ys[k]? = some (Firing.degree s.config e.outputMemberships
                (Firing.ofRules e.strengths o rules')
                (out.sampleAt k s.config.evalPoints))) ∧
            ∀ k, min r.capacity s.config.evalPoints ≤ k →
              r'.xs[k]? = r.xs[k]? ∧ r'.ys[k]? = r.ys[k]?) ∧
      (∀ r : Request α, s.Roomy → ((s.perform r).Roomy ↔ ¬ s.Outgrows r)) ∧
      ((∀ before r after, rs = before ++ r :: after → ¬ (s₀.run before).Outgrows r) → s.Roomy) ∧
      ∀ points, config.evalPoints ≤ points → (∀ r ∈ rs, r.Allots points) → s.Roomy := by
  subst hs
  obtain ⟨hs₀, hlendable, -⟩ := lendable_of_build hbuild
  have hblank : ∀ points, s₀.tables.Roomy points := by
    intro points
    rw [hs₀, Tables.roomy_iff]
    intro out hout n hn
    rw [List.eq_of_mem_replicate hout] at hn
    cases hn
  refine ⟨?_, ?_, ?_, ?_⟩
  · intro values outs hok harch
    have harch' : (s₀.run rs).architecture = .mamdani := by
      rw [hlendable.architecture_run hrs, hs₀, harch]
    obtain ⟨e, rules', hlends, hready, hconfig, htables, hrecords⟩ := evaluate_records hok harch'
    refine ⟨e, rules', hlends, hready, hconfig, htables, ?_⟩
    intro o out hout r hr
    obtain ⟨out', r', hout', hr', hwritten⟩ := hrecords o out hout r hr
    exact ⟨out', r', hout', hr', hwritten.split⟩
  · intro r hroomy
    exact ((hlendable.lendable_run hrs).change_perform r).roomy_iff hroomy
  · intro hnot
    exact hlendable.run_roomy hrs (hblank _) hnot
  · intro points hpoints hallots
    have hfresh : s₀.Allotted points := ⟨hs₀ ▸ hpoints, hblank points⟩
    exact (hlendable.run_allotted hrs hallots hfresh).roomy

/-- Two buffers for the given number of samples. -/
def emptyRegion (n : Nat) : Region Float := ⟨Array.replicate n 0, Array.replicate n 0⟩

/-- A region, and then a configuration with as many points as the region can hold. -/
def allottedRequests : List (Request Float) :=
  [.session [.storeRegion 0 (emptyRegion 5)],
    .setConfig { Config.mamdaniClassic with evalPoints := 5 }]

theorem roomy_unless_outgrown_twoRules :
    (∀ r ∈ allottedRequests, r.Sized freshTwoRules.script) ∧
      (∀ r ∈ allottedRequests, r.Allots 5) ∧ (freshTwoRules.run allottedRequests).Roomy ∧
      (freshTwoRules.run allottedRequests).config.evalPoints = 5 ∧
      ∃ out r out' r', (freshTwoRules.run allottedRequests).tables.outputs[0]? = some out ∧
        out.region = some r ∧ r.capacity = 5 ∧
        ((freshTwoRules.run allottedRequests).evaluate [3, 7]).1.tables.outputs[0]? = some out' ∧
        out'.region = some r' ∧ r'.xs[4]? = some (out.samplePoint 4 5) := by
  have hrs : ∀ r ∈ allottedRequests, r.Sized freshTwoRules.script := by
    simp [allottedRequests, Request.Sized]
  have hallots : ∀ r ∈ allottedRequests, r.Allots 5 := by
    simp [allottedRequests, Request.Allots, Command.Allots, Region.capacity, emptyRegion]
  have hpoints : (freshTwoRules.run allottedRequests).config.evalPoints = 5 := by decide +kernel
  have hok : ((freshTwoRules.run allottedRequests).evaluate [3, 7]).2.isOk = true := by
    decide +kernel
  obtain ⟨out, hout, r, hr, hcapacity⟩ :
      ∃ out ∈ (freshTwoRules.run allottedRequests).tables.outputs[0]?, ∃ r ∈ out.region,
        r.capacity = 5 := by
    decide +kernel
  obtain ⟨hrecords, -, -, hroomy⟩ := roomy_unless_outgrown build_twoRules hrs rfl
  cases hresult : ((freshTwoRules.run allottedRequests).evaluate [3, 7]).2 with
  | error err =>
      rw [hresult] at hok
      cases hok
  | ok outs =>
      obtain ⟨e, rules, -, -, -, -, hregions⟩ := hrecords [3, 7] outs hresult rfl
      obtain ⟨out', r', hout', hr', hwritten, -⟩ := hregions 0 out hout r hr
      obtain ⟨hx, -⟩ := hwritten 4 (by rw [hcapacity, hpoints]; decide)
      rw [hpoints] at hx
      exact ⟨hrs, hallots, hroomy 5 (by decide) hallots, hpoints, out, r, out', r', hout, hr,
        hcapacity, hout', hr', hx⟩

/-- The controller of one rule as a Mamdani system with four samples. -/
def sampledConstant : Controller Float :=
  { freshConstant with
    architecture := .mamdani, config := { Config.mamdaniClassic with evalPoints := 4 } }

theorem build_sampledConstant :
    build .byte .mamdani ⟨1, 1, 1, 1⟩ 1 (Rule.stream .byte [constantRule])
      { Config.mamdaniClassic with evalPoints := 4 } = .ok sampledConstant := rfl

/-- A region for two samples, and then a configuration with four points. -/
def outgrowingRequests : List (Request Float) :=
  [.configure [.setEvalPoints 2, .storeRegion 0 (emptyRegion 2)] (.ok ()),
    .setConfig { Config.mamdaniClassic with evalPoints := 4 }]

/-- Neither the check of a region nor that of a number of points is made when a controller gets a
whole configuration, or keeps the regions of an engine without its number of points. -/
theorem regions_outgrown_constant :
    (sampledConstant.run outgrowingRequests).Reachable ∧
      ¬ (sampledConstant.run outgrowingRequests).Roomy ∧
      (sampledConstant.run outgrowingRequests).config.evalPoints = 4 ∧
      ((sampledConstant.run outgrowingRequests).evaluate [0.5]).2.isOk = true ∧
      ((sampledConstant.run outgrowingRequests).evaluate [0.5]).1.tables.capacities = [2] ∧
      ¬ (sampledConstant.run
        [.session [.setEvalPoints 2, .storeRegion 0 (emptyRegion 2)]]).Roomy := by
  refine ⟨⟨_, _, _, _, _, _, sampledConstant, outgrowingRequests, build_sampledConstant, rfl⟩, ?_,
    ?_, ?_, ?_, ?_⟩
  · decide +kernel
  · decide +kernel
  · decide +kernel
  · decide +kernel
  · decide +kernel

end Controller

end FuzzyInference
