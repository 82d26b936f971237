import FuzzyInference.Proofs.Ranges
import FuzzyInference.Proofs.Refusals

/-!
# Attached regions

A region is attached to an output by one command, which gives it the buffers of a caller. All that
is done to it afterwards is the recording of samples: the first sweep of a Mamdani system writes
into it, and no other command does (`Engine.perform_regions`). Its capacity never changes.

So every capacity that is found at the end of a history was there at its beginning or was handed
over by one of its commands (`Engine.mem_capacities_run`). The number of evaluation points has such
an origin too (`Engine.evalPoints_run`). Whether regions and points fit each other is decided by
these two alone.
-/

set_option autoImplicit false

namespace FuzzyInference

variable {α : Type}

/-! ## Capacities -/

namespace Region

variable {r : Region α} {k : Nat} {x y : α}

theorem size_record :
    (r.record k x y).xs.size = r.xs.size ∧ (r.record k x y).ys.size = r.ys.size := by
  unfold record
  split
  · exact ⟨Array.size_setIfInBounds, Array.size_setIfInBounds⟩
  · exact ⟨rfl, rfl⟩

theorem capacity_record : (r.record k x y).capacity = r.capacity := by
  obtain ⟨hxs, hys⟩ := size_record (r := r) (k := k) (x := x) (y := y)
  rw [capacity, hxs, hys, capacity]

end Region

/-- The number of samples that there is room for, if a region is attached. -/
def Output.room (out : Output α) : Option Nat := out.region.map Region.capacity

/-- The capacities of the attached regions, in the order of the outputs. -/
def Tables.capacities (t : Tables α) : List Nat := t.outputs.filterMap Output.room

namespace Output

variable [Scalar α]

theorem region_rescan (curve : Variable α → α) (points left k : Nat) (out : Output α) :
    (out.rescan curve points left k).region = out.region := by
  induction left generalizing k out with
  | zero => rfl
  | succ left ih =>
      rw [rescan]
      split
      · rfl
      · exact ih (k + 1) _

/-- The second sweep records nothing. -/
theorem region_traced (m : Method) (curve : Variable α → α) (points : Nat) (out : Output α) :
    (out.traced m curve points).region =
      ((out.reset m).sweep m curve points points 0).region := by
  rw [traced]
  split
  · exact region_rescan curve points points 0 _
  · rfl

theorem room_sweep (m : Method) (curve : Variable α → α) (points left k : Nat) (out : Output α) :
    (out.sweep m curve points left k).room = out.room := by
  induction left generalizing k out with
  | zero => rfl
  | succ left ih =>
      refine (ih (k + 1) _).trans ?_
      show (out.region.map _).map Region.capacity = out.region.map Region.capacity
      rw [Option.map_map]
      congr 1
      funext r
      exact Region.capacity_record

end Output

namespace Engine

variable [Scalar α]

theorem region_contributeAll (e : Engine α) (fs : List (Firing α)) (out : Output α) :
    (e.contributeAll fs out).region = out.region := by
  induction fs generalizing out with
  | nil => rfl
  | cons f fs ih =>
      refine (ih _).trans ?_
      unfold contribute
      cases e.architecture <;> rfl

/-- In a Mamdani system the first sweep is all that writes into a region. -/
theorem region_crisp {e : Engine α} (harch : e.architecture = .mamdani) (o : Nat)
    (out : Output α) :
    (e.crisp o out).region = ((out.reset e.config.method).sweep e.config.method (e.curve o)
      e.config.evalPoints e.config.evalPoints 0).region := by
  rw [crisp_mamdani harch]
  exact Output.region_traced ..

/-- Defuzzification does not resize a region. -/
theorem room_crisp (e : Engine α) (o : Nat) (out : Output α) :
    (e.crisp o out).room = out.room := by
  by_cases harch : e.architecture = .mamdani
  · rw [Output.room, region_crisp harch]
    exact Output.room_sweep ..
  -- no other system writes into regions at all
  · have hregion : (e.crisp o out).region = out.region := by
      rw [crisp_weighted harch]
      exact region_contributeAll ..
    rw [Output.room, hregion, Output.room]

variable {e : Engine α}

/-! ## What commands do to regions -/

/-- The regions that are attached to the outputs, in order. -/
def regions (e : Engine α) : List (Option (Region α)) := e.outputs.map Output.region

omit [Scalar α] in
/-- What is done to the region of one output. -/
theorem map_region_modify (outs : List (Output α)) (o : Nat) {f : Output α → Output α}
    {g : Option (Region α) → Option (Region α)} (h : ∀ out, (f out).region = g out.region) :
    (outs.modify o f).map Output.region = (outs.map Output.region).modify o g := by
  refine List.ext_getElem? fun i => ?_
  rw [List.getElem?_map, List.getElem?_modify, List.getElem?_modify, List.getElem?_map]
  cases outs[i]? with
  | none => rfl
  | some out =>
      by_cases hi : o = i
      · simp [hi, h]
      · simp [hi]

omit [Scalar α] in
theorem settled_regions {result : Except (EngineError α) (Engine α)}
    (h : ∀ e', result = .ok e' → e'.regions = e.regions) :
    (e.settled result).1.regions = e.regions :=
  settled_elim (P := fun e' => e'.regions = e.regions) rfl h

theorem regions_defuzzify (hconfirmed : e.Confirmed)
    (h : e.architecture ≠ .mamdani ∨ e.defuzzify.2 ≠ .ok ()) :
    e.defuzzify.1.regions = e.regions := by
  by_cases hstatus : e.status = .succeeded
  · have harch : e.architecture ≠ .mamdani :=
      h.resolve_right fun hnot => hnot (hconfirmed.defuzzify_ok hstatus)
    rw [defuzzify_eq hstatus (hconfirmed.consequences_ok hstatus)]
    refine List.ext_getElem? fun o => ?_
    rw [regions, regions, List.getElem?_map, List.getElem?_map, getElem?_mapOutputsIdx,
      Option.map_map]
    refine congrFun (congrArg Option.map (funext fun out => ?_)) _
    rw [Function.comp_apply, crisp_weighted harch]
    exact region_contributeAll ..
  · rw [defuzzify_refused hstatus]

omit [Scalar α] in
theorem regions_of_toTables {e' : Engine α} (h : e'.toTables = e.toTables) :
    e'.regions = e.regions :=
  congrArg (fun t : Tables α => t.outputs.map Output.region) h

/-- A command leaves all regions as they are, unless it attaches another region to one of the
outputs or is a defuzzification of a Mamdani system that succeeds. -/
theorem perform_regions (hconfirmed : e.Confirmed) (c : Command α) :
    (e.perform c).1.regions = e.regions ∨
      (∃ tag r o, c = .storeRegion tag r ∧
        (e.perform c).1.regions = e.regions.modify o fun _ => some r) ∨
      (c = .defuzzify ∧ e.architecture = .mamdani ∧ (e.perform c).2 = .ok ()) := by
  cases c with
  | setupInput tag lower upper =>
      refine .inl (settled_regions fun e' h => ?_)
      obtain ⟨i, -, -, rfl⟩ := setupInput_ok h
      rfl
  | setupOutput tag lower upper =>
      refine .inl (settled_regions fun e' h => ?_)
      obtain ⟨o, -, -, rfl⟩ := setupOutput_ok h
      refine (map_region_modify (g := id) e.outputs o ?_).trans (List.modify_id ..)
      exact fun _ => rfl
  | setInputMembership input tag shape coefficients height =>
      refine .inl (settled_regions fun e' h => ?_)
      obtain ⟨i, m, -, -, -, rfl⟩ := setInputMembership_ok h
      rfl
  | setOutputMembership output tag shape coefficients height =>
      refine .inl (settled_regions fun e' h => ?_)
      obtain ⟨o, m, -, -, -, rfl⟩ := setOutputMembership_ok h
      rfl
  | setOperator role op => exact .inl (regions_of_toTables (e.perform_tunes trivial))
  | setMethod m => exact .inl (regions_of_toTables (e.perform_tunes trivial))
  | setEvalPoints points => exact .inl (regions_of_toTables (e.perform_tunes trivial))
  | setWeights weights => exact .inl (regions_of_toTables (e.perform_tunes trivial))
  | storeRegion tag r =>
      show (e.settled (e.storeRegion tag r)).1.regions = e.regions ∨ _
      cases h : e.storeRegion tag r with
      | error err => exact .inl rfl
      | ok e' =>
          obtain ⟨o, -, -, rfl⟩ := storeRegion_ok h
          refine .inr (.inl ⟨tag, r, o, rfl, ?_⟩)
          rw [perform, h]
          exact map_region_modify e.outputs o fun _ => rfl
  | setInput tag value =>
      refine .inl (settled_regions fun e' h => ?_)
      obtain ⟨i, -, rfl⟩ := setInput_ok h
      rfl
  | fuzzify => exact .inl rfl
  | inference =>
      obtain ⟨status, hengine, -⟩ := e.inference_eq
      left
      show e.inference.1.regions = e.regions
      rw [hengine]
      rfl
  | defuzzify =>
      by_cases h : e.architecture = .mamdani ∧ e.defuzzify.2 = .ok ()
      · exact .inr (.inr ⟨rfl, h.1, h.2⟩)
      · exact .inl (regions_defuzzify hconfirmed (not_and_or.1 h))

/-- Histories that attach no region, and in which a Mamdani system does not defuzzify. -/
theorem run_regions (hconfirmed : e.Confirmed) {cs : List (Command α)}
    (hstore : ∀ c ∈ cs, ∀ tag r, c ≠ .storeRegion tag r)
    (hdefuzzify : e.architecture = .mamdani → ∀ c ∈ cs, c ≠ .defuzzify) :
    (e.run cs).regions = e.regions := by
  induction cs generalizing e with
  | nil => rfl
  | cons c cs ih =>
      have harch := perform_architecture e c
      have hfirst : (e.perform c).1.regions = e.regions := by
        rcases perform_regions hconfirmed c with hsame | ⟨tag, r, o, rfl, -⟩ | ⟨rfl, hmamdani, -⟩
        · exact hsame
        · exact absurd rfl (hstore _ List.mem_cons_self tag r)
        · exact absurd rfl (hdefuzzify hmamdani _ List.mem_cons_self)
      rw [run, ih (perform_confirmed e c hconfirmed)
        (fun c' hc' => hstore c' (List.mem_cons_of_mem c hc')), hfirst]
      intro hmamdani c' hc'
      exact hdefuzzify (harch ▸ hmamdani) c' (List.mem_cons_of_mem c hc')

/-! ## Where capacities and numbers of points come from -/

omit [Scalar α] in
theorem capacities_eq (e : Engine α) :
    e.capacities = e.regions.filterMap (Option.map Region.capacity) := by
  rw [regions, List.filterMap_map]
  rfl

/-- A command finds a capacity among the attached regions or brings it with another region. -/
theorem mem_capacities_perform (hconfirmed : e.Confirmed) (c : Command α) {n : Nat}
    (hn : n ∈ (e.perform c).1.capacities) :
    n ∈ e.capacities ∨ ∃ tag r, c = .storeRegion tag r ∧ r.capacity = n := by
  rcases perform_regions hconfirmed c with hsame | ⟨tag, r, o, rfl, hstored⟩ | ⟨rfl, -, hok⟩
  · left
    rwa [capacities_eq, hsame, ← capacities_eq] at hn
  · rw [capacities_eq, hstored, List.mem_filterMap] at hn
    obtain ⟨region, hregion, hcapacity⟩ := hn
    refine forall_mem_modify (P := fun region => region.map Region.capacity = some n →
      n ∈ e.capacities ∨ ∃ tag' r', Command.storeRegion tag r = .storeRegion tag' r' ∧
        r'.capacity = n) o ?_ ?_ region hregion hcapacity
    · intro region hregion hcapacity
      rw [capacities_eq]
      exact .inl (List.mem_filterMap.2 ⟨region, hregion, hcapacity⟩)
    · intro _ _ hcapacity
      exact .inr ⟨tag, r, rfl, Option.some.inj hcapacity⟩
  · left
    have hstatus := status_of_defuzzify_ok hok
    rw [perform, defuzzify_eq hstatus (hconfirmed.consequences_ok hstatus)] at hn
    obtain ⟨out, hout, hcapacity⟩ := List.mem_filterMap.1 hn
    obtain ⟨o, ho, rfl⟩ := List.mem_mapIdx.1 hout
    rw [room_crisp] at hcapacity
    exact List.mem_filterMap.2 ⟨_, List.getElem_mem ho, hcapacity⟩

/-- A region of the last engine of a history was attached before the history or in it. -/
theorem mem_capacities_run (hconfirmed : e.Confirmed) {cs : List (Command α)} {n : Nat}
    (hn : n ∈ (e.run cs).capacities) :
    n ∈ e.capacities ∨ ∃ tag r, Command.storeRegion tag r ∈ cs ∧ r.capacity = n := by
  induction cs generalizing e with
  | nil => exact .inl hn
  | cons c cs ih =>
      rcases ih (perform_confirmed e c hconfirmed) hn with hbefore | ⟨tag, r, hmem, hcapacity⟩
      · rcases mem_capacities_perform hconfirmed c hbefore with hfound | ⟨tag, r, rfl, hcapacity⟩
        · exact .inl hfound
        · exact .inr ⟨tag, r, List.mem_cons_self, hcapacity⟩
      · exact .inr ⟨tag, r, List.mem_cons_of_mem c hmem, hcapacity⟩

omit [Scalar α] in
theorem settled_evalPoints {result : Except (EngineError α) (Engine α)}
    (h : ∀ e', result = .ok e' → e'.config.evalPoints = e.config.evalPoints) :
    (e.settled result).1.config.evalPoints = e.config.evalPoints :=
  settled_elim (P := fun e' => e'.config.evalPoints = e.config.evalPoints) rfl h

/-- One command sets the number of evaluation points. -/
theorem evalPoints_perform (e : Engine α) (c : Command α) :
    (e.perform c).1.config.evalPoints = e.config.evalPoints ∨
      ∃ points, c = .setEvalPoints points ∧ (e.perform c).1.config.evalPoints = points := by
  cases c with
  | setEvalPoints points =>
      show (e.settled (e.setEvalPoints points)).1.config.evalPoints = _ ∨ _
      cases h : e.setEvalPoints points with
      | error err => exact .inl rfl
      | ok e' =>
          obtain ⟨-, -, rfl⟩ := setEvalPoints_ok h
          refine .inr ⟨points, rfl, ?_⟩
          rw [perform, h]
          rfl
  | setOperator role op =>
      refine .inl (settled_evalPoints fun e' h => ?_)
      obtain ⟨-, rfl⟩ := setOperator_ok h
      cases role <;> rfl
  | setMethod m =>
      refine .inl (settled_evalPoints fun e' h => ?_)
      obtain ⟨-, rfl⟩ := setMethod_ok h
      rfl
  | setWeights ws =>
      refine .inl (settled_evalPoints fun e' h => ?_)
      obtain ⟨-, rfl⟩ := setWeights_ok h
      rfl
  | setupInput tag lower upper =>
      refine .inl (settled_evalPoints fun e' h => ?_)
      obtain ⟨i, -, -, rfl⟩ := setupInput_ok h
      rfl
  | setupOutput tag lower upper =>
      refine .inl (settled_evalPoints fun e' h => ?_)
      obtain ⟨o, -, -, rfl⟩ := setupOutput_ok h
      rfl
  | setInputMembership input tag shape coefficients height =>
      refine .inl (settled_evalPoints fun e' h => ?_)
      obtain ⟨i, m, -, -, -, rfl⟩ := setInputMembership_ok h
      rfl
  | setOutputMembership output tag shape coefficients height =>
      refine .inl (settled_evalPoints fun e' h => ?_)
      obtain ⟨o, m, -, -, -, rfl⟩ := setOutputMembership_ok h
      rfl
  | storeRegion tag r =>
      refine .inl (settled_evalPoints fun e' h => ?_)
      obtain ⟨o, -, -, rfl⟩ := storeRegion_ok h
      rfl
  | setInput tag value =>
      refine .inl (settled_evalPoints fun e' h => ?_)
      obtain ⟨i, -, rfl⟩ := setInput_ok h
      rfl
  | fuzzify => exact .inl rfl
  | inference =>
      obtain ⟨status, hengine, -⟩ := e.inference_eq
      left
      show e.inference.1.config.evalPoints = e.config.evalPoints
      rw [hengine]
  | defuzzify =>
      left
      show e.defuzzify.1.config.evalPoints = e.config.evalPoints
      rw [(outputsOnly_defuzzify e).eq]

/-- The number of points at the end of a history was there at its beginning or was set in it. -/
theorem evalPoints_run (e : Engine α) (cs : List (Command α)) :
    (e.run cs).config.evalPoints = e.config.evalPoints ∨
      ∃ points, Command.setEvalPoints points ∈ cs ∧ (e.run cs).config.evalPoints = points := by
  induction cs generalizing e with
  | nil => exact .inl rfl
  | cons c cs ih =>
      rcases ih (e.perform c).1 with hsame | ⟨points, hmem, hpoints⟩
      · rcases evalPoints_perform e c with hkept | ⟨points, rfl, hset⟩
        · exact .inl (hsame.trans hkept)
        · exact .inr ⟨points, List.mem_cons_self, hsame.trans hset⟩
      · exact .inr ⟨points, List.mem_cons_of_mem c hmem, hpoints⟩

end Engine

end FuzzyInference
