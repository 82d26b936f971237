import FuzzyInference.Proofs.Lending
import FuzzyInference.Proofs.Ranges
import FuzzyInference.Proofs.Spelling

/-!
# Rearranged rule bases

The rules of a system can be written in another order, or a rule can be written several times with
fewer consequents each. `Rearranges order rules rules'` says that the `i`-th of the rules `rules'`
has the premise of that rule of `rules` whose number stands at place `i` of `order`, and that
together they name the same tables.

An engine over the rearranged rules carries out the same commands, with weights rearranged like the
rules. `Engine.Rearranged` relates the two engines: each strength is that of the rule it came from,
and all else in the tables is the same. Every command keeps this, as long as the outputs are told
alike by both rule bases (`Engine.ToldAlike`), and so does every history. What can be seen of two
related engines is `Engine.AnswersAlike`.
-/

set_option autoImplicit false

namespace FuzzyInference

/-! ## Places in a list -/

/-- The entries at the given places, in the order in which the places are given. -/
def pick {β : Type} (order : List Nat) (xs : List β) : List β := order.filterMap fun i => xs[i]?

section Pick

variable {β : Type} {order : List Nat} {xs : List β}

/-- An entry is picked for every place, unless a place is beyond the end. -/
theorem length_pick_eq_iff :
    (pick order xs).length = order.length ↔ ∀ i ∈ order, i < xs.length := by
  rw [pick, List.filterMap_length_eq_length]
  simp

theorem length_pick_le : (pick order xs).length ≤ order.length := List.length_filterMap_le ..

theorem getElem?_pick (h : ∀ i ∈ order, i < xs.length) (i : Nat) :
    (pick order xs)[i]? = order[i]?.bind fun j => xs[j]? := by
  induction order generalizing i with
  | nil => rfl
  | cons j order ih =>
      obtain ⟨hj, h⟩ := List.forall_mem_cons.1 h
      rw [pick, List.filterMap_cons_some (List.getElem?_eq_getElem hj)]
      cases i with
      | zero => simp [hj]
      | succ i => exact ih h i

end Pick

/-- The rules `rules'` are those of `rules` in another arrangement: the premise of each is that of
the rule whose number `order` has at its place, every rule is there, and the same tables are
named. -/
structure Rearranges (order : List Nat) (rules rules' : List Rule) : Prop where
  length : rules'.length = order.length
  mem_iff : ∀ i, i ∈ order ↔ i < rules.length
  premise : ∀ {i j : Nat} {r : Rule}, order[i]? = some j → rules[j]? = some r →
    ∃ r', rules'[i]? = some r' ∧ r'.antecedent = r.antecedent ∧ r'.joined = r.joined
  within : ∀ sizes : Sizes, (∀ r ∈ rules', r.Within sizes) ↔ ∀ r ∈ rules, r.Within sizes

/-- The command that is given to the engine over the rearranged rules: weights are rearranged like
the rules. -/
def Command.rearranged {α : Type} (order : List Nat) : Command α → Command α
  | .setWeights ws => .setWeights (pick order ws)
  | c => c

namespace Engine

variable {α : Type} [Scalar α]

/-! ## What is told about an output -/

/-- Both engines come to the same curve of an output in a Mamdani system, and to the same sums in
any other. -/
structure ToldAlike (e e' : Engine α) (o : Nat) (out : Output α) : Prop where
  curve : e.architecture = .mamdani → e'.curve o = e.curve o
  sums : e.architecture ≠ .mamdani →
    Firing.sumWZ (Firing.crisp e.architecture e.inputs e.outputMemberships out.toVariable)
        (e'.firing o) =
      Firing.sumWZ (Firing.crisp e.architecture e.inputs e.outputMemberships out.toVariable)
        (e.firing o) ∧
    Firing.sumW (e'.firing o) = Firing.sumW (e.firing o)

/-- An output that is told alike is defuzzified alike. -/
theorem ToldAlike.crisp_eq {e e' : Engine α} {o : Nat} {out : Output α} (h : ToldAlike e e' o out)
    (hsame : e' = e.swapped e'.rest e'.strengths) (hfits : e.config.Fits e.architecture) :
    e'.crisp o out = e.crisp o out := by
  have harchitecture : e'.architecture = e.architecture := by rw [hsame]; rfl
  have hconfig : e'.config = e.config := by rw [hsame]; rfl
  by_cases harch : e.architecture = .mamdani
  · rw [crisp_mamdani harch, crisp_mamdani (harchitecture.trans harch), h.curve harch, hconfig]
  · have hmethod := Method.weighted_of_supports hfits.method harch
    have hinputs : e'.inputs = e.inputs := by rw [hsame]; rfl
    have hmemberships : e'.outputMemberships = e.outputMemberships := by rw [hsame]; rfl
    obtain ⟨hsumWZ, hsumW⟩ := h.sums harch
    rw [crisp_eq_sums harch hmethod,
      crisp_eq_sums (harchitecture.symm ▸ harch) (hconfig.symm ▸ hmethod), harchitecture, hconfig,
      hinputs, hmemberships, hsumWZ, hsumW]

/-! ## Two engines -/

/-- An engine over rules and one over the same rules rearranged. Of the tables only the strengths
differ, and while an inference stands each strength is that of the rule it came from. As long as the
count of the rules is right, the weights are rearranged like the rules. -/
structure Rearranged (order : List Nat) (rules rules' : List Rule) (e e' : Engine α) : Prop where
  same : e' = e.swapped e'.rest e'.strengths
  width : e'.width = e.width
  status : e'.status = e.status
  stream : e.rules = Rule.stream e.width rules
  stream' : e'.rules = Rule.stream e'.width rules'
  count : e'.ruleCount + rules.length = e.ruleCount + rules'.length
  weights : e.ruleCount = rules.length → e'.weights = e.weights.map (pick order)
  strengths : e.status = .succeeded → ∀ {i j : Nat}, order[i]? = some j →
    e'.strengths[i]? = e.strengths[j]?
  bound : e.Bound
  bound' : e'.Bound
  confirmed : e.Confirmed
  confirmed' : e'.Confirmed
  fits : e.config.Fits e.architecture

omit [Scalar α] in
theorem premises_ok_iff_spells {e : Engine α} (hbound : e.Bound) {rules : List Rule}
    (hstream : e.rules = Rule.stream e.width rules) :
    e.premises.outcome = .ok () ↔ Spells e.width e.sizes e.ruleCount e.rules rules := by
  rw [premises, hstream, premiseWalk_stream_ok_iff hbound.fit, spells_stream_iff]
  simp

theorem inference_status_of_error {e : Engine α} (h : e.premises.outcome ≠ .ok ()) :
    e.inference.1.status = .failed := by
  unfold inference
  dsimp only
  cases ho : e.premises.outcome with
  | ok u => exact absurd ho h
  | error fault => rfl

theorem perform_setWeights (e : Engine α) (ws : List α) :
    (e.perform (.setWeights ws)).1 =
      { e with weights := if ws.length < e.ruleCount then e.weights else some ws } := by
  simp only [perform, setWeights]
  split <;> rfl

namespace Rearranged

variable {order : List Nat} {rules rules' : List Rule} {e e' : Engine α}

section Fields

variable (h : Rearranged order rules rules' e e')

include h

omit [Scalar α] in
theorem sizes : e'.sizes = e.sizes := (congrArg (fun f : Engine α => f.sizes) h.same).trans rfl

omit [Scalar α] in
theorem config : e'.config = e.config := (congrArg Engine.config h.same).trans rfl

omit [Scalar α] in
theorem outputs : e'.outputs = e.outputs :=
  (congrArg (fun f : Engine α => f.outputs) h.same).trans rfl

theorem curve_eq (o : Nat) :
    e'.curve o = Firing.degree e.config e.outputMemberships (e'.firing o) := by
  have hmemberships : e'.outputMemberships = e.outputMemberships :=
    (congrArg (fun f : Engine α => f.outputMemberships) h.same).trans rfl
  rw [curve_eq_degree, h.config, hmemberships]

theorem antecedentDegree : e'.antecedentDegree = e.antecedentDegree :=
  (congrArg Engine.antecedentDegree h.same).trans rfl

/-- A command keeps what it has to keep of any two engines, whatever the commands are. -/
theorem of_perform {c c' : Command α}
    (hsame : (e'.perform c').1 =
      (e.perform c).1.swapped (e'.perform c').1.rest (e'.perform c').1.strengths)
    (hstatus : (e'.perform c').1.status = (e.perform c).1.status)
    (hweights : e.ruleCount = rules.length →
      (e'.perform c').1.weights = (e.perform c).1.weights.map (pick order))
    (hstrengths : (e.perform c).1.status = .succeeded → ∀ {i j : Nat}, order[i]? = some j →
      (e'.perform c').1.strengths[i]? = (e.perform c).1.strengths[j]?) :
    Rearranged order rules rules' (e.perform c).1 (e'.perform c').1 := by
  have hscript := e.perform_script c
  have hscript' := e'.perform_script c'
  simp only [script, Script.mk.injEq] at hscript hscript'
  obtain ⟨hw, -, hn, hrules⟩ := hscript
  obtain ⟨hw', -, hn', hrules'⟩ := hscript'
  constructor
  case same => exact hsame
  case width => rw [hw, hw', h.width]
  case status => exact hstatus
  case stream => rw [hrules, hw, h.stream]
  case stream' => rw [hrules', hw', h.stream']
  case count => rw [hn, hn', h.count]
  case weights => rwa [hn]
  case strengths => exact hstrengths
  case bound => exact perform_bound e c h.bound
  case bound' => exact perform_bound e' c' h.bound'
  case confirmed => exact perform_confirmed e c h.confirmed
  case confirmed' => exact perform_confirmed e' c' h.confirmed'
  case fits => exact perform_fits e c h.fits

end Fields

section Steps

variable (horder : Rearranges order rules rules') (h : Rearranged order rules rules' e e')

include horder h

omit [Scalar α] horder in
theorem count_iff : e'.ruleCount = rules'.length ↔ e.ruleCount = rules.length := by
  have hcount := h.count
  omega

omit [Scalar α] in
/-- The two streams are accepted alike. -/
theorem premises_ok_iff : e'.premises.outcome = .ok () ↔ e.premises.outcome = .ok () := by
  rw [premises, premises, h.stream, h.stream', premiseWalk_stream_ok_iff h.bound.fit,
    premiseWalk_stream_ok_iff h.bound'.fit, h.sizes, horder.within, eq_comm, h.count_iff,
    @eq_comm _ rules.length]

/-- A place in the order is that of a rule, for which there is a weight if there are any. -/
theorem weight_eq (hcount : e.ruleCount = rules.length) {i j : Nat} (hij : order[i]? = some j) :
    e'.weight i = e.weight j := by
  rw [weight, weight, h.weights hcount]
  cases hws : e.weights with
  | none => rfl
  | some ws =>
      have hlength : ∀ k ∈ order, k < ws.length := by
        intro k hk
        have hslots := h.bound.weights ws hws
        have hlt := (horder.mem_iff k).1 hk
        omega
      simp [getElem?_pick hlength, hij]

/-- Inference gives each rule the strength of the rule it came from. -/
theorem inference_strengths_eq (hok : e.premises.outcome = .ok ()) {i j : Nat}
    (hij : order[i]? = some j) :
    e'.inference.1.strengths[i]? = e.inference.1.strengths[j]? := by
  have hspells := (premises_ok_iff_spells h.bound h.stream).1 hok
  have hspells' := (premises_ok_iff_spells h.bound' h.stream').1 ((h.premises_ok_iff horder).2 hok)
  have hj : j < rules.length := (horder.mem_iff j).1 (List.mem_of_getElem? hij)
  have hr : rules[j]? = some rules[j] := List.getElem?_eq_getElem hj
  obtain ⟨r', hr', hantecedent, hjoined⟩ := horder.premise hij hr
  have hstrength : r'.strength e'.config e'.antecedentDegree =
      rules[j].strength e.config e.antecedentDegree := by
    rw [Rule.strength, Rule.strength, hantecedent, hjoined, h.config, h.antecedentDegree]
  rw [(inference_spells h.bound hspells).2, (inference_spells h.bound' hspells').2,
    getElem?_stored_of_getElem? e _ hr, getElem?_stored_of_getElem? e' _ hr', hstrength,
    h.weight_eq horder hspells.count.symm hij]

theorem inference :
    Rearranged order rules rules' (e.perform .inference).1 (e'.perform .inference).1 := by
  obtain ⟨status, hengine, hstatus, -⟩ := e.inference_eq
  obtain ⟨status', hengine', hstatus', -⟩ := e'.inference_eq
  apply h.of_perform
  case hsame =>
    show e'.inference.1 = e.inference.1.swapped e'.inference.1.rest e'.inference.1.strengths
    rw [hengine, hengine']
    -- inference replaces nothing that the engines share
    exact congrArg (fun f : Engine α => ({ f with
      strengths := (e'.premises.steps.foldl e'.compose ⟨0, e'.strengths⟩).strengths,
      completed := e'.premises.completed, status := status' } : Engine α)) h.same |>.trans rfl
  case hstatus =>
    show e'.inference.1.status = e.inference.1.status
    by_cases hok : e.premises.outcome = .ok ()
    · rw [hengine, hengine']
      exact (hstatus'.2 ((h.premises_ok_iff horder).2 hok)).trans (hstatus.2 hok).symm
    · rw [inference_status_of_error hok,
        inference_status_of_error fun hok' => hok ((h.premises_ok_iff horder).1 hok')]
  case hweights =>
    show _ → e'.inference.1.weights = e.inference.1.weights.map (pick order)
    rw [hengine, hengine']
    exact h.weights
  case hstrengths =>
    intro hsucceeded i j hij
    have hok : e.inference.2 = .ok () := (inference_status_iff e).1 hsucceeded
    exact h.inference_strengths_eq horder ((inference_ok_iff e).1 hok) hij

/-- Weights are accepted for the rearranged rules if they were for the rules. -/
theorem setWeights (ws : List α) :
    Rearranged order rules rules' (e.perform (.setWeights ws)).1
      (e'.perform (.setWeights (pick order ws))).1 := by
  apply h.of_perform
  case hsame =>
    rw [perform_setWeights, perform_setWeights]
    exact congrArg (fun f : Engine α => ({ f with
      weights := if (pick order ws).length < e'.ruleCount then e'.weights
        else some (pick order ws) } : Engine α)) h.same
  case hstatus =>
    rw [perform_setWeights, perform_setWeights]
    exact h.status
  case hweights =>
    intro hcount
    have hcount' : e'.ruleCount = order.length :=
      ((h.count_iff).2 hcount).trans horder.length
    -- the weights are too few for one of the engines exactly if they are for the other
    have hiff : (pick order ws).length < e'.ruleCount ↔ ws.length < e.ruleCount := by
      have hle : (pick order ws).length ≤ order.length := length_pick_le
      have hall : (pick order ws).length = order.length ↔ ∀ i ∈ order, i < ws.length :=
        length_pick_eq_iff
      simp only [horder.mem_iff] at hall
      rw [hcount', hcount]
      constructor
      · intro hlt
        by_contra hge
        have heq := hall.2 fun i hi => by omega
        omega
      · intro hlt
        have hne : (pick order ws).length ≠ order.length :=
          fun heq => absurd (hall.1 heq ws.length hlt) (lt_irrefl _)
        omega
    rw [perform_setWeights, perform_setWeights]
    simp only [hiff]
    split
    · exact h.weights hcount
    · rfl
  case hstrengths =>
    rw [perform_setWeights, perform_setWeights]
    exact h.strengths

omit horder in
theorem configure {c : Command α} (hc : c.Configures) :
    Rearranged order rules rules' (e.perform c).1 (e'.perform c).1 := by
  have hrest := e.perform_rest hc
  have hrest' := e'.perform_rest hc
  have hperform : (e'.perform c).1 = (e.perform c).1.swapped e'.rest e'.strengths :=
    congrArg Prod.fst ((congrArg (fun f : Engine α => f.perform c) h.same).trans
      (e.perform_swapped e'.rest e'.strengths hc))
  apply h.of_perform
  case hsame =>
    rw [hrest', e'.perform_strengths hc]
    exact hperform
  case hstatus =>
    calc (e'.perform c).1.status
        = e'.status := congrArg Rest.status hrest'
      _ = e.status := h.status
      _ = (e.perform c).1.status := (congrArg Rest.status hrest).symm
  case hweights =>
    intro hcount
    have hweights := h.weights hcount
    rw [show (e'.perform c).1.weights = e'.weights from congrArg Rest.weights hrest',
      show (e.perform c).1.weights = e.weights from congrArg Rest.weights hrest, hweights]
  case hstrengths =>
    rw [show (e.perform c).1.status = e.status from congrArg Rest.status hrest,
      e.perform_strengths hc, e'.perform_strengths hc]
    exact h.strengths

omit horder in
theorem fuzzify :
    Rearranged order rules rules' (e.perform .fuzzify).1 (e'.perform .fuzzify).1 := by
  apply h.of_perform
  case hsame => exact congrArg Engine.fuzzify h.same
  case hstatus => rfl
  case hweights => exact h.weights
  case hstrengths =>
    intro hsucceeded
    cases hsucceeded

omit horder in
theorem defuzzify_eq_of_told (htold : e.status = .succeeded → ∀ o out, e.outputs[o]? = some out →
      ToldAlike e e' o out) :
    e'.defuzzify = (e.defuzzify.1.swapped e'.rest e'.strengths, e.defuzzify.2) := by
  by_cases hstatus : e.status = .succeeded
  · have hstatus' : e'.status = .succeeded := h.status.trans hstatus
    have hcrisp : e'.mapOutputsIdx e'.crisp = e'.mapOutputsIdx e.crisp := by
      refine mapOutputsIdx_congr fun o out hout => ?_
      rw [h.outputs] at hout
      exact (htold hstatus o out hout).crisp_eq h.same h.fits
    rw [defuzzify_eq hstatus (h.confirmed.consequences_ok hstatus),
      defuzzify_eq hstatus' (h.confirmed'.consequences_ok hstatus'), hcrisp]
    exact Prod.ext (congrArg (mapOutputsIdx e.crisp) h.same) rfl
  · have hstatus' : e'.status ≠ .succeeded := fun hs => hstatus (h.status.symm.trans hs)
    rw [defuzzify_refused hstatus, defuzzify_refused hstatus']
    exact Prod.ext h.same rfl

/-- Every command keeps the relation, as long as what is defuzzified is told alike. -/
theorem perform (c : Command α) (htold : e.status = .succeeded → ∀ o out,
      e.outputs[o]? = some out → ToldAlike e e' o out) :
    Rearranged order rules rules' (e.perform c).1 (e'.perform (c.rearranged order)).1 := by
  cases c with
  | setWeights ws => exact h.setWeights horder ws
  | fuzzify => exact h.fuzzify
  | inference => exact h.inference horder
  | defuzzify =>
      have hdefuzzify := h.defuzzify_eq_of_told htold
      have hframe := outputsOnly_defuzzify e
      have hstrengths : e.defuzzify.1.strengths = e.strengths := by rw [hframe.eq]
      have hweights : e.defuzzify.1.weights = e.weights := by rw [hframe.eq]
      have hstatus : e.defuzzify.1.status = e.status := by rw [hframe.eq]
      apply h.of_perform
      case hsame =>
        show e'.defuzzify.1 = e.defuzzify.1.swapped e'.defuzzify.1.rest e'.defuzzify.1.strengths
        rw [hdefuzzify]
        rfl
      case hstatus =>
        show e'.defuzzify.1.status = e.defuzzify.1.status
        rw [hdefuzzify, hstatus]
        exact h.status
      case hweights =>
        show _ → e'.defuzzify.1.weights = e.defuzzify.1.weights.map (pick order)
        rw [hdefuzzify, hweights]
        exact h.weights
      case hstrengths =>
        show e.defuzzify.1.status = .succeeded → ∀ {i j : Nat}, order[i]? = some j →
          e'.defuzzify.1.strengths[i]? = e.defuzzify.1.strengths[j]?
        rw [hdefuzzify, hstatus, hstrengths]
        exact h.strengths
  | _ => exact h.configure trivial

/-- Every history keeps the relation, as long as what is defuzzified on the way is told alike. -/
theorem run (cs : List (Command α))
    (htold : ∀ pre, pre <+: cs → (e.run pre).status = .succeeded →
      ∀ f', Rearranged order rules rules' (e.run pre) f' →
        ∀ o out, (e.run pre).outputs[o]? = some out → ToldAlike (e.run pre) f' o out) :
    Rearranged order rules rules' (e.run cs) (e'.run (cs.map (Command.rearranged order))) := by
  induction cs generalizing e e' with
  | nil => exact h
  | cons c cs ih =>
      have hstep := h.perform horder c fun hstatus =>
        htold [] (List.nil_prefix) hstatus e' h
      refine ih hstep fun pre hpre hstatus f' hf' => ?_
      exact htold (c :: pre) (List.cons_prefix_cons.2 ⟨rfl, hpre⟩) hstatus f' hf'

end Steps

/-! ## What consequents assert -/

section Firing

variable (horder : Rearranges order rules rules') (h : Rearranged order rules rules' e e')
  (hstatus : e.status = .succeeded)

include h hstatus

/-- The strength that a rule is used with is the one in its slot. -/
theorem firing_eq (o : Nat) :
    e.firing o = rules.zipIdx.flatMap fun r => Firing.ofRule o r.1 (e.strengths[r.2]?.getD 0) := by
  have hspells := (premises_ok_iff_spells h.bound h.stream).1 (h.confirmed hstatus).1
  have hslots : rules.length ≤ e.strengths.length := by
    rw [hspells.count]
    exact h.bound.slots
  rw [firing_of_spells h.bound hspells, Firing.flatMap_zipIdx_eq (Firing.ofRule o) hslots]
  rfl

include horder

/-- A rearranged rule is used with the strength of the rule it came from. -/
theorem firing_eq' (o : Nat) :
    e'.firing o =
      (rules'.zip order).flatMap fun r => Firing.ofRule o r.1 (e.strengths[r.2]?.getD 0) := by
  have hstatus' : e'.status = .succeeded := h.status.trans hstatus
  have hspells' := (premises_ok_iff_spells h.bound' h.stream').1 (h.confirmed' hstatus').1
  have hslots' : rules'.length ≤ e'.strengths.length := by
    rw [hspells'.count]
    exact h.bound'.slots
  have hpairs : rules'.zipIdx.map (fun r => (r.1, e'.strengths[r.2]?.getD 0)) =
      (rules'.zip order).map fun r => (r.1, e.strengths[r.2]?.getD 0) := by
    apply List.ext_getElem?
    intro i
    cases hij : order[i]? with
    | none =>
        have hnone : rules'[i]? = none := by
          rw [List.getElem?_eq_none_iff] at hij ⊢
          rwa [horder.length]
        simp [hnone, hij, List.zip, List.getElem?_zipWith]
    | some j =>
        have hstrength := h.strengths hstatus hij
        cases hr : rules'[i]? with
        | none => simp [hr, List.zip, List.getElem?_zipWith]
        | some r => simp [hr, hij, hstrength, List.zip, List.getElem?_zipWith]
  rw [firing_of_spells h.bound' hspells', Firing.ofRules,
    ← Firing.flatMap_zipIdx_eq (Firing.ofRule o) hslots']
  calc rules'.zipIdx.flatMap (fun r => Firing.ofRule o r.1 (e'.strengths[r.2]?.getD 0))
      = (rules'.zipIdx.map fun r => (r.1, e'.strengths[r.2]?.getD 0)).flatMap
          (fun r => Firing.ofRule o r.1 r.2) := by rw [List.flatMap_map]
    _ = ((rules'.zip order).map fun r => (r.1, e.strengths[r.2]?.getD 0)).flatMap
          (fun r => Firing.ofRule o r.1 r.2) := by rw [hpairs]
    _ = _ := by rw [List.flatMap_map]

end Firing

end Rearranged

/-! ## Setting up -/

omit [Scalar α] in
/-- Where an engine over the rules can be set up, one over the rearranged rules can, if there is a
slot for each of them. -/
theorem exists_rearranged {order : List Nat} {rules rules' : List Rule}
    (horder : Rearranges order rules rules') {w : Width} {architecture : Architecture}
    {tables : Tables α} {n n' : Nat} {config : Config} {e₀ : Engine α}
    (hsetup : setup w architecture tables (Rule.stream w rules) n config = .ok e₀)
    (hcount : n' + rules.length = n + rules'.length) {slots : List α} (hslots : n' ≤ slots.length) :
    ∃ e₀', setup w architecture { tables with strengths := slots } (Rule.stream w rules') n'
        config = .ok e₀' ∧ Rearranged order rules rules' e₀ e₀' := by
  have hlength : rules.length ≤ rules'.length := by
    have hsubset : List.range rules.length ⊆ order := by
      intro i hi
      exact (horder.mem_iff i).2 (List.mem_range.1 hi)
    have hle := (List.subperm_of_subset List.nodup_range hsubset).length_le
    rwa [List.length_range, ← horder.length] at hle
  obtain ⟨haccepted, -, hfits, rfl⟩ := setup_eq_ok_iff.1 hsetup
  have hpos := haccepted.ruleCount
  have haccepted' : Script.Accepted ⟨w, tables.sizes, n', Rule.stream w rules'⟩ := by
    refine ⟨haccepted.fit, haccepted.inputs, haccepted.outputs, haccepted.inputMemberships,
      haccepted.outputMemberships, List.cons_ne_nil _ _, ?_⟩
    dsimp only at hpos ⊢
    omega
  have hsetup' : setup w architecture { tables with strengths := slots } (Rule.stream w rules') n'
      config = .ok _ := setup_eq_ok_iff.2 ⟨haccepted', hslots, hfits, rfl⟩
  refine ⟨_, hsetup', ?_⟩
  constructor
  case same => rfl
  case width => rfl
  case status => rfl
  case stream => rfl
  case stream' => rfl
  case count => exact hcount
  case weights => exact fun _ => rfl
  case strengths =>
    intro hsucceeded
    cases hsucceeded
  case bound => exact bound_of_setup hsetup
  case bound' => exact bound_of_setup hsetup'
  case confirmed => exact confirmed_of_setup hsetup
  case confirmed' => exact confirmed_of_setup hsetup'
  case fits => exact hfits

/-- The two engines answer alike, now and to the next stage of a cycle: inference accepts or refuses
the rules of both, each strength of an inference that stands is that of the rule it came from, and
the outputs hold the same samples, accumulators, regions and crisp values. -/
structure AnswersAlike (order : List Nat) (e e' : Engine α) : Prop where
  accepts : e'.inference.2 = .ok () ↔ e.inference.2 = .ok ()
  status : e'.status = e.status
  strengths : e.status = .succeeded → ∀ i j : Nat, order[i]? = some j →
    ∃ s, e.strengths[j]? = some s ∧ e'.strengths[i]? = some s
  outputs : e'.outputs = e.outputs
  samples : e.status = .succeeded → e.architecture = .mamdani → ∀ k,
    (e'.atSample k).1.outputs = (e.atSample k).1.outputs
  defuzzified : e'.defuzzify.1.outputs = e.defuzzify.1.outputs ∧ e'.defuzzify.2 = e.defuzzify.2

/-- Engines that are related answer alike, if what is defuzzified is told alike. -/
theorem Rearranged.answersAlike {order : List Nat} {rules rules' : List Rule} {e e' : Engine α}
    (h : Rearranged order rules rules' e e') (horder : Rearranges order rules rules')
    (hready : e.status = .succeeded → ∃ rs, e.Ready rs)
    (hready' : e'.status = .succeeded → ∃ rs, e'.Ready rs)
    (htold : e.status = .succeeded → ∀ o out, e.outputs[o]? = some out → ToldAlike e e' o out) :
    AnswersAlike order e e' := by
  have hdefuzzify := h.defuzzify_eq_of_told htold
  constructor
  case accepts => rw [inference_ok_iff, inference_ok_iff, h.premises_ok_iff horder]
  case status => exact h.status
  case strengths =>
    intro hstatus i j hij
    have hspells := (premises_ok_iff_spells h.bound h.stream).1 (h.confirmed hstatus).1
    have hj := (horder.mem_iff j).1 (List.mem_of_getElem? hij)
    have hcount := hspells.count
    have hslots := h.bound.slots
    have hjs : j < e.strengths.length := by omega
    have hslot : e.strengths[j]? = some e.strengths[j] := List.getElem?_eq_getElem hjs
    exact ⟨_, hslot, (h.strengths hstatus hij).trans hslot⟩
  case outputs => exact h.outputs
  case samples =>
    intro hstatus harch k
    obtain ⟨rs, hrs⟩ := hready hstatus
    obtain ⟨rs', hrs'⟩ := hready' (h.status.trans hstatus)
    have harch' : e'.architecture = .mamdani :=
      ((congrArg Engine.architecture h.same).trans rfl).trans harch
    rw [hrs.atSample_eq harch, hrs'.atSample_eq harch', h.config]
    have hcurves := fun o out hout => (htold hstatus o out hout).curve harch
    apply List.ext_getElem?
    intro o
    rw [getElem?_mapOutputsIdx, getElem?_mapOutputsIdx, h.outputs]
    cases hout : e.outputs[o]? with
    | none => rw [Option.map_none, Option.map_none]
    | some out => rw [Option.map_some, Option.map_some, hcurves o out hout]
  case defuzzified =>
    rw [hdefuzzify]
    exact ⟨swapped_outputs .., rfl⟩

end Engine

end FuzzyInference
