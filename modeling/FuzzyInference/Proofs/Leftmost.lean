import FuzzyInference.Proofs.Lending
import FuzzyInference.Proofs.Spelling
import FuzzyInference.Proofs.Stops

/-!
# Where inference reports a fault

A walk that fails on an item has read what stands in front of it, and this can be continued to a
good stream. The walk fails there on every stream that begins so (`premiseWalk_wrong`), so no good
stream does: the item that is reported is the leftmost wrong one. A walk fails for want of items
only at the end of the stream, where a good stream goes on (`premiseWalk_truncated`), and a walk
that does not is settled by the items that it has (`premiseWalk_append`). So a good stream that is
cut off is reported as cut off, wherever that is (`premiseWalk_cut`).
-/

set_option autoImplicit false

namespace FuzzyInference

variable {w : Width} {sizes : Sizes} {n : Nat}

/-! ## Streams -/

section Streams

variable {stream : List Int} (hfilled : sizes.Filled) (hfit : sizes.Fit w)

include hfilled hfit

/-- Up to the item that a fault is at, the stream is viable, and what stands behind this item makes
no difference to the walk. -/
theorem premiseWalk_wrong {fault : StreamFault} {j : Nat} {x : Int}
    (hwalk : (premiseWalk w sizes n stream).outcome = .error (.malformed fault))
    (hwrong : fault.wrong? = some (j, x)) :
    ∃ front left, stream = front ++ x :: left ∧ front.length = j ∧ Viable w sizes n front ∧
      ∀ left', (premiseWalk w sizes n (front ++ x :: left')).outcome =
        .error (.malformed fault) := by
  obtain ⟨steps, q, rest, h⟩ := exists_halts hfilled hfit hwalk (by rintro ⟨⟩; cases hwrong)
  have hstops := h.stops
  -- of the stops only the last is at an item: the others are at the end, or count rules
  cases hstops with
  | unclosed hle => cases hwrong
  | starved hlt hwithin hread => cases hwrong
  | @spoilt hlt read x' _ hspoils left =>
      obtain ⟨rfl, rfl⟩ : q.position w + read.length = j ∧ x' = x := by
        simpa [hspoils.wrong] using hwrong
      obtain ⟨a, ha, hread⟩ := hspoils.exists_read hfilled
      refine ⟨q.encode w ++ read, left, ?_, List.length_append, ?_, ?_⟩
      · rw [List.append_assoc, h.items]
      · exact Progress.viable_append hfilled h.within hlt ha hread
      · intro left'
        rw [List.append_assoc, h.walk_of_spoilt hfit hlt hspoils left']

/-- A walk runs out of items at the end of the stream only, and then items can follow with which it
would not have. -/
theorem premiseWalk_truncated (hn : 0 < n) {j : Nat}
    (hwalk : (premiseWalk w sizes n stream).outcome = .error (.malformed (.truncated j))) :
    j = stream.length ∧ Viable w sizes n stream ∧
      (premiseWalk w sizes n stream).completed < n := by
  obtain ⟨steps, q, rest, h⟩ := exists_halts hfilled hfit hwalk (by rintro ⟨⟩)
  have hstops := h.stops
  rw [h.walk_eq hfit]
  cases hstops with
  -- behind the last rule there is always an item
  | unclosed hle =>
      obtain ⟨y, left, hrest, -⟩ := h.endsRule hn (Nat.le_antisymm h.legal.1 hle)
      cases hrest
  | starved hlt hwithin hread =>
      refine ⟨?_, ?_, hlt⟩
      · rw [← h.items, List.length_append]
        rfl
      · rw [← h.items]
        exact Progress.viable_append hfilled h.within hlt hwithin hread
  | spoilt hlt hspoils left => cases hspoils.wrong

theorem premiseWalk_missingOpening_iff :
    (premiseWalk w sizes n stream).outcome = .error (.malformed .missingOpening) ↔
      stream.head? ≠ some (Sentinel.opening.code w) := by
  constructor
  · intro hwalk hhead
    obtain ⟨items, rfl⟩ := List.head?_eq_some_iff.1 hhead
    obtain ⟨steps, q, rest, outcome, h⟩ := exists_halts_cons hfilled hfit n items
    obtain rfl : outcome = .error (.malformed .missingOpening) := by rw [← hwalk, h.walk_eq hfit]
    cases h.stops with
    | spoilt hlt hspoils left => cases hspoils.wrong
  · intro hhead
    rw [premiseWalk_of_not_opening]
    · rfl
    · rintro items rfl
      exact hhead rfl

/-- A walk that does not run out of items reads nothing of what is written behind the stream. -/
theorem premiseWalk_append
    (hwalk : ∀ j, (premiseWalk w sizes n stream).outcome ≠ .error (.malformed (.truncated j)))
    (hopens : stream.head? = some (Sentinel.opening.code w)) (more : List Int) :
    premiseWalk w sizes n (stream ++ more) = premiseWalk w sizes n stream := by
  obtain ⟨items, rfl⟩ := List.head?_eq_some_iff.1 hopens
  obtain ⟨steps, q, rest, outcome, h⟩ := exists_halts_cons hfilled hfit n items
  rw [h.walk_eq hfit] at hwalk ⊢
  rw [← h.items, List.append_assoc]
  have hstops := h.stops
  cases hstops with
  | accepted hle left => exact h.walk_of_stops hfit rfl (.accepted hle (left ++ more))
  | tooFew hlt left => exact h.walk_of_stops hfit rfl (.tooFew hlt (left ++ more))
  | tooMany hle hx left => exact h.walk_of_stops hfit rfl (.tooMany hle hx (left ++ more))
  | unclosed hle => exact absurd rfl (hwalk _)
  | starved hlt hwithin hread => exact absurd rfl (hwalk _)
  | spoilt hlt hspoils left =>
      rw [List.append_assoc, List.cons_append]
      exact h.walk_of_spoilt hfit hlt hspoils (left ++ more)

/-- What is written for rules and cut off behind its first item runs out of items where it was cut
off. -/
theorem premiseWalk_cut (hn : 0 < n) {good : List Int} (hgood : Written w sizes n good) {j : Nat}
    (hj : 0 < j) (hcut : j < good.length) :
    (premiseWalk w sizes n (good.take j)).outcome = .error (.malformed (.truncated j)) ∧
      (premiseWalk w sizes n (good.take j)).completed < n := by
  obtain ⟨rules, hcount, hwithin, rfl⟩ := hgood
  have hlength : ((Rule.stream w rules).take j).length = j :=
    List.length_take_of_le (Nat.le_of_lt hcut)
  by_cases hwalk : ∃ k, (premiseWalk w sizes n ((Rule.stream w rules).take j)).outcome =
      .error (.malformed (.truncated k))
  · obtain ⟨k, hwalk⟩ := hwalk
    obtain ⟨hk, -, hcompleted⟩ := premiseWalk_truncated hfilled hfit hn hwalk
    rw [hlength] at hk
    exact ⟨hk ▸ hwalk, hcompleted⟩
  -- otherwise the walk is that over the whole, and the rules are spelt by the part already
  · have hopens : ((Rule.stream w rules).take j).head? = some (Sentinel.opening.code w) := by
      cases j with
      | zero => exact absurd hj (Nat.lt_irrefl 0)
      | succ j => rfl
    have hwhole := premiseWalk_append hfilled hfit (fun k hk => hwalk ⟨k, hk⟩) hopens
      ((Rule.stream w rules).drop j)
    rw [List.take_append_drop] at hwhole
    have hok := (premiseWalk_stream_ok_iff hfit).2 ⟨hcount, hwithin⟩
    rw [hwhole] at hok
    obtain ⟨rules', hspells⟩ := exists_spells hok
    obtain ⟨rfl, -, -⟩ := spells_stream_iff.1 (⟨hspells.count, hspells.within,
      hspells.opens.trans (List.take_prefix j _)⟩ : Spells w sizes n (Rule.stream w rules) rules')
    have hle := hspells.opens.length_le
    rw [hlength] at hle
    exact absurd hcut (Nat.not_lt.2 hle)

end Streams

/-! ## Inference -/

theorem Script.Accepted.filled {stream : List Int} (h : Accepted ⟨w, sizes, n, stream⟩) :
    sizes.Filled :=
  ⟨⟨h.inputs, h.inputMemberships⟩, ⟨h.outputs, h.outputMemberships⟩⟩

namespace Engine

variable {α : Type} [Scalar α] {architecture : Architecture} {tables : Tables α} {config : Config}
  {e₀ : Engine α} {stream : List Int}

theorem inference_error_iff (e : Engine α) {fault : WalkFault} :
    e.inference.2 = .error (.walk fault) ↔ e.premises.outcome = .error fault := by
  obtain ⟨-, -, -, hresult⟩ := e.inference_eq
  rw [hresult]
  cases e.premises.outcome with
  | ok u => exact ⟨nofun, nofun⟩
  | error fault' =>
      constructor
      · rintro ⟨⟩
        rfl
      · rintro ⟨⟩
        rfl

/-- At any time after setup, an inference that reports an item reports the first one that no good
stream goes on with. One that reports a stream as cut off reports its end, where a good stream would
go on. It misses the opening exactly where another item or none comes first. Every good stream that
is cut off is reported as cut off, and not all of its rules are completed. -/
theorem inference_reports_leftmost
    (hsetup : setup w architecture tables stream n config = .ok e₀) (cs : List (Command α)) :
    (∀ fault j x, (e₀.run cs).inference.2 = .error (.walk (.malformed fault)) →
        fault.wrong? = some (j, x) →
        stream[j]? = some x ∧ Viable w tables.sizes n (stream.take j) ∧
          ¬ Viable w tables.sizes n (stream.take (j + 1))) ∧
      (∀ j, (e₀.run cs).inference.2 = .error (.walk (.malformed (.truncated j))) →
        j = stream.length ∧
          ∃ good, Written w tables.sizes n good ∧ stream <+: good ∧ stream ≠ good) ∧
      ((e₀.run cs).inference.2 = .error (.walk (.malformed .missingOpening)) ↔
        stream.head? ≠ some (Sentinel.opening.code w)) ∧
      ∀ good, Written w tables.sizes n good → ∀ j, 0 < j → j < good.length →
        ∃ e₁, setup w architecture tables (good.take j) n config = .ok e₁ ∧
          ∀ cs, (e₁.run cs).inference.2 = .error (.walk (.malformed (.truncated j))) ∧
            (e₁.run cs).inference.1.completed < n := by
  obtain ⟨haccepted, hslots, hfits, -⟩ := setup_eq_ok_iff.1 hsetup
  have hfilled := haccepted.filled
  have hfit := haccepted.fit
  have hok : ∀ good, Written w tables.sizes n good →
      (premiseWalk w tables.sizes n good).outcome = .ok () := by
    rintro good ⟨rules, hcount, hwithin, rfl⟩
    exact (premiseWalk_stream_ok_iff hfit).2 ⟨hcount, hwithin⟩
  simp only [inference_error_iff, inference_completed, (serves_run hsetup cs).premises_eq]
  refine ⟨?_, ?_, premiseWalk_missingOpening_iff hfilled hfit, ?_⟩
  · intro fault j x hwalk hwrong
    obtain ⟨front, left, rfl, rfl, hviable, hanyway⟩ :=
      premiseWalk_wrong hfilled hfit hwalk hwrong
    refine ⟨by simp, by simpa using hviable, ?_⟩
    -- a good stream that goes on with the item would be accepted, and the walk fails on it
    rintro ⟨good, hgood, left', rfl⟩
    have htake : (front ++ x :: left).take (front.length + 1) = front ++ [x] := by
      rw [List.take_length_add_append]
      rfl
    rw [htake, List.append_assoc, List.singleton_append] at hgood
    have hnot := hanyway left'
    rw [hok _ hgood] at hnot
    cases hnot
  · intro j hwalk
    obtain ⟨hj, ⟨good, hgood, hbegins⟩, -⟩ :=
      premiseWalk_truncated hfilled hfit haccepted.ruleCount hwalk
    refine ⟨hj, good, hgood, hbegins, ?_⟩
    rintro rfl
    rw [hok _ hgood] at hwalk
    cases hwalk
  · intro good hgood j hj hcut
    have hrules : good.take j ≠ [] := by
      intro hnil
      have hlength := List.length_take_of_le (Nat.le_of_lt hcut)
      rw [hnil] at hlength
      exact absurd hlength (Nat.ne_of_lt hj)
    obtain ⟨e₁, he₁⟩ : ∃ e₁, setup w architecture tables (good.take j) n config = .ok e₁ :=
      ⟨_, setup_eq_ok_iff.2 ⟨⟨hfit, haccepted.inputs, haccepted.outputs,
        haccepted.inputMemberships, haccepted.outputMemberships, hrules, haccepted.ruleCount⟩,
        hslots, hfits, rfl⟩⟩
    refine ⟨e₁, he₁, fun cs => ?_⟩
    rw [(serves_run he₁ cs).premises_eq]
    exact premiseWalk_cut hfilled hfit haccepted.ruleCount hgood hj hcut

/-- The two rules with a reference to a third output function in the first consequent. -/
def strayReference : List Int := (Rule.stream .byte twoRules).set 11 3

theorem inference_reports_leftmost_strayReference :
    (∃ e₀, setup .byte .mamdani twoRuleTables strayReference 2 .mamdaniClassic = .ok e₀ ∧
        e₀.inference.2 = .error (.walk (.malformed (.referenceOutOfRange 11 3 2)))) ∧
      Viable .byte twoRuleTables.sizes 2 (strayReference.take 11) ∧
      ¬ Viable .byte twoRuleTables.sizes 2 (strayReference.take 12) ∧
      ∃ e₁, setup .byte .mamdani twoRuleTables ((Rule.stream .byte twoRules).take 11) 2
          .mamdaniClassic = .ok e₁ ∧
        e₁.inference.2 = .error (.walk (.malformed (.truncated 11))) := by
  obtain ⟨e₀, hsetup, hinference⟩ : ∃ e₀, setup .byte .mamdani twoRuleTables strayReference 2
      .mamdaniClassic = .ok e₀ ∧
        e₀.inference.2 = .error (.walk (.malformed (.referenceOutOfRange 11 3 2))) :=
    ⟨_, rfl, rfl⟩
  obtain ⟨hwrong, -, -, hcut⟩ := inference_reports_leftmost hsetup []
  obtain ⟨-, hviable, hnot⟩ := hwrong _ 11 3 hinference rfl
  have hgood : Written .byte twoRuleTables.sizes 2 (Rule.stream .byte twoRules) :=
    ⟨twoRules, rfl, by decide, rfl⟩
  obtain ⟨e₁, hsetup₁, htruncated⟩ := hcut _ hgood 11 (by decide) (by decide)
  exact ⟨⟨e₀, hsetup, hinference⟩, hviable, hnot, e₁, hsetup₁, (htruncated []).1⟩

end Engine

end FuzzyInference
