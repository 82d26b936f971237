import FuzzyInference.Proofs.Leftmost

/-!
# What a mismatch of rule counts reports

A walk that looks for `n` rules stops behind the `n`th. Over a stream of `m` rules it completes
`min m n` of them, and this is the number that a mismatch reports as parsed
(`Spells.premiseWalk_of_ne`). So the report is right about a stream with too few rules. About a
stream with too many it names the number asked for twice, and it does so exactly where the stream
goes on behind `n` rules (`premiseWalk_ruleCount_self_iff`).
-/

set_option autoImplicit false

namespace FuzzyInference

variable {w : Width} {sizes : Sizes} {n : Nat} {stream : List Int}

/-- Behind rules that are not too many, the walk ends as it stops there. -/
theorem premiseWalk_of_rules (hfit : sizes.Fit w) {rules : List Rule} (hle : rules.length ≤ n)
    (hwithin : ∀ r ∈ rules, r.Within sizes) {rest : List Int} (hend : EndsRule w rest)
    {outcome : Except WalkFault Unit}
    (hstops : (⟨rules, .opening⟩ : Progress).Stops w sizes n rest outcome) :
    ∃ steps, premiseWalk w sizes n
        (Sentinel.opening.code w :: (rules.flatMap (Rule.encode w) ++ rest)) =
      ⟨steps, rules.length, outcome⟩ := by
  obtain ⟨steps, hreads⟩ := Reaches.rules hfit [] hle hwithin hend
  refine ⟨steps, ?_⟩
  have hwalk := hreads.walk_eq
  rw [List.nil_append, hstops.walk_eq hfit] at hwalk
  rw [premiseWalk_cons]
  refine hwalk.trans ?_
  simp [Walk.prepend, Walk.stop]

/-- The walk over another number of rules than it looks for. -/
theorem Spells.premiseWalk_of_ne (hfit : sizes.Fit w) {m : Nat} {rules : List Rule}
    (h : Spells w sizes m stream rules) (hm : m ≠ n) :
    ∃ steps, premiseWalk w sizes n stream =
      ⟨steps, min m n, .error (.ruleCount n (min m n))⟩ := by
  obtain ⟨hcount, hwithin, rest, rfl⟩ := h
  rcases Nat.lt_or_gt_of_ne hm with hlt | hgt
  -- the closing sentinel comes too early
  · have hend : EndsRule w (Sentinel.closing.code w :: rest) := by
      refine ⟨_, rest, rfl, fun hcode => ?_⟩
      cases Sentinel.code_injective hcode
    have hmissing : rules.length < n := hcount ▸ hlt
    have hwalk := premiseWalk_of_rules hfit (Nat.le_of_lt hmissing) hwithin hend
      (.tooFew hmissing rest)
    rw [Nat.min_eq_left (Nat.le_of_lt hlt), ← hcount]
    simpa [Rule.stream] using hwalk
  -- the walk stops in front of the rule behind the last one that it looks for
  · obtain ⟨r, more, hdrop⟩ : ∃ r more, rules.drop n = r :: more := by
      apply List.exists_cons_of_ne_nil
      rw [Ne, List.drop_eq_nil_iff, hcount]
      exact Nat.not_le.2 hgt
    have hlength : (rules.take n).length = n :=
      List.length_take_of_le (hcount ▸ Nat.le_of_lt hgt)
    have hstops : (⟨rules.take n, .opening⟩ : Progress).Stops w sizes n
        (r.encode w ++ (more.flatMap (Rule.encode w) ++ Sentinel.closing.code w :: rest))
        (.error (.ruleCount n (rules.take n).length)) :=
      .tooMany (Nat.le_of_eq hlength.symm) (r.antecedent.tag_ne_code w .closing) _
    have hwalk := premiseWalk_of_rules hfit (Nat.le_of_eq hlength)
      (fun r' hr' => hwithin r' (List.mem_of_mem_take hr')) (endsRule_encode r _) hstops
    have hitems : rules.flatMap (Rule.encode w) = (rules.take n).flatMap (Rule.encode w) ++
        (r.encode w ++ more.flatMap (Rule.encode w)) := by
      rw [← List.flatMap_cons, ← hdrop, ← List.flatMap_append, List.take_append_drop]
    rw [Nat.min_eq_right (Nat.le_of_lt hgt), Rule.stream, hitems]
    simpa [hlength] using hwalk

/-- Behind `n` rules inside the tables the stream goes on with an item that is neither AND, which
would belong to the last of them, nor the closing sentinel. -/
def GoesOn (w : Width) (sizes : Sizes) (n : Nat) (stream : List Int) : Prop :=
  ∃ (rules : List Rule) (x : Int) (left : List Int), rules.length = n ∧
    (∀ r ∈ rules, r.Within sizes) ∧
    stream = Sentinel.opening.code w :: (rules.flatMap (Rule.encode w) ++ x :: left) ∧
    x ≠ Sentinel.and.code w ∧ x ≠ Sentinel.closing.code w

section Mismatch

variable (hfilled : sizes.Filled) (hfit : sizes.Fit w)

include hfilled hfit

/-- A mismatch reports the number of rules that were completed. -/
theorem premiseWalk_ruleCount {expected parsed : Nat}
    (hwalk : (premiseWalk w sizes n stream).outcome = .error (.ruleCount expected parsed)) :
    expected = n ∧ parsed = (premiseWalk w sizes n stream).completed ∧ parsed ≤ n := by
  obtain ⟨steps, q, rest, h⟩ := exists_halts hfilled hfit hwalk (by rintro ⟨⟩)
  have hstops := h.stops
  rw [h.walk_eq hfit]
  cases hstops with
  | tooFew hlt left => exact ⟨rfl, rfl, h.legal.1⟩
  | tooMany hle hx left => exact ⟨rfl, rfl, h.legal.1⟩

/-- A mismatch names one number twice exactly where the stream goes on behind the rules that were
asked for. -/
theorem premiseWalk_ruleCount_self_iff (hn : 0 < n) :
    (premiseWalk w sizes n stream).outcome = .error (.ruleCount n n) ↔
      GoesOn w sizes n stream := by
  constructor
  · intro hwalk
    obtain ⟨steps, q, rest, h⟩ := exists_halts hfilled hfit hwalk (by rintro ⟨⟩)
    have hcount : q.rules.length = n := by
      have hcompleted := (premiseWalk_ruleCount hfilled hfit hwalk).2.1
      rw [h.walk_eq hfit] at hcompleted
      exact hcompleted.symm
    obtain ⟨y, left, hrest, hand⟩ := h.endsRule hn hcount
    have hitems := h.items
    have hstops := h.stops
    rw [Progress.encode, h.legal.2 hcount] at hitems
    cases hstops with
    | tooFew hlt _ => exact absurd hcount (Nat.ne_of_lt hlt)
    | @tooMany _ x hx left' =>
        obtain ⟨rfl, rfl⟩ := List.cons.inj hrest
        refine ⟨q.rules, x, left', hcount, h.within.1, ?_, hand, hx⟩
        rw [← hitems]
        simp [Pending.encode]
  · rintro ⟨rules, x, left, hcount, hwithin, rfl, hand, hclosing⟩
    obtain ⟨steps, hwalk⟩ := premiseWalk_of_rules hfit (Nat.le_of_eq hcount) hwithin
      ⟨x, left, rfl, hand⟩ (.tooMany (Nat.le_of_eq hcount.symm) hclosing left)
    rw [hwalk, hcount]

end Mismatch

/-! ## Inference -/

namespace Engine

variable {α : Type} [Scalar α] {architecture : Architecture} {tables : Tables α} {config : Config}
  {e₀ : Engine α}

/-- At any time after setup for `n` rules, inference on a stream of `m` other rules reports that
`min m n` were parsed, the number that it completed. What is expected is always `n`, and what was
parsed is never more. Both are `n` exactly if the stream goes on behind `n` rules. -/
theorem inference_ruleCount
    (hsetup : setup w architecture tables stream n config = .ok e₀) (cs : List (Command α)) :
    (∀ m rules, Spells w tables.sizes m stream rules → m ≠ n →
        (e₀.run cs).inference.2 = .error (.walk (.ruleCount n (min m n))) ∧
          (e₀.run cs).inference.1.completed = min m n) ∧
      (∀ expected parsed,
        (e₀.run cs).inference.2 = .error (.walk (.ruleCount expected parsed)) →
          expected = n ∧ parsed = (e₀.run cs).inference.1.completed ∧ parsed ≤ n) ∧
      ((e₀.run cs).inference.2 = .error (.walk (.ruleCount n n)) ↔
        GoesOn w tables.sizes n stream) := by
  have haccepted := (setup_eq_ok_iff.1 hsetup).1
  simp only [inference_error_iff, inference_completed, (serves_run hsetup cs).premises_eq]
  refine ⟨?_, ?_, ?_⟩
  · intro m rules hspells hm
    obtain ⟨steps, hwalk⟩ := hspells.premiseWalk_of_ne haccepted.fit hm
    rw [hwalk]
    exact ⟨rfl, rfl⟩
  · intro expected parsed hwalk
    exact premiseWalk_ruleCount haccepted.filled haccepted.fit hwalk
  · exact premiseWalk_ruleCount_self_iff haccepted.filled haccepted.fit haccepted.ruleCount

theorem inference_ruleCount_three :
    ∃ e₀, setup .byte .mamdani twoRuleTables (Rule.stream .byte twoRules) 3 .mamdaniClassic =
        .ok e₀ ∧
      e₀.inference.2 = .error (.walk (.ruleCount 3 2)) ∧ e₀.inference.1.completed = 2 := by
  have hspells : Spells .byte twoRuleTables.sizes 2 (Rule.stream .byte twoRules) twoRules :=
    ⟨rfl, by decide, List.prefix_refl _⟩
  obtain ⟨e₀, hsetup⟩ : ∃ e₀, setup .byte .mamdani twoRuleTables (Rule.stream .byte twoRules) 3
      .mamdaniClassic = .ok e₀ := ⟨_, rfl⟩
  exact ⟨e₀, hsetup, (inference_ruleCount hsetup []).1 2 twoRules hspells (by decide)⟩

/-- Two rules where one is expected: the mismatch reports that one was parsed. -/
theorem ruleCount_one_of_two :
    Spells .byte twoRuleTables.sizes 2 (Rule.stream .byte twoRules) twoRules ∧
      ∃ e₀, setup .byte .mamdani twoRuleTables (Rule.stream .byte twoRules) 1 .mamdaniClassic =
          .ok e₀ ∧
        e₀.inference.2 = .error (.walk (.ruleCount 1 1)) ∧
        e₀.inference.2 ≠ .error (.walk (.ruleCount 1 2)) := by
  obtain ⟨e₀, hsetup, hinference⟩ : ∃ e₀, setup .byte .mamdani twoRuleTables
      (Rule.stream .byte twoRules) 1 .mamdaniClassic = .ok e₀ ∧
        e₀.inference.2 = .error (.walk (.ruleCount 1 1)) := ⟨_, rfl, rfl⟩
  refine ⟨⟨rfl, by decide, List.prefix_refl _⟩, e₀, hsetup, hinference, ?_⟩
  rw [hinference]
  simp

end Engine

end FuzzyInference
