import FuzzyInference.Proofs.Grammar

/-!
# What a written stream spells

The items of a rule can be told apart whatever the tables are: a clause is two items, behind an
antecedent stands a connective or THEN, and behind a consequent AND or the end of the rule. So two
rule bases whose streams begin alike are the same (`Rule.flatMap_encode_inj`), also where they name
entries that no table has.

Hence a stream that was written for rules spells these rules or none (`spells_stream_iff`), and the
walk accepts it exactly if they are as many as asked for and lie inside the tables
(`premiseWalk_stream_ok_iff`).
-/

set_option autoImplicit false

namespace FuzzyInference

variable {w : Width}

theorem Reference.code_injective {r r' : Reference} (h : r'.code = r.code) : r' = r := by
  obtain ⟨i, negated⟩ := r
  obtain ⟨i', negated'⟩ := r'
  cases negated <;> cases negated' <;> simp [code] at h ⊢ <;> omega

theorem Assertion.encode_append_inj {a a' : Assertion} {xs xs' : List Int}
    (h : a'.encode ++ xs' = a.encode ++ xs) : a' = a ∧ xs' = xs := by
  obtain ⟨tag, reference⟩ := a
  obtain ⟨tag', reference'⟩ := a'
  simp only [encode, List.cons_append, List.nil_append, List.cons.injEq, Int.natCast_inj] at h
  obtain ⟨htag, hcode, hrest⟩ := h
  exact ⟨by rw [htag, Reference.code_injective hcode], hrest⟩

/-- Further antecedents go on up to THEN. -/
theorem joined_append_inj {js js' : List (Connective × Assertion)} {xs xs' : List Int}
    (h : (js'.flatMap fun j => j.1.sentinel.code w :: j.2.encode) ++
        Sentinel.implies.code w :: xs' =
      (js.flatMap fun j => j.1.sentinel.code w :: j.2.encode) ++ Sentinel.implies.code w :: xs) :
    js' = js ∧ xs' = xs := by
  have hne : ∀ c : Connective, c.sentinel.code w ≠ Sentinel.implies.code w := by
    intro c hcode
    cases c <;> cases Sentinel.code_injective hcode
  induction js generalizing js' with
  | nil =>
      -- THEN on one side cannot stand where a connective stands on the other
      cases js' with
      | nil => exact ⟨rfl, (List.cons.inj h).2⟩
      | cons j' js' => exact absurd (List.cons.inj h).1 (hne j'.1)
  | cons j js ih =>
      cases js' with
      | nil => exact absurd (List.cons.inj h).1.symm (hne j.1)
      | cons j' js' =>
          simp only [List.flatMap_cons, List.cons_append, List.append_assoc] at h
          obtain ⟨hcode, hitems⟩ := List.cons.inj h
          obtain ⟨hassertion, htail⟩ := Assertion.encode_append_inj hitems
          obtain ⟨rfl, rfl⟩ := ih htail
          have hconnective : j'.1 = j.1 := by
            have hsentinel := Sentinel.code_injective hcode
            cases hj : j.1 <;> cases hj' : j'.1 <;>
              simp [hj, hj', Connective.sentinel] at hsentinel ⊢
          exact ⟨by rw [Prod.ext hconnective hassertion], rfl⟩

/-- Further consequents go on as long as AND follows. -/
theorem further_append_inj {cs cs' : List Assertion} {xs xs' : List Int} (hend : EndsRule w xs)
    (hend' : EndsRule w xs')
    (h : (cs'.flatMap fun a => Sentinel.and.code w :: a.encode) ++ xs' =
      (cs.flatMap fun a => Sentinel.and.code w :: a.encode) ++ xs) : cs' = cs ∧ xs' = xs := by
  induction cs generalizing cs' with
  | nil =>
      -- what follows a rule does not begin with AND
      cases cs' with
      | nil => exact ⟨rfl, h⟩
      | cons c' cs' =>
          obtain ⟨x, rest, rfl, hx⟩ := hend
          exact absurd (List.cons.inj h).1.symm hx
  | cons c cs ih =>
      cases cs' with
      | nil =>
          obtain ⟨x, rest, rfl, hx⟩ := hend'
          exact absurd (List.cons.inj h).1 hx
      | cons c' cs' =>
          simp only [List.flatMap_cons, List.cons_append, List.append_assoc] at h
          obtain ⟨rfl, htail⟩ := Assertion.encode_append_inj (List.cons.inj h).2
          obtain ⟨rfl, rfl⟩ := ih htail
          exact ⟨rfl, rfl⟩

namespace Rule

theorem encode_append_inj {r r' : Rule} {xs xs' : List Int} (hend : EndsRule w xs)
    (hend' : EndsRule w xs') (h : r'.encode w ++ xs' = r.encode w ++ xs) : r' = r ∧ xs' = xs := by
  obtain ⟨a, js, c, cs⟩ := r
  obtain ⟨a', js', c', cs'⟩ := r'
  simp only [encode, encodePremise, encodeConsequents, List.append_assoc, List.cons_append] at h
  obtain ⟨rfl, hjoined⟩ := Assertion.encode_append_inj h
  obtain ⟨rfl, hconsequents⟩ := joined_append_inj hjoined
  obtain ⟨rfl, hfurther⟩ := Assertion.encode_append_inj hconsequents
  obtain ⟨rfl, rfl⟩ := further_append_inj hend hend' hfurther
  exact ⟨rfl, rfl⟩

/-- A rule begins with a tag, which is no closing sentinel. -/
theorem encode_append_ne_closing (r : Rule) (xs rest : List Int) :
    r.encode w ++ xs ≠ Sentinel.closing.code w :: rest := by
  intro h
  exact r.antecedent.tag_ne_code w .closing (List.cons.inj h).1

theorem flatMap_encode_inj {rules rules' : List Rule} {rest rest' : List Int}
    (h : rules'.flatMap (encode w) ++ Sentinel.closing.code w :: rest' =
      rules.flatMap (encode w) ++ Sentinel.closing.code w :: rest) : rules' = rules := by
  have hends : ∀ (rules : List Rule) (rest : List Int),
      EndsRule w (rules.flatMap (encode w) ++ Sentinel.closing.code w :: rest) := by
    intro rules rest
    refine endsRule_flatMap_encode rules ⟨_, rest, rfl, ?_⟩
    intro hcode
    cases Sentinel.code_injective hcode
  induction rules generalizing rules' with
  | nil =>
      cases rules' with
      | nil => rfl
      | cons r' rules' =>
          rw [List.flatMap_cons, List.append_assoc] at h
          exact absurd h (r'.encode_append_ne_closing _ _)
  | cons r rules ih =>
      cases rules' with
      | nil =>
          rw [List.flatMap_cons, List.append_assoc] at h
          exact absurd h.symm (r.encode_append_ne_closing _ _)
      | cons r' rules' =>
          rw [List.flatMap_cons, List.flatMap_cons, List.append_assoc, List.append_assoc] at h
          obtain ⟨rfl, htail⟩ := encode_append_inj (hends rules rest) (hends rules' rest') h
          rw [ih htail]

end Rule

/-- What is written for rules spells these rules, if they are as many as asked for and lie inside
the tables, and nothing else. -/
theorem spells_stream_iff {sizes : Sizes} {n : Nat} {rules rules' : List Rule} :
    Spells w sizes n (Rule.stream w rules) rules' ↔
      rules' = rules ∧ rules.length = n ∧ ∀ r ∈ rules, r.Within sizes := by
  constructor
  · intro h
    obtain ⟨rest, hrest⟩ := h.opens
    simp only [Rule.stream, List.cons_append, List.append_assoc, List.nil_append,
      List.cons.injEq, true_and] at hrest
    obtain rfl := Rule.flatMap_encode_inj hrest
    exact ⟨rfl, h.count, h.within⟩
  · rintro ⟨rfl, hcount, hwithin⟩
    exact ⟨hcount, hwithin, List.prefix_refl _⟩

theorem premiseWalk_stream_ok_iff {sizes : Sizes} {n : Nat} (hfit : sizes.Fit w)
    {rules : List Rule} :
    (premiseWalk w sizes n (Rule.stream w rules)).outcome = .ok () ↔
      rules.length = n ∧ ∀ r ∈ rules, r.Within sizes := by
  rw [premiseWalk_ok_iff hfit]
  constructor
  · rintro ⟨rules', h⟩
    exact (spells_stream_iff.1 h).2
  · intro h
    exact ⟨rules, spells_stream_iff.2 ⟨rfl, h⟩⟩

end FuzzyInference
