import FuzzyInference.Rule.Phrase
import FuzzyInference.Walk.Basic

/-!
# Reading back what was written

A sentinel, a tag and a reference are all integers of one width, and a walk tells them apart by
their values alone. This file shows that nothing written into a stream is mistaken for something
else when it is read: a code reads back as its sentinel (`Token.ofItem_code`), an assertion that
lies inside tables of encodable sizes has no sentinel among its items (`Assertion.plain_of_within`),
and a clause is read exactly when it was written there (`Clause.first_ok`,
`Clause.first_of_within`).

`Sizes.Fit` states the limits that setup puts on the tables. They are needed only to read back what
was written; what was read is inside the tables without them.
-/

set_option autoImplicit false

namespace FuzzyInference

variable {w : Width}

/-! ## Sentinels and tokens -/

namespace Sentinel

theorem mem_all (s : Sentinel) : s ∈ all := by
  cases s <;> simp [all]

/-- Every sentinel lies below the lowest reference. -/
theorem code_lt (w : Width) (s : Sentinel) : s.code w < -(w.maxReference : Int) := by
  cases w <;> cases s <;> decide

theorem code_neg (w : Width) (s : Sentinel) : s.code w < 0 := by
  have h := code_lt w s
  omega

theorem code_injective {s t : Sentinel} (h : s.code w = t.code w) : s = t := by
  have hr : s.rank = t.rank := by
    change w.lowest + (s.rank : Int) = w.lowest + (t.rank : Int) at h
    omega
  cases s <;> cases t <;> first | rfl | simp [rank] at hr

theorem ofItem?_eq_some_iff {item : Int} {s : Sentinel} :
    ofItem? w item = some s ↔ item = s.code w := by
  constructor
  · intro h
    simpa using List.find?_some h
  · rintro rfl
    cases hf : ofItem? w (s.code w) with
    | none =>
        have hne := List.find?_eq_none.1 hf s (mem_all s)
        simp at hne
    | some t =>
        have ht : s.code w = t.code w := by simpa using List.find?_some hf
        rw [code_injective ht]

theorem ofItem?_code (w : Width) (s : Sentinel) : ofItem? w (s.code w) = some s :=
  ofItem?_eq_some_iff.2 rfl

end Sentinel

namespace Token

@[simp] theorem ofItem_code (w : Width) (s : Sentinel) :
    ofItem w (s.code w) = .sentinel s := by
  rw [ofItem, Sentinel.ofItem?_code]

theorem ofItem_eq_sentinel_iff {item : Int} {s : Sentinel} :
    ofItem w item = .sentinel s ↔ item = s.code w := by
  rw [← Sentinel.ofItem?_eq_some_iff, ofItem]
  cases Sentinel.ofItem? w item <;> simp

theorem ofItem_ne_sentinel {item : Int} {s : Sentinel} (h : item ≠ s.code w) :
    ofItem w item ≠ .sentinel s :=
  fun htoken => h (ofItem_eq_sentinel_iff.1 htoken)

/-- A token keeps the item that it was read from. -/
@[simp] theorem code_ofItem (w : Width) (item : Int) : (ofItem w item).code w = item := by
  cases h : ofItem w item with
  | sentinel s => exact (ofItem_eq_sentinel_iff.1 h).symm
  | item value =>
      rw [ofItem] at h
      cases hs : Sentinel.ofItem? w item with
      | some s => simp [hs] at h
      | none =>
          simp only [hs, Token.item.injEq] at h
          exact h.symm

theorem eq_of_ofItem_eq_item {item value : Int} (h : ofItem w item = .item value) :
    item = value := by
  rw [← code_ofItem w item, h, code]

/-- Items that are no sentinel are those above the sentinels, as far as a width goes. -/
theorem ofItem_of_le {item : Int} (h : -(w.maxReference : Int) ≤ item) :
    ofItem w item = .item item := by
  cases ht : ofItem w item with
  | sentinel s =>
      have hlt := Sentinel.code_lt w s
      rw [ofItem_eq_sentinel_iff.1 ht] at h
      omega
  | item value => rw [eq_of_ofItem_eq_item ht]

theorem isSentinel_ofItem_of_item {item value : Int} (h : ofItem w item = .item value) :
    (ofItem w item).isSentinel = false := by
  rw [h, isSentinel]

end Token

/-! ## References -/

namespace Reference

theorem code_ne_zero (r : Reference) : r.code ≠ 0 := by
  unfold code
  split <;> omega

/-- The code of a reference of the width lies between the highest sentinel and the top. -/
theorem code_bounds {r : Reference} (h : r.index < w.maxReference) :
    -(w.maxReference : Int) ≤ r.code ∧ r.code ≤ w.maxReference := by
  unfold code
  split <;> omega

/-- A reference reads back as itself. -/
theorem ofItem?_code {r : Reference} (h : r.index < w.maxReference) :
    ofItem? w r.code = some r := by
  have hs : (Token.ofItem w r.code).isSentinel = false :=
    Token.isSentinel_ofItem_of_item (Token.ofItem_of_le (code_bounds h).1)
  rw [ofItem?, if_neg (by simp [hs, code_ne_zero])]
  rcases r with ⟨index, negated⟩
  cases negated with
  | false =>
      have hi : ((index : Int) + 1).natAbs - 1 = index := by omega
      have hn : ¬ (index : Int) + 1 < 0 := by omega
      simp [code, hi, hn]
  | true =>
      have hi : (-((index : Int) + 1)).natAbs - 1 = index := by omega
      have hn : -((index : Int) + 1) < 0 := by omega
      simp only [code, if_true, hi, hn, decide_true]

/-- An item that was read as a reference is its code. -/
theorem code_of_ofItem? {item : Int} {r : Reference} (h : ofItem? w item = some r) :
    r.code = item := by
  unfold ofItem? at h
  split at h
  · cases h
  · rename_i hz
    simp only [Option.some.injEq] at h
    subst h
    have h0 : item ≠ 0 := fun h0 => hz (Or.inl h0)
    by_cases hn : item < 0
    · simp only [code, hn, decide_true, if_true]
      omega
    · simp only [code, hn, decide_false, Bool.false_eq_true, if_false]
      omega

/-- Every membership tag below the limit of the width can be written. -/
theorem encode?_eq_code {r : Reference} (h : r.index < w.maxReference) :
    encode? w r.index r.negated = some r.code := by
  have hi : 0 ≤ (r.index : Int) ∧ (r.index : Int) < w.maxReference := ⟨by omega, by omega⟩
  rw [encode?, if_pos hi, Int.toNat_natCast]

end Reference

/-! ## Assertions -/

/-- No item of the assertion is read as a sentinel. -/
def Assertion.Plain (w : Width) (a : Assertion) : Prop :=
  Token.ofItem w a.tag = .item a.tag ∧ Token.ofItem w a.reference.code = .item a.reference.code

namespace Assertion

theorem plain_of_within {limits : Limits} {a : Assertion}
    (hfit : limits.memberships ≤ w.maxReference) (ha : a.Within limits) : a.Plain w := by
  have hindex : a.reference.index < w.maxReference := Nat.lt_of_lt_of_le ha.2 hfit
  refine ⟨Token.ofItem_of_le ?_, Token.ofItem_of_le (Reference.code_bounds hindex).1⟩
  omega

/-- A tag is no code of a sentinel, whatever the tables. -/
theorem tag_ne_code (a : Assertion) (w : Width) (s : Sentinel) : (a.tag : Int) ≠ s.code w := by
  have h := Sentinel.code_neg w s
  omega

end Assertion

/-! ## Clauses -/

namespace Limits

variable {limits : Limits} {index : Nat}

theorem tag_ok {token : Token} {tag : Nat} (h : limits.tag w index token = .ok tag) :
    token = .item tag ∧ tag < limits.tags := by
  cases token with
  | sentinel s => simp [Limits.tag] at h
  | item value =>
      simp only [Limits.tag] at h
      split at h
      · rename_i hv
        simp only [Except.ok.injEq] at h
        subst h
        have hvalue : (value.toNat : Int) = value := by omega
        exact ⟨by rw [hvalue], by omega⟩
      · cases h

theorem reference_ok {token : Token} {r : Reference}
    (h : limits.reference w index token = .ok r) :
    token = .item r.code ∧ r.index < limits.memberships := by
  cases token with
  | sentinel s => simp [Limits.reference] at h
  | item value =>
      simp only [Limits.reference] at h
      cases hr : Reference.ofItem? w value with
      | none => simp [hr] at h
      | some r' =>
          simp only [hr] at h
          split at h
          · rename_i hlt
            simp only [Except.ok.injEq] at h
            subst h
            exact ⟨by rw [Reference.code_of_ofItem? hr], hlt⟩
          · cases h

theorem tag_of_lt {tag : Nat} (h : tag < limits.tags) :
    limits.tag w index (.item tag) = .ok tag := by
  have hi : 0 ≤ (tag : Int) ∧ (tag : Int) < limits.tags := ⟨by omega, by omega⟩
  simp only [Limits.tag, if_pos hi, Int.toNat_natCast]

theorem reference_of_lt {r : Reference} (hfit : limits.memberships ≤ w.maxReference)
    (h : r.index < limits.memberships) :
    limits.reference w index (.item r.code) = .ok r := by
  have hr := Reference.ofItem?_code (Nat.lt_of_lt_of_le h hfit)
  simp only [Limits.reference, hr, if_pos h]

end Limits

theorem Token.first_ok {index : Nat} {items : List Int} {token : Token}
    (h : Token.first w index items = .ok token) :
    ∃ value rest, items = value :: rest ∧ token = Token.ofItem w value := by
  cases items with
  | nil => simp [Token.first] at h
  | cons value rest =>
      simp only [Token.first, Except.ok.injEq] at h
      exact ⟨value, rest, rfl, h.symm⟩

namespace Clause

variable {limits : Limits} {index : Nat} {items : List Int} {c : Clause}

/-- A clause that was read stands there, lies inside the tables, and has no sentinel among its
items. -/
theorem first_ok (h : Clause.first w limits index items = .ok c) :
    ∃ f rest, items = c.toAssertion.encode ++ f :: rest ∧ c.follow = Token.ofItem w f ∧
      c.toAssertion.Within limits ∧ c.toAssertion.Plain w := by
  simp only [Clause.first, bind, Except.bind] at h
  cases h0 : Token.first w index items with
  | error fault => simp [h0] at h
  | ok t0 =>
    obtain ⟨v0, rest0, rfl, rfl⟩ := Token.first_ok h0
    simp only [h0] at h
    cases ht : limits.tag w index (Token.ofItem w v0) with
    | error fault => simp [ht] at h
    | ok tag =>
      simp only [ht, List.drop_succ_cons, List.drop_zero] at h
      cases h1 : Token.first w (index + 1) rest0 with
      | error fault => simp [h1] at h
      | ok t1 =>
        obtain ⟨v1, rest1, rfl, rfl⟩ := Token.first_ok h1
        simp only [h1] at h
        cases hr : limits.reference w (index + 1) (Token.ofItem w v1) with
        | error fault => simp [hr] at h
        | ok reference =>
          simp only [hr, List.drop_succ_cons, List.drop_zero] at h
          cases h2 : Token.first w (index + 2) rest1 with
          | error fault => simp [h2] at h
          | ok t2 =>
            obtain ⟨f, rest, rfl, rfl⟩ := Token.first_ok h2
            simp only [h2, pure, Except.pure, Except.ok.injEq] at h
            subst h
            obtain ⟨htag, hlt⟩ := Limits.tag_ok ht
            obtain ⟨href, hlt'⟩ := Limits.reference_ok hr
            have e0 := Token.eq_of_ofItem_eq_item htag
            have e1 := Token.eq_of_ofItem_eq_item href
            subst e0
            subst e1
            exact ⟨f, rest, rfl, rfl, ⟨hlt, hlt'⟩, htag, href⟩

/-- An assertion inside the tables reads back, together with the token behind it. -/
theorem first_of_within {a : Assertion} (hfit : limits.memberships ≤ w.maxReference)
    (ha : a.Within limits) (index : Nat) (f : Int) (rest : List Int) :
    Clause.first w limits index (a.encode ++ f :: rest) =
      .ok { a with follow := Token.ofItem w f } := by
  obtain ⟨htag, href⟩ := Assertion.plain_of_within hfit ha
  simp only [Clause.first, Assertion.encode, Token.first, List.cons_append, List.nil_append,
    List.drop_succ_cons, List.drop_zero, bind, Except.bind, htag, href, Limits.tag_of_lt ha.1,
    Limits.reference_of_lt hfit ha.2, pure, Except.pure]

/-- No clause starts with a sentinel. -/
theorem head_ne_sentinel (h : Clause.first w limits index items = .ok c) (s : Sentinel) :
    ∃ item rest, items = item :: rest ∧ Token.ofItem w item ≠ .sentinel s := by
  obtain ⟨f, rest, rfl, -, -, hplain⟩ := first_ok h
  refine ⟨c.tag, c.reference.code :: f :: rest, rfl, ?_⟩
  rw [hplain.1]
  simp

end Clause

/-! ## Rules inside the tables -/

/-- The limits that setup puts on the sizes of the tables. -/
structure Sizes.Fit (w : Width) (sizes : Sizes) : Prop where
  inputs : sizes.inputs ≤ w.maxTags
  outputs : sizes.outputs ≤ w.maxTags
  inputMemberships : sizes.inputMemberships ≤ w.maxReference
  outputMemberships : sizes.outputMemberships ≤ w.maxReference

/-- Whether a rule names entries of the tables only: of the inputs in its premise, of the outputs
in its consequents. -/
def Rule.Within (sizes : Sizes) (r : Rule) : Prop :=
  (∀ a ∈ r.antecedents, a.Within sizes.input) ∧ ∀ a ∈ r.consequents, a.Within sizes.output

instance (limits : Limits) (a : Assertion) : Decidable (a.Within limits) :=
  inferInstanceAs (Decidable (_ ∧ _))

instance (sizes : Sizes) (r : Rule) : Decidable (r.Within sizes) :=
  inferInstanceAs (Decidable (_ ∧ _))

/-! ## Writing rules -/

theorem Sentinel.inWidth_code (w : Width) (s : Sentinel) : Phrase.InWidth w (s.code w) := by
  cases w <;> cases s <;> decide

theorem Reference.inWidth_code {r : Reference} (h : r.index < w.maxReference) :
    Phrase.InWidth w r.code := by
  have hbounds := code_bounds h
  have hmax : w.maxReference < w.maxTags := by cases w <;> decide
  have hlow : w.lowest = -(w.maxTags : Int) := rfl
  exact ⟨by omega, by omega⟩

/-- The items of an assertion inside tables of the width are items of the width, and none of them
is a sentinel. -/
theorem Assertion.encode_inWidth {limits : Limits} {a : Assertion}
    (htags : limits.tags ≤ w.maxTags) (hfit : limits.memberships ≤ w.maxReference)
    (ha : a.Within limits) :
    ∀ item ∈ a.encode, Phrase.InWidth w item ∧ Token.ofItem w item = .item item := by
  obtain ⟨htag, href⟩ := plain_of_within hfit ha
  have hlow : w.lowest = -(w.maxTags : Int) := rfl
  have hlt := ha.1
  intro item hitem
  simp only [encode, List.mem_cons, List.not_mem_nil, or_false] at hitem
  rcases hitem with rfl | rfl
  · exact ⟨⟨by omega, by omega⟩, htag⟩
  · exact ⟨Reference.inWidth_code (Nat.lt_of_lt_of_le ha.2 hfit), href⟩

/-- The cast leaves the items of the width as they are. -/
theorem Width.wrap_of_inWidth {n : Int} (h : Phrase.InWidth w n) : w.wrap n = n := by
  obtain ⟨hlow, hhigh⟩ := h
  have hlowest : w.lowest = -(w.maxTags : Int) := rfl
  apply Int.bmod_eq_of_le
  · omega
  · omega

/-- Every number is cast to an item of the width. -/
theorem Width.inWidth_wrap (w : Width) (n : Int) : Phrase.InWidth w (w.wrap n) := by
  have hpos : 0 < 2 * w.maxTags := by cases w <;> decide
  have hlow : -((2 * w.maxTags : Nat) / 2 : Int) ≤ w.wrap n := Int.le_bmod hpos
  have hhigh : w.wrap n < ((2 * w.maxTags : Nat) + 1 : Int) / 2 := Int.bmod_lt hpos
  have hlowest : w.lowest = -(w.maxTags : Int) := rfl
  constructor
  · omega
  · omega

/-- `(100 + 100)` as a tag of eight bits. -/
example : Width.byte.wrap 200 = -56 := by decide

/-- The phrase of an assertion inside the tables can be written. -/
theorem Assertion.encode?_phrase {limits : Limits} {a : Assertion}
    (htags : limits.tags ≤ w.maxTags) (hfit : limits.memberships ≤ w.maxReference)
    (ha : a.Within limits) (lead : Lead) :
    (a.phrase lead).encode? w = some (lead.encode w ++ a.encode) := by
  have hw : Phrase.InWidth w (a.tag : Int) :=
    (encode_inWidth htags hfit ha _ (List.mem_cons_self ..)).1
  have hindex : a.reference.index < w.maxReference := Nat.lt_of_lt_of_le ha.2 hfit
  have hw' : Phrase.InWidth w (a.reference.index : Int) := by
    have hmax : w.maxReference ≤ w.maxTags := Nat.sub_le _ _
    have hlowest : w.lowest = -(w.maxTags : Int) := rfl
    exact ⟨by omega, by omega⟩
  have hr : Reference.encode? w a.reference.index a.reference.negated = some a.reference.code :=
    Reference.encode?_eq_code hindex
  simp only [phrase, Phrase.encode?, Width.wrap_of_inWidth hw, Width.wrap_of_inWidth hw', hr,
    Option.map_some, encode]

namespace Phrase

theorem encodeAll?_append {ps qs : List Phrase} {xs ys : List Int}
    (hp : encodeAll? w ps = some xs) (hq : encodeAll? w qs = some ys) :
    encodeAll? w (ps ++ qs) = some (xs ++ ys) := by
  induction ps generalizing xs with
  | nil =>
      simp only [encodeAll?, Option.some.injEq] at hp
      subst hp
      exact hq
  | cons p ps ih =>
      simp only [encodeAll?, Option.bind_eq_some_iff, Option.map_eq_some_iff] at hp
      obtain ⟨x, hx, zs, hzs, rfl⟩ := hp
      simp only [List.cons_append, encodeAll?, hx, ih hzs, Option.bind_some, Option.map_some,
        List.append_assoc]

/-- Phrases that can be written one by one can be written together. -/
theorem encodeAll?_map {β : Type} {f : β → Phrase} {g : β → List Int} {xs : List β}
    (h : ∀ x ∈ xs, (f x).encode? w = some (g x)) :
    encodeAll? w (xs.map f) = some (xs.flatMap g) := by
  induction xs with
  | nil => rfl
  | cons x xs ih =>
      have hx := h x List.mem_cons_self
      have hxs := ih fun y hy => h y (List.mem_cons_of_mem x hy)
      simp only [List.map_cons, encodeAll?, hx, hxs, Option.bind_some, Option.map_some,
        List.flatMap_cons]

end Phrase

theorem Connective.encode_lead (c : Connective) : c.lead.encode w = [c.sentinel.code w] := by
  cases c <;> rfl

namespace Rule

variable {sizes : Sizes} {r : Rule}

/-- The sentence of a rule inside the tables can be written, and writes the rule. -/
theorem encodeAll?_phrases (hfit : sizes.Fit w) (hr : r.Within sizes) :
    Phrase.encodeAll? w r.phrases = some (r.encode w) := by
  have hin : ∀ a ∈ r.antecedents, ∀ lead : Lead,
      (a.phrase lead).encode? w = some (lead.encode w ++ a.encode) := fun a ha =>
    Assertion.encode?_phrase hfit.inputs hfit.inputMemberships (hr.1 a ha)
  have hout : ∀ a ∈ r.consequents, ∀ lead : Lead,
      (a.phrase lead).encode? w = some (lead.encode w ++ a.encode) := fun a ha =>
    Assertion.encode?_phrase hfit.outputs hfit.outputMemberships (hr.2 a ha)
  have hjoined : Phrase.encodeAll? w (r.joined.map fun j => j.2.phrase j.1.lead) =
      some (r.joined.flatMap fun j => j.1.sentinel.code w :: j.2.encode) := by
    refine Phrase.encodeAll?_map fun j hj => ?_
    have hmem : j.2 ∈ r.antecedents := by
      simp only [antecedents, List.mem_cons, List.mem_map]
      exact Or.inr ⟨j, hj, rfl⟩
    rw [hin _ hmem, Connective.encode_lead, List.singleton_append]
  have hfurther : Phrase.encodeAll? w (r.further.map (Assertion.phrase .and)) =
      some (r.further.flatMap fun a => Sentinel.and.code w :: a.encode) :=
    Phrase.encodeAll?_map fun a ha => hout a (List.mem_cons_of_mem _ ha) .and
  have hfirst : Phrase.encodeAll? w [r.antecedent.phrase .condition] =
      some r.antecedent.encode := by
    simp only [Phrase.encodeAll?, hin _ List.mem_cons_self, Option.bind_some, Option.map_some,
      List.append_nil, Lead.encode, Lead.sentinel?, Option.toList_none, List.map_nil,
      List.nil_append]
  have hthen : Phrase.encodeAll? w [r.consequent.phrase .implies] =
      some (Sentinel.implies.code w :: r.consequent.encode) := by
    simp only [Phrase.encodeAll?, hout _ List.mem_cons_self, Option.bind_some, Option.map_some,
      List.append_nil, Lead.encode, Lead.sentinel?, Option.toList_some, List.map_cons,
      List.map_nil, List.singleton_append]
  have hstop : Phrase.encodeAll? w [.stop] = some [] := rfl
  have hall := Phrase.encodeAll?_append (Phrase.encodeAll?_append (Phrase.encodeAll?_append
    (Phrase.encodeAll?_append hfirst hjoined) hthen) hfurther) hstop
  simpa only [phrases, encode, encodePremise, encodeConsequents, List.singleton_append,
    List.cons_append, List.nil_append, List.append_assoc, List.append_nil] using hall

/-- The sentences of rules inside the tables write the stream of the rules. -/
theorem stream?_phrases {rules : List Rule} (hfit : sizes.Fit w)
    (hr : ∀ r ∈ rules, r.Within sizes) :
    Phrase.stream? w (rules.flatMap phrases) = some (stream w rules) := by
  have hall : Phrase.encodeAll? w (rules.flatMap phrases) = some (rules.flatMap (encode w)) := by
    induction rules with
    | nil => rfl
    | cons r rules ih =>
        exact Phrase.encodeAll?_append (encodeAll?_phrases hfit (hr r List.mem_cons_self))
          (ih fun r' hr' => hr r' (List.mem_cons_of_mem r hr'))
  simp only [Phrase.stream?, hall, Option.map_some, stream]

end Rule

end FuzzyInference
