import FuzzyInference.Proofs.Weighted

/-!
# The two widths agree

A rule stream of bytes can be written with words instead: each sentinel becomes the sentinel of the
same name, and all other items stay (`widen`). This file shows that nothing else changes, for any
stream of bytes, well formed or not, over any tables that byte items can name.

Every token reads the same in both widths (`Token.ofItem_widen`). From there the equality is carried
upwards one layer at a time: to clauses, to the two walks, to single commands
(`Engine.perform_widened`) and to whole histories (`Engine.widths_agree`). The width shows in one
place only, the item that a fault reports to have found, and there it is the widened item
(`EngineError.widened`).
-/

set_option autoImplicit false

namespace FuzzyInference

/-! ## Items -/

/-- The word item for a byte item: the sentinel of the same name, or the item itself. -/
def widen (item : Int) : Int := (Token.ofItem .byte item).code .word

/-- Items that fit into bytes. -/
def Bytes (items : List Int) : Prop := ∀ item ∈ items, Phrase.InWidth .byte item

instance (items : List Int) : Decidable (Bytes items) :=
  inferInstanceAs (Decidable (∀ item ∈ items, Phrase.InWidth .byte item))

/-- Widening sends a sentinel to its namesake. -/
theorem widen_sentinel (s : Sentinel) : widen (s.code .byte) = s.code .word := by
  rw [widen, Token.ofItem_code]
  rfl

/-- Widening leaves all other items alone. -/
theorem widen_item {item : Int} (h : Token.ofItem .byte item = .item item) :
    widen item = item := by
  rw [widen, h]
  rfl

namespace Token

/-- A byte and its word read alike. No byte item is a sentinel among words: these lie far below. -/
theorem ofItem_widen {item : Int} (h : Phrase.InWidth .byte item) :
    ofItem .word (widen item) = ofItem .byte item := by
  cases htoken : ofItem .byte item with
  | sentinel s => rw [ofItem_eq_sentinel_iff.1 htoken, widen_sentinel, ofItem_code]
  | item value =>
      obtain rfl := eq_of_ofItem_eq_item htoken
      rw [widen_item htoken]
      apply ofItem_of_le
      have hlowest : (-128 : Int) ≤ item := h.1
      show (-32763 : Int) ≤ item
      omega

theorem first_widen (index : Nat) {items : List Int} (h : Bytes items) :
    first .word index (items.map widen) = first .byte index items := by
  cases items with
  | nil => rfl
  | cons item items =>
      show (Except.ok (ofItem .word (widen item)) : Except StreamFault Token) = _
      rw [ofItem_widen (h item List.mem_cons_self)]
      rfl

end Token

/-! ## Faults -/

/-- The fault as it is reported of the widened stream. -/
def StreamFault.widened : StreamFault → StreamFault
  | .unexpectedItem index found => .unexpectedItem index (widen found)
  | fault => fault

/-- The fault as it is reported of the widened stream. -/
def WalkFault.widened : WalkFault → WalkFault
  | .malformed fault => .malformed fault.widened
  | fault => fault

/-- The error as it is reported of the widened stream. -/
def EngineError.widened {α : Type} : EngineError α → EngineError α
  | .walk fault => .walk fault.widened
  | err => err

/-- The walk over the widened stream. -/
def Walk.widened {step : Type} (walk : Walk step) : Walk step :=
  { walk with outcome := walk.outcome.mapError WalkFault.widened }

/-! ## Clauses -/

namespace Limits

variable (limits : Limits) (index : Nat)

theorem tag_widen {item : Int} (h : Phrase.InWidth .byte item) :
    limits.tag .word index (Token.ofItem .word (widen item)) =
      (limits.tag .byte index (Token.ofItem .byte item)).mapError StreamFault.widened := by
  rw [Token.ofItem_widen h]
  cases Token.ofItem .byte item with
  | sentinel s =>
      show (Except.error (.unexpectedItem index (s.code .word)) : Except StreamFault Nat) =
        .error (.unexpectedItem index (widen (s.code .byte)))
      rw [widen_sentinel]
  | item value =>
      unfold Limits.tag
      dsimp only
      split <;> rfl

/-- References are above the sentinels of both widths and read alike. -/
theorem reference_widen {item : Int} (h : Phrase.InWidth .byte item) :
    limits.reference .word index (Token.ofItem .word (widen item)) =
      (limits.reference .byte index (Token.ofItem .byte item)).mapError StreamFault.widened := by
  have hword := Token.ofItem_widen h
  cases htoken : Token.ofItem .byte item with
  | sentinel s =>
      rw [hword, htoken]
      show (Except.error (.unexpectedItem index (s.code .word)) : Except StreamFault Reference) =
        .error (.unexpectedItem index (widen (s.code .byte)))
      rw [widen_sentinel]
  | item value =>
      obtain rfl := Token.eq_of_ofItem_eq_item htoken
      rw [widen_item htoken, htoken] at hword
      have hreference : Reference.ofItem? .word item = Reference.ofItem? .byte item := by
        rw [Reference.ofItem?, Reference.ofItem?, hword, htoken]
      rw [widen_item htoken, hword]
      unfold Limits.reference
      dsimp only
      rw [hreference]
      cases Reference.ofItem? .byte item with
      | none => rfl
      | some r =>
          dsimp only
          split <;> rfl

end Limits

/-- Sequences whose parts fail alike fail alike. -/
theorem mapError_bind {ε ε' β γ : Type} {x : Except ε β} {f : β → Except ε γ}
    {f' : β → Except ε' γ} {g : ε → ε'} (h : ∀ b, f' b = (f b).mapError g) :
    (x.mapError g >>= f') = (x >>= f).mapError g := by
  cases x with
  | error err => rfl
  | ok b => exact h b

theorem Clause.first_widen (limits : Limits) (index : Nat) {items : List Int} (h : Bytes items) :
    Clause.first .word limits index (items.map widen) =
      (Clause.first .byte limits index items).mapError StreamFault.widened := by
  -- the items are read one by one, and the first that is missing or wrong decides
  cases items with
  | nil => rfl
  | cons a items =>
      obtain ⟨ha, h⟩ := List.forall_mem_cons.1 h
      show (limits.tag .word index (Token.ofItem .word (widen a)) >>= _) =
        (limits.tag .byte index (Token.ofItem .byte a) >>= _).mapError _
      rw [limits.tag_widen index ha]
      apply mapError_bind
      intro tag
      cases items with
      | nil => rfl
      | cons b items =>
          obtain ⟨hb, h⟩ := List.forall_mem_cons.1 h
          show (limits.reference .word (index + 1) (Token.ofItem .word (widen b)) >>= _) =
            (limits.reference .byte (index + 1) (Token.ofItem .byte b) >>= _).mapError _
          rw [limits.reference_widen (index + 1) hb]
          apply mapError_bind
          intro reference
          show (Token.first .word (index + 2) (items.map widen) >>= _) =
            (Token.first .byte (index + 2) items >>= _).mapError _
          rw [Token.first_widen (index + 2) h]
          cases items <;> rfl

theorem checkOpening_widen {stream : List Int} (h : Bytes stream) :
    checkOpening .word (stream.map widen) = checkOpening .byte stream := by
  have hread : Token.read .word (stream.map widen) 0 = Token.read .byte stream 0 :=
    Token.first_widen 0 h
  rw [checkOpening, checkOpening, hread]

/-! ## Walks -/

theorem PremiseState.step_widen (state : PremiseState) (index : Nat) {clause : Clause} {item : Int}
    (hfollow : clause.follow = Token.ofItem .byte item) :
    state.step .word clause index =
      (state.step .byte clause index).mapError StreamFault.widened := by
  cases state with
  | consequents =>
      unfold PremiseState.step
      dsimp only
      split <;> rfl
  | premise joined =>
      cases htoken : clause.follow with
      | sentinel s =>
          unfold PremiseState.step
          dsimp only
          rw [htoken]
          cases s <;> rfl
      | item value =>
          rw [hfollow] at htoken
          obtain rfl := Token.eq_of_ofItem_eq_item htoken
          unfold PremiseState.step
          dsimp only
          rw [hfollow, htoken]
          show (Except.error (.unexpectedItem (index + 2) item) : Except StreamFault _) =
            .error (.unexpectedItem (index + 2) (widen item))
          rw [widen_item htoken]

/-- The premise walk makes the same steps over both streams. -/
theorem premiseWalkFrom_widen (sizes : Sizes) (rules : Nat) {items : List Int} (h : Bytes items)
    (skip index completed : Nat) (state : PremiseState) :
    premiseWalkFrom .word sizes rules (items.map widen) skip index completed state =
      (premiseWalkFrom .byte sizes rules items skip index completed state).widened := by
  induction items generalizing skip index completed state with
  | nil => rfl
  | cons item items ih =>
      have hcons := h
      obtain ⟨hitem, h⟩ := List.forall_mem_cons.1 h
      cases skip with
      | succ skip => exact ih h skip (index + 1) completed state
      -- the token and the clause are the same, and so is every decision that is made on them
      | zero =>
          rw [List.map_cons, premiseWalkFrom, premiseWalkFrom, Token.ofItem_widen hitem,
            ← List.map_cons, Clause.first_widen (state.limits sizes) index hcons]
          by_cases hcount : completed < rules
          · rw [if_pos hcount, if_pos hcount]
            by_cases hclosing : Token.ofItem .byte item = .sentinel .closing
            · rw [if_pos hclosing, if_pos hclosing]
              rfl
            · rw [if_neg hclosing, if_neg hclosing]
              cases hclause : Clause.first .byte (state.limits sizes) index (item :: items) with
              | error fault => rfl
              | ok clause =>
                  obtain ⟨follow, -, -, hfollow, -⟩ := Clause.first_ok hclause
                  dsimp only [Except.mapError]
                  rw [state.step_widen index hfollow]
                  cases state.step .byte clause index with
                  | error fault => rfl
                  | ok t =>
                      dsimp only [Except.mapError]
                      rw [ih h]
                      rfl
          · rw [if_neg hcount, if_neg hcount]
            split <;> rfl

theorem premiseWalk_widen (sizes : Sizes) (rules : Nat) {stream : List Int} (h : Bytes stream) :
    premiseWalk .word sizes rules (stream.map widen) =
      (premiseWalk .byte sizes rules stream).widened := by
  have htail : Bytes (stream.drop 1) := fun item hitem => h item (List.mem_of_mem_drop hitem)
  rw [premiseWalk, premiseWalk, checkOpening_widen h, ← List.map_drop,
    premiseWalkFrom_widen sizes rules htail]
  cases hopening : checkOpening .byte stream with
  | ok u => rfl
  | error fault =>
      -- the only fault of an opening names no item
      unfold checkOpening at hopening
      split at hopening
      · cases hopening
      · cases hopening
        rfl

/-- The consequent walk makes the same steps over both streams. -/
theorem consequentWalkFrom_widen (sizes : Sizes) (rules : Nat) {items : List Int}
    (h : Bytes items) (skip index rule : Nat) (state : ConsequentState) :
    consequentWalkFrom .word sizes rules (items.map widen) skip index rule state =
      (consequentWalkFrom .byte sizes rules items skip index rule state).widened := by
  induction items generalizing skip index rule state with
  | nil =>
      rw [List.map_nil, consequentWalkFrom, consequentWalkFrom]
      split <;> rfl
  | cons item items ih =>
      have hcons := h
      obtain ⟨hitem, h⟩ := List.forall_mem_cons.1 h
      cases skip with
      | succ skip => exact ih h skip (index + 1) rule state
      | zero =>
          by_cases hcount : rule < rules
          · by_cases hclosing : Token.ofItem .byte item = .sentinel .closing
            · cases state with
              | seeking | applying =>
                  rw [List.map_cons, consequentWalkFrom, consequentWalkFrom,
                    Token.ofItem_widen hitem, if_pos hcount, if_pos hcount, if_pos hclosing,
                    if_pos hclosing]
                  rfl
            · cases state with
              | seeking =>
                  rw [List.map_cons, consequentWalkFrom, consequentWalkFrom,
                    Token.ofItem_widen hitem, if_pos hcount, if_pos hcount, if_neg hclosing,
                    if_neg hclosing]
                  dsimp only
                  rw [ih h]
                  rfl
              | applying =>
                  rw [List.map_cons, consequentWalkFrom, consequentWalkFrom,
                    Token.ofItem_widen hitem, if_pos hcount, if_pos hcount, if_neg hclosing,
                    if_neg hclosing, ← List.map_cons, Clause.first_widen sizes.output index hcons]
                  cases Clause.first .byte sizes.output index (item :: items) with
                  | error fault => rfl
                  | ok clause =>
                      dsimp only [Except.mapError]
                      rw [ih h]
                      rfl
          · have hle : rules ≤ rule := Nat.not_lt.1 hcount
            rw [consequentWalkFrom_of_le _ _ _ _ hle, consequentWalkFrom_of_le _ _ _ _ hle]
            rfl

theorem consequentWalk_widen (sizes : Sizes) (rules : Nat) {stream : List Int}
    (h : Bytes stream) :
    consequentWalk .word sizes rules (stream.map widen) =
      (consequentWalk .byte sizes rules stream).widened := by
  have htail : Bytes (stream.drop 1) := fun item hitem => h item (List.mem_of_mem_drop hitem)
  rw [consequentWalk, consequentWalk, ← List.map_drop,
    consequentWalkFrom_widen sizes rules htail]

/-! ## Errors of settings -/

namespace Engine

variable {α : Type}

/-- A result that does not fail with a fault of the stream. -/
def Spared {β : Type} (x : Except (EngineError α) β) : Prop := ∀ fault, x ≠ .error (.walk fault)

theorem Spared.bind {β γ : Type} {x : Except (EngineError α) β}
    {f : β → Except (EngineError α) γ} (hx : Spared x) (hf : ∀ b, Spared (f b)) :
    Spared (x >>= f) := by
  cases x with
  | error err =>
      intro fault h
      apply hx fault
      cases h
      rfl
  | ok b => exact hf b

/-- Errors that name no item are the same for both streams. -/
theorem Spared.mapError_eq {β : Type} {x : Except (EngineError α) β} (h : Spared x) :
    x.mapError EngineError.widened = x := by
  cases x with
  | ok b => rfl
  | error err =>
      cases err with
      | walk fault => exact absurd rfl (h fault)
      | _ => rfl

theorem spared_ite {β : Type} {p : Prop} [Decidable p] {x y : Except (EngineError α) β}
    (hx : Spared x) (hy : Spared y) : Spared (if p then x else y) := by
  split
  · exact hx
  · exact hy

theorem spared_slot (side : Side) (tag : Int) (count : Nat) :
    Spared (slot (α := α) side tag count) :=
  spared_ite (fun _ => nofun) (fun _ => nofun)

theorem spared_membershipSlot (tag : Int) (count : Nat) :
    Spared (membershipSlot (α := α) tag count) :=
  spared_ite (fun _ => nofun) (fun _ => nofun)

theorem spared_checkRegion (points : Nat) (r : Region α) : Spared (checkRegion points r) :=
  spared_ite (fun _ => nofun) (fun _ => nofun)

theorem spared_forM {β : Type} {check : β → Except (EngineError α) Unit}
    (h : ∀ x, Spared (check x)) (l : List β) : Spared (l.forM check) := by
  induction l with
  | nil => exact fun _ => nofun
  | cons x l ih => exact (h x).bind fun _ => ih

theorem spared_withOperator (c : Config) (role : Role) (op : Operator) :
    Spared (c.withOperator (α := α) role op) :=
  spared_ite (fun _ => nofun) (fun _ => nofun)

theorem spared_checkShape (e : Engine α) (side : Side) (shape : Shape α)
    (coefficients : List α) : Spared (e.checkShape side shape coefficients) :=
  spared_ite (spared_ite (fun _ => nofun) (fun _ => nofun)) (fun _ => nofun)

theorem spared_settled (e : Engine α) {result : Except (EngineError α) (Engine α)}
    (h : Spared result) : Spared (e.settled result).2 := by
  cases result with
  | ok e' => exact fun _ => nofun
  | error err =>
      intro fault hfault
      apply h fault
      cases hfault
      rfl

variable [Scalar α]

theorem spared_checkRange (lower upper : α) : Spared (checkRange lower upper) :=
  spared_ite (fun _ => nofun) (fun _ => nofun)

theorem spared_perform (e : Engine α) {c : Command α} (hc : c.Configures) :
    Spared (e.perform c).2 := by
  have hdone : ∀ e' : Engine α, Spared (α := α) (.ok e') := fun _ _ => nofun
  cases c with
  | setWeights _ | fuzzify | inference | defuzzify => exact hc.elim
  | setupInput tag lower upper =>
      apply spared_settled
      exact (spared_slot _ _ _).bind fun _ => (spared_checkRange _ _).bind fun _ => hdone _
  | setupOutput tag lower upper =>
      apply spared_settled
      exact (spared_slot _ _ _).bind fun _ => (spared_checkRange _ _).bind fun _ => hdone _
  | setInputMembership input tag shape coefficients height =>
      apply spared_settled
      exact (spared_slot _ _ _).bind fun _ => (spared_membershipSlot _ _).bind fun _ =>
        (spared_checkShape _ _ _ _).bind fun _ => hdone _
  | setOutputMembership output tag shape coefficients height =>
      apply spared_settled
      exact (spared_slot _ _ _).bind fun _ => (spared_membershipSlot _ _).bind fun _ =>
        (spared_checkShape _ _ _ _).bind fun _ => hdone _
  | setOperator role op =>
      apply spared_settled
      exact (spared_withOperator _ _ _).bind fun _ => hdone _
  | setMethod m =>
      apply spared_settled
      exact spared_ite (hdone _) (fun _ => nofun)
  | setEvalPoints points =>
      apply spared_settled
      unfold setEvalPoints
      dsimp only
      split
      · exact fun _ => nofun
      · exact (spared_forM (spared_checkRegion points) _).bind fun _ => hdone _
  | storeRegion output region =>
      apply spared_settled
      exact (spared_slot _ _ _).bind fun _ => (spared_checkRegion _ _).bind fun _ => hdone _
  | setInput tag value =>
      apply spared_settled
      exact (spared_slot _ _ _).bind fun _ => hdone _

/-! ## Engines -/

/-- The engine over the widened stream. -/
def widened (e : Engine α) : Engine α := { e with width := .word, rules := e.rules.map widen }

/-- An engine over a stream of bytes. -/
structure Narrow (e : Engine α) : Prop where
  width : e.width = .byte
  rules : Bytes e.rules

omit [Scalar α] in
theorem Narrow.of_script {e e' : Engine α} (h : e.Narrow) (hscript : e'.script = e.script) :
    e'.Narrow := by
  constructor
  · exact (congrArg Script.width hscript).trans h.width
  · rw [show e'.rules = e.rules from congrArg Script.rules hscript]
    exact h.rules

variable {e : Engine α}

omit [Scalar α] in
theorem premises_widened (h : e.Narrow) : e.widened.premises = e.premises.widened := by
  rw [premises, premises, h.width]
  exact premiseWalk_widen e.sizes e.ruleCount h.rules

omit [Scalar α] in
theorem consequences_widened (h : e.Narrow) :
    e.widened.consequences = e.consequences.widened := by
  rw [consequences, consequences, h.width]
  exact consequentWalk_widen e.sizes e.ruleCount h.rules

theorem inference_widened (h : e.Narrow) :
    e.widened.inference =
      (e.inference.1.widened, e.inference.2.mapError EngineError.widened) := by
  unfold inference
  rw [premises_widened h]
  dsimp only [Walk.widened]
  cases e.premises.outcome <;> rfl

theorem firing_widened (h : e.Narrow) (o : Nat) : e.widened.firing o = e.firing o := by
  rw [firing_eq_ofConsequents, firing_eq_ofConsequents, consequences_widened h]
  rfl

/-- What defuzzification does to an output does not depend on the width. -/
theorem crisp_widened (h : e.Narrow) : e.widened.crisp = e.crisp := by
  funext o out
  by_cases harch : e.architecture = .mamdani
  · have hcurve : e.widened.curve o = e.curve o := by
      rw [curve_eq_degree, curve_eq_degree, firing_widened h]
      rfl
    have harch' : e.widened.architecture = .mamdani := harch
    rw [crisp_mamdani harch, crisp_mamdani harch', hcurve]
    rfl
  · have harch' : e.widened.architecture ≠ .mamdani := harch
    rw [crisp_weighted harch, crisp_weighted harch', firing_widened h]
    rfl

theorem defuzzify_widened (h : e.Narrow) (hconfirmed : e.Confirmed) :
    e.widened.defuzzify =
      (e.defuzzify.1.widened, e.defuzzify.2.mapError EngineError.widened) := by
  by_cases hstatus : e.status = .succeeded
  · have hok := hconfirmed.consequences_ok hstatus
    have hok' : e.widened.consequences.outcome = .ok () := by
      rw [consequences_widened h]
      exact congrArg (Except.mapError WalkFault.widened) hok
    have hstatus' : e.widened.status = .succeeded := hstatus
    rw [defuzzify_eq hstatus hok, defuzzify_eq hstatus' hok', crisp_widened h]
    rfl
  · have hstatus' : e.widened.status ≠ .succeeded := hstatus
    rw [defuzzify_refused hstatus, defuzzify_refused hstatus']
    rfl

/-- A command does the same over both streams. -/
theorem perform_widened (h : e.Narrow) (hconfirmed : e.Confirmed) (c : Command α) :
    e.widened.perform c =
      ((e.perform c).1.widened, (e.perform c).2.mapError EngineError.widened) := by
  have hsetting : c.Configures → e.widened.perform c =
      ((e.perform c).1.widened, (e.perform c).2.mapError EngineError.widened) := by
    intro hc
    have hwidened : ∀ e : Engine α, e.widened =
        e.withRest { e.rest with width := .word, rules := e.rules.map widen } := fun _ => rfl
    have hrest := e.perform_rest hc
    have hrules : (e.perform c).1.rules = e.rules := congrArg Rest.rules hrest
    rw [(e.spared_perform hc).mapError_eq, hwidened, hwidened, hrest, hrules]
    exact e.perform_withRest _ hc
  cases c with
  | setWeights ws =>
      show (e.widened).settled (if ws.length < e.ruleCount then _ else _) = _
      simp only [perform, setWeights]
      split <;> rfl
  | fuzzify => rfl
  | inference => exact inference_widened h
  | defuzzify => exact defuzzify_widened h hconfirmed
  | _ => exact hsetting trivial

theorem run_widened (h : e.Narrow) (hconfirmed : e.Confirmed) (cs : List (Command α)) :
    e.widened.run cs = (e.run cs).widened := by
  induction cs generalizing e with
  | nil => rfl
  | cons c cs ih =>
      rw [run, run, perform_widened h hconfirmed c]
      exact ih (h.of_script (perform_script e c)) (perform_confirmed e c hconfirmed)

/-! ## Setup -/

omit [Scalar α] in
theorem checkTable_of_le_of_le {table : Table} {actual limit limit' : Nat} (h : actual ≤ limit)
    (h' : actual ≤ limit') :
    checkTable (α := α) table actual limit' = checkTable table actual limit := by
  rw [checkTable, checkTable, if_neg (Nat.not_lt.2 h), if_neg (Nat.not_lt.2 h')]

omit [Scalar α] in
/-- Words can name at least what bytes can, and widening makes no stream empty. -/
theorem checkSetup_widen {sizes : Sizes} (hfit : sizes.Fit .byte) (architecture : Architecture)
    (slots : Nat) (rules : List Int) (n : Nat) (config : Config) :
    checkSetup (α := α) .word architecture sizes slots (rules.map widen) n config =
      checkSetup .byte architecture sizes slots rules n config := by
  have htags : Width.byte.maxTags ≤ Width.word.maxTags := by decide
  have hreferences : Width.byte.maxReference ≤ Width.word.maxReference := by decide
  have htag : ∀ table {actual : Nat}, actual ≤ Width.byte.maxTags →
      checkTable (α := α) table actual Width.word.maxTags =
        checkTable table actual Width.byte.maxTags :=
    fun _ _ h => checkTable_of_le_of_le h (Nat.le_trans h htags)
  have hreference : ∀ table {actual : Nat}, actual ≤ Width.byte.maxReference →
      checkTable (α := α) table actual Width.word.maxReference =
        checkTable table actual Width.byte.maxReference :=
    fun _ _ h => checkTable_of_le_of_le h (Nat.le_trans h hreferences)
  simp only [checkSetup, htag _ hfit.inputs, htag _ hfit.outputs,
    hreference _ hfit.inputMemberships, hreference _ hfit.outputMemberships, List.map_eq_nil_iff]

omit [Scalar α] in
/-- Over tables that byte items can name, setup ends alike for both streams. -/
theorem setup_widened {tables : Tables α} (hfit : tables.sizes.Fit .byte)
    (architecture : Architecture) (rules : List Int) (n : Nat) (config : Config) :
    setup .word architecture tables (rules.map widen) n config =
      (setup .byte architecture tables rules n config).map widened := by
  rw [setup_eq, setup_eq, checkSetup_widen hfit]
  cases checkSetup (α := α) .byte architecture tables.sizes tables.strengths.length rules n
    config <;> rfl

/-- The two widths agree. Over tables that byte items can name, an engine over any stream of bytes
and one over the widened stream are set up alike, or refused for the same reason. They stay alike,
whatever commands follow: at any time they have the same tables, with all strengths, accumulators,
regions and crisp values, have completed the same number of rules, and every command ends alike on
both, but that a fault of the stream reports the widened item to have been found. -/
theorem widths_agree {tables : Tables α} (hfit : tables.sizes.Fit .byte) {rules : List Int}
    (hrules : Bytes rules) (architecture : Architecture) (n : Nat) (config : Config) :
    (∀ err, setup .byte architecture tables rules n config = .error err →
      setup .word architecture tables (rules.map widen) n config = .error err) ∧
    ∀ e₀, setup .byte architecture tables rules n config = .ok e₀ →
      ∃ e₀', setup .word architecture tables (rules.map widen) n config = .ok e₀' ∧
        ∀ cs e e', e₀.run cs = e → e₀'.run cs = e' →
          (e'.toTables = e.toTables ∧ e'.config = e.config ∧ e'.weights = e.weights) ∧
          (e'.completed = e.completed ∧ e'.status = e.status) ∧
          ∀ c, (e'.perform c).2 = (e.perform c).2.mapError EngineError.widened := by
  have hsetup := setup_widened hfit architecture rules n config
  constructor
  · intro err herror
    rw [hsetup, herror]
    rfl
  · intro e₀ hok
    refine ⟨e₀.widened, by rw [hsetup, hok]; rfl, ?_⟩
    have hscript := script_of_setup hok
    have hnarrow : e₀.Narrow := by
      constructor
      · exact congrArg Script.width hscript
      · rw [show e₀.rules = rules from congrArg Script.rules hscript]
        exact hrules
    have hconfirmed := confirmed_of_setup hok
    rintro cs e e' rfl rfl
    rw [run_widened hnarrow hconfirmed cs]
    refine ⟨⟨rfl, rfl, rfl⟩, ⟨rfl, rfl⟩, ?_⟩
    intro c
    rw [perform_widened (hnarrow.of_script (run_script e₀ cs)) (run_confirmed hconfirmed cs) c]

/-- A stream in which AND stands where the first clause should. The item that is found there is -126
among bytes and -32766 among words. -/
theorem widths_agree_unexpected :
    ∃ e₀' : Engine Float,
      setup .word .mamdani twoRuleTables ([-128, -126].map widen) 2 .mamdaniClassic = .ok e₀' ∧
      (e₀'.perform .inference).2 =
        .error (.walk (.malformed (.unexpectedItem 1 (-32766)))) := by
  have hfit : twoRuleTables.sizes.Fit .byte := by
    constructor
    · decide
    · decide
    · decide
    · decide
  have hrules : Bytes [-128, -126] := by decide
  obtain ⟨e₀', hsetup, hagree⟩ :=
    (widths_agree hfit hrules .mamdani 2 .mamdaniClassic).2 _ rfl
  obtain ⟨-, -, hperform⟩ := hagree [] _ _ rfl rfl
  refine ⟨e₀', hsetup, ?_⟩
  rw [show e₀'.perform .inference = (e₀'.run []).perform .inference from rfl, hperform .inference]
  rfl

end Engine

end FuzzyInference
