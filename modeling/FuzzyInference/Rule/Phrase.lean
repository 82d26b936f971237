import FuzzyInference.Rule.Basic

/-!
# Rules as phrases

An author writes a rule as a sentence, `IF t IS m AND t IS NOT m THEN t IS m END`. A sentence is
a list of phrases, and a phrase is written into the stream on its own: the code of its lead word,
then a tag and a reference. IF and END leave no trace, so the limits of a rule are found again
only by the walk over the premises.

Phrases may stand in any order; `Rule.phrases` gives the sentence of a rule.
-/

set_option autoImplicit false

namespace FuzzyInference

/-- The word that introduces a clause of a sentence. -/
inductive Lead where
  /-- IF, the first antecedent. -/
  | condition
  | and
  | or
  /-- THEN, the first consequent. -/
  | implies
  deriving DecidableEq

namespace Lead

/-- The sentinel that writes a lead word. IF has none. -/
def sentinel? : Lead → Option Sentinel
  | condition => none
  | and => some .and
  | or => some .or
  | implies => some .implies

/-- The items that write a lead word. -/
def encode (w : Width) (lead : Lead) : List Int := lead.sentinel?.toList.map (Sentinel.code w)

end Lead

/-- The lead word of a connective. -/
def Connective.lead : Connective → Lead
  | .and => .and
  | .or => .or

/-- A phrase of a sentence. -/
inductive Phrase where
  /-- A lead word and `tag IS [NOT] membership`. -/
  | clause (lead : Lead) (tag membership : Int) (negated : Bool)
  /-- END. -/
  | stop
  deriving DecidableEq

namespace Phrase

/-- Whether a number is an item of the width. -/
def InWidth (w : Width) (n : Int) : Prop := w.lowest ≤ n ∧ n < w.maxTags

instance (w : Width) (n : Int) : Decidable (InWidth w n) := inferInstanceAs (Decidable (_ ∧ _))

/-- The items of a phrase. Its numbers are cast to the width first, and a membership tag that then
has no code cannot be written. Whether an author may write a number outside the width as a literal
is left to what compiles the phrase. -/
def encode? (w : Width) : Phrase → Option (List Int)
  | clause lead tag membership negated =>
      (Reference.encode? w (w.wrap membership) negated).map fun code =>
        lead.encode w ++ [w.wrap tag, code]
  | stop => some []

/-- The items of phrases, one after the other. -/
def encodeAll? (w : Width) : List Phrase → Option (List Int)
  | [] => some []
  | p :: ps => (p.encode? w).bind fun items => (encodeAll? w ps).map (items ++ ·)

/-- The stream that phrases write, between the opening and the closing sentinel. -/
def stream? (w : Width) (phrases : List Phrase) : Option (List Int) :=
  (encodeAll? w phrases).map fun items =>
    Sentinel.opening.code w :: items ++ [Sentinel.closing.code w]

end Phrase

/-- The phrase of an assertion. -/
def Assertion.phrase (lead : Lead) (a : Assertion) : Phrase :=
  .clause lead a.tag a.reference.index a.reference.negated

/-- The sentence of a rule. -/
def Rule.phrases (r : Rule) : List Phrase :=
  r.antecedent.phrase .condition :: r.joined.map (fun j => j.2.phrase j.1.lead) ++
    r.consequent.phrase .implies :: r.further.map (Assertion.phrase .and) ++ [.stop]

end FuzzyInference
