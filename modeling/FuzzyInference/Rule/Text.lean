import FuzzyInference.Rule.Phrase

/-!
# The text of rules

Phrases are read from words that blanks separate. A tag or a membership tag is a number, or a
parenthesised expression of numbers, sums, differences, products and changes of sign, such as
`(1 + 2 * 3)`. A number with a sign has to be parenthesised.

Reading goes in three passes, each by recursion on its list: characters to lexemes, lexemes to
words (an expression becomes its value), words to phrases.
-/

set_option autoImplicit false

namespace FuzzyInference

namespace RuleText

/-- A word of a sentence. -/
inductive Word where
  | lead (l : Lead)
  | is
  | not
  | stop
  | value (n : Int)
  deriving DecidableEq

/-- What the text is made of: words, and the signs of an expression. -/
inductive Lexeme where
  | word (w : Word)
  | opening
  | closing
  | plus
  | minus
  | times
  deriving DecidableEq

/-- The words that are written in letters. -/
def keywords : List (String × Word) :=
  [("IF", .lead .condition), ("AND", .lead .and), ("OR", .lead .or), ("THEN", .lead .implies),
    ("IS", .is), ("NOT", .not), ("END", .stop)]

/-- The number that a nonempty run of digits writes. -/
def numberOfDigits? (cs : List Char) : Option Nat :=
  if cs ≠ [] ∧ cs.all Char.isDigit = true then
    some (cs.foldl (fun n c => 10 * n + (c.toNat - '0'.toNat)) 0)
  else none

/-- The word that a run of letters and digits writes. -/
def Word.ofChars? (cs : List Char) : Option Word :=
  match numberOfDigits? cs with
  | some n => some (.value n)
  | none => keywords.lookup (String.ofList cs)

/-- The lexeme of a sign. -/
def Lexeme.ofSign? : Char → Option Lexeme
  | '(' => some opening
  | ')' => some closing
  | '+' => some plus
  | '-' => some minus
  | '*' => some times
  | _ => none

/-- Lexemes read so far, the last one first, and the characters of an unfinished word, the last
one first. -/
structure Scanner where
  lexemes : List Lexeme
  pending : List Char

namespace Scanner

/-- Completes the unfinished word. -/
def flush (s : Scanner) : Option (List Lexeme) :=
  if s.pending = [] then some s.lexemes
  else (Word.ofChars? s.pending.reverse).map fun w => .word w :: s.lexemes

/-- Reads a character. -/
def step (s : Scanner) (c : Char) : Option Scanner :=
  if c.isAlphanum then some { s with pending := c :: s.pending }
  else
    match s.flush with
    | none => none
    | some lexemes =>
        if c.isWhitespace then some ⟨lexemes, []⟩
        else (Lexeme.ofSign? c).map fun sign => ⟨sign :: lexemes, []⟩

end Scanner

/-- The lexemes of a text. -/
def lexemes? (text : List Char) : Option (List Lexeme) :=
  ((text.foldlM Scanner.step ⟨[], []⟩).bind Scanner.flush).map List.reverse

/-- A sum in which a term is being read: the terms before it, and the factor that the next operand
of the term is multiplied with. -/
structure Sum where
  total : Int
  factor : Int

/-- A sum before its first term. -/
def Sum.empty : Sum := ⟨0, 1⟩

/-- A position in a parenthesised expression, with the sums around the innermost one. -/
inductive Cursor where
  /-- An operand must follow. -/
  | operand (sum : Sum) (outer : List Sum)
  /-- An operand has been read; `term` is the term with it. -/
  | operator (total term : Int) (outer : List Sum)

/-- Reads a lexeme of an expression: gives the next position, or the value of the expression when
its last parenthesis is closed. -/
def Cursor.step : Cursor → Lexeme → Option (Cursor ⊕ Int)
  | operand s outer, .word (.value n) => some (.inl (operator s.total (s.factor * n) outer))
  | operand s outer, .minus => some (.inl (operand { s with factor := -s.factor } outer))
  | operand s outer, .opening => some (.inl (operand .empty (s :: outer)))
  | operator total term outer, .plus => some (.inl (operand ⟨total + term, 1⟩ outer))
  | operator total term outer, .minus => some (.inl (operand ⟨total + term, -1⟩ outer))
  | operator total term outer, .times => some (.inl (operand ⟨total, term⟩ outer))
  | operator total term (s :: outer), .closing =>
      some (.inl (operator s.total (s.factor * (total + term)) outer))
  | operator total term [], .closing => some (.inr (total + term))
  | _, _ => none

/-- The words of lexemes. The cursor is none outside an expression. -/
def words? : Option Cursor → List Lexeme → Option (List Word)
  | none, [] => some []
  | none, .word w :: rest => (words? none rest).map (w :: ·)
  | none, .opening :: rest => words? (some (.operand .empty [])) rest
  | none, _ :: _ => none
  | some _, [] => none
  | some c, l :: rest =>
      match c.step l with
      | some (.inl c) => words? (some c) rest
      | some (.inr n) => (words? none rest).map (.value n :: ·)
      | none => none

/-- The phrases of words. -/
def phrases? : List Word → Option (List Phrase)
  | [] => some []
  | .stop :: rest => (phrases? rest).map (.stop :: ·)
  | .lead l :: .value tag :: .is :: .not :: .value membership :: rest =>
      (phrases? rest).map (.clause l tag membership true :: ·)
  | .lead l :: .value tag :: .is :: .value membership :: rest =>
      (phrases? rest).map (.clause l tag membership false :: ·)
  | _ => none

end RuleText

/-- Reads the phrases of a text. -/
def Phrase.ofText? (text : String) : Option (List Phrase) :=
  ((RuleText.lexemes? text.toList).bind (RuleText.words? none)).bind RuleText.phrases?

end FuzzyInference
