import FuzzyInference.Json.Basic

/-!
# Lexemes of JSON

A JSON text is made of marks, strings and bare words. A bare word runs up to the next mark,
quotation mark or blank, and is a number, `true`, `false` or `null`. Blanks are the space, the tab,
the line feed and the carriage return.

`Lexeme.scan?` goes through the text one character at a time. The state of the `Scanner` says
whether it stands in a word, in a string or in an escape sequence.
-/

set_option autoImplicit false

namespace FuzzyInference.Json

/-- The characters that structure a text. -/
inductive Mark where
  | listStart
  | listEnd
  | recordStart
  | recordEnd
  | comma
  | colon
  deriving DecidableEq

namespace Mark

/-- The mark that a character is. -/
def ofChar? : Char → Option Mark
  | '[' => some listStart
  | ']' => some listEnd
  | '\x7b' => some recordStart
  | '\x7d' => some recordEnd
  | ',' => some comma
  | ':' => some colon
  | _ => none

end Mark

/-- The pieces of a JSON text. -/
inductive Lexeme where
  | mark (m : Mark)
  | text (s : Option String)
  /-- A number, a truth value or null. -/
  | atom (j : Json)

/-! ## Bare words -/

/-- The value of a digit of base 16. -/
def hexDigit? (c : Char) : Option Nat :=
  if c.isDigit then some (c.toNat - 48)
  else if 'a' ≤ c ∧ c ≤ 'f' then some (c.toNat - 87)
  else if 'A' ≤ c ∧ c ≤ 'F' then some (c.toNat - 55)
  else none

/-- The number that digits write. -/
def ofDigits (cs : List Char) : Nat := cs.foldl (fun n c => 10 * n + (c.toNat - 48)) 0

/-- Splits digits off the front. -/
def spanDigits (cs : List Char) : List Char × List Char :=
  (cs.takeWhile Char.isDigit, cs.dropWhile Char.isDigit)

/-- Reads the exponent that ends a number: none at all, or a letter, a sign or none, and digits. -/
def exponent? : List Char → Option (Option Int)
  | [] => some none
  | e :: cs =>
      if e = 'e' ∨ e = 'E' then
        let (negative, digits) :=
          match cs with
          | '+' :: digits => (false, digits)
          | '-' :: digits => (true, digits)
          | digits => (false, digits)
        if digits ≠ [] ∧ digits.all Char.isDigit = true then
          some (some (if negative then -(ofDigits digits) else ofDigits digits))
        else none
      else none

/-- Reads a fraction, if there is one; it needs a digit after the point. -/
def fraction? : List Char → Option (Option (List Char) × List Char)
  | '.' :: cs =>
      let (digits, rest) := spanDigits cs
      if digits = [] then none else some (some digits, rest)
  | cs => some (none, cs)

/-- Reads a number without its sign. The part before the point is 0 or starts with another
digit. -/
def magnitude? (negative : Bool) (cs : List Char) : Option Numeral :=
  let (whole, rest) := spanDigits cs
  if whole = [] ∨ (whole.head? = some '0' ∧ 1 < whole.length) then none
  else
    match fraction? rest with
    | none => none
    | some (fraction, rest) =>
        (exponent? rest).map fun exponent =>
          { digits := ofDigits (whole ++ fraction.getD [])
            place := exponent.getD 0 - (fraction.getD []).length
            negative
            integral := fraction.isNone && exponent.isNone }

/-- Reads a number. -/
def numeral? : List Char → Option Numeral
  | '-' :: cs => magnitude? true cs
  | cs => magnitude? false cs

/-- The value of a bare word. -/
def ofWord? (cs : List Char) : Option Json :=
  if cs = "null".toList then some null
  else if cs = "true".toList then some (boolean true)
  else if cs = "false".toList then some (boolean false)
  else (numeral? cs).map number

/-! ## Strings -/

/-- Joins the halves of surrogate pairs. None if a half stands alone. -/
def joinSurrogates? : List Nat → Option (List Char)
  | [] => some []
  | unit :: rest =>
      if 0xD800 ≤ unit ∧ unit < 0xDC00 then
        match rest with
        | low :: rest =>
            if 0xDC00 ≤ low ∧ low < 0xE000 then
              (joinSurrogates? rest).map
                (Char.ofNat (0x10000 + (unit - 0xD800) * 0x400 + (low - 0xDC00)) :: ·)
            else none
        | [] => none
      else if 0xDC00 ≤ unit ∧ unit < 0xE000 then none
      else (joinSurrogates? rest).map (Char.ofNat unit :: ·)

/-- The code of the character that a one-letter escape sequence stands for. -/
def escape? : Char → Option Nat
  | '"' => some 0x22
  | '\\' => some 0x5C
  | '/' => some 0x2F
  | 'b' => some 0x08
  | 'f' => some 0x0C
  | 'n' => some 0x0A
  | 'r' => some 0x0D
  | 't' => some 0x09
  | _ => none

/-! ## Scanning -/

/-- Where a scanner stands. What it has read of a word or a string is kept with the last character
first. -/
inductive Position where
  /-- In a bare word, or between lexemes if it is empty. -/
  | word (pending : List Char)
  /-- In a string. -/
  | string (units : List Nat)
  /-- Behind a backslash. -/
  | escape (units : List Nat)
  /-- In an escape sequence by code, of which `left` further digits are needed. -/
  | code (units : List Nat) (left value : Nat)

/-- The lexemes read so far, the last one first, and the position. -/
structure Scanner where
  lexemes : List Lexeme
  position : Position

namespace Scanner

/-- Completes a bare word. -/
def flush (lexemes : List Lexeme) (pending : List Char) : Option (List Lexeme) :=
  if pending = [] then some lexemes
  else (ofWord? pending.reverse).map fun j => .atom j :: lexemes

/-- Reads a character that ends a word or belongs to it. -/
def stepWord (lexemes : List Lexeme) (pending : List Char) (c : Char) : Option Scanner :=
  let completed := flush lexemes pending
  if c = ' ' ∨ c = '\t' ∨ c = '\n' ∨ c = '\r' then completed.map (⟨·, .word []⟩)
  else if c = '"' then completed.map (⟨·, .string []⟩)
  else
    match Mark.ofChar? c with
    | some m => completed.map fun lexemes => ⟨.mark m :: lexemes, .word []⟩
    | none => some ⟨lexemes, .word (c :: pending)⟩

/-- Reads a character of a string. Control characters have to be escaped. -/
def stepString (lexemes : List Lexeme) (units : List Nat) (c : Char) : Option Scanner :=
  if c = '"' then
    some ⟨.text ((joinSurrogates? units.reverse).map String.ofList) :: lexemes, .word []⟩
  else if c = '\\' then some ⟨lexemes, .escape units⟩
  else if c.toNat < 0x20 then none
  else some ⟨lexemes, .string (c.toNat :: units)⟩

/-- Reads a character. -/
def step (s : Scanner) (c : Char) : Option Scanner :=
  match s.position with
  | .word pending => stepWord s.lexemes pending c
  | .string units => stepString s.lexemes units c
  | .escape units =>
      if c = 'u' then some { s with position := .code units 3 0 }
      else (escape? c).map fun unit => { s with position := .string (unit :: units) }
  | .code units left value =>
      (hexDigit? c).map fun d =>
        { s with
          position := match left with
            | 0 => .string ((16 * value + d) :: units)
            | left + 1 => .code units left (16 * value + d) }

/-- The lexemes at the end of the text, which must not lie in a string. -/
def finish (s : Scanner) : Option (List Lexeme) :=
  match s.position with
  | .word pending => (flush s.lexemes pending).map List.reverse
  | _ => none

end Scanner

/-- The lexemes of a text. -/
def Lexeme.scan? (text : List Char) : Option (List Lexeme) :=
  (text.foldlM Scanner.step ⟨[], .word []⟩).bind Scanner.finish

end FuzzyInference.Json
