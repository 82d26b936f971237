import FuzzyInference.Json.Lexeme

/-!
# JSON documents

A document is one value with nothing but blanks around it. It is built from its lexemes by a
machine whose state is a `Cursor`: what may follow, and the lists and records that are still open
around it. `Json.parse?` runs the machine over all lexemes and takes the value that it ends with.
-/

set_option autoImplicit false

namespace FuzzyInference.Json

/-- A list or record that is still open. What it holds so far is kept with the last entry first. -/
inductive Frame where
  | list (items : List Json)
  /-- A record that waits for the value of `name`. -/
  | record (fields : List (Option String × Json)) (name : Option String)

/-- The state of the machine; `outer` holds the open lists and records, the innermost first. -/
inductive Cursor where
  /-- A value must follow. -/
  | value (outer : List Frame)
  /-- A list has been opened: a value or its end must follow. -/
  | listStart (outer : List Frame)
  /-- A record has been opened: a name or its end must follow. -/
  | recordStart (outer : List Frame)
  /-- The name of a further field must follow. -/
  | name (fields : List (Option String × Json)) (outer : List Frame)
  /-- A colon must follow. -/
  | colon (name : Option String) (fields : List (Option String × Json)) (outer : List Frame)
  /-- A value is complete. -/
  | complete (j : Json) (outer : List Frame)

namespace Cursor

/-- Begins a value. -/
def begin (outer : List Frame) : Lexeme → Option Cursor
  | .text s => some (complete (.text s) outer)
  | .atom j => some (complete j outer)
  | .mark .listStart => some (listStart outer)
  | .mark .recordStart => some (recordStart outer)
  | _ => none

/-- Reads a lexeme. -/
def step : Cursor → Lexeme → Option Cursor
  | value outer, l => begin outer l
  | listStart outer, .mark .listEnd => some (complete (.list []) outer)
  | listStart outer, l => begin (.list [] :: outer) l
  | recordStart outer, .mark .recordEnd => some (complete (.record []) outer)
  | recordStart outer, .text s => some (colon s [] outer)
  | name fields outer, .text s => some (colon s fields outer)
  | colon s fields outer, .mark .colon => some (value (.record fields s :: outer))
  | complete j (.list items :: outer), .mark .comma => some (value (.list (j :: items) :: outer))
  | complete j (.list items :: outer), .mark .listEnd =>
      some (complete (.list (j :: items).reverse) outer)
  | complete j (.record fields s :: outer), .mark .comma => some (name ((s, j) :: fields) outer)
  | complete j (.record fields s :: outer), .mark .recordEnd =>
      some (complete (.record ((s, j) :: fields).reverse) outer)
  | _, _ => none

/-- The value of a finished document. -/
def result? : Cursor → Option Json
  | complete j [] => some j
  | _ => none

end Cursor

/-- Reads a document. -/
def parse? (text : String) : Option Json :=
  ((Lexeme.scan? text.toList).bind fun lexemes => lexemes.foldlM Cursor.step (.value [])).bind
    Cursor.result?

end FuzzyInference.Json
