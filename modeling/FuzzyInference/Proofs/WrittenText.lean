import FuzzyInference.Rule.Text

/-!
# The text of words

Every sequence of words has a text (`RuleText.text`): keywords in capital letters, numbers in
decimal digits, a negative number as a parenthesised change of sign, and a blank behind each word.
Reading the text gives the words back (`RuleText.ofText?_text`).

The scanner is followed over one word at a time. A run of letters and digits stays pending until
another character ends it (`RuleText.scan_run`), and whatever the word was, the scanner stands
behind its blank with nothing pending (`RuleText.scan_word`).
-/

set_option autoImplicit false

namespace FuzzyInference.RuleText

/-! ## Spelling -/

/-- The characters of a word. -/
def Word.chars : Word → List Char
  | lead .condition => ['I', 'F']
  | lead .and => ['A', 'N', 'D']
  | lead .or => ['O', 'R']
  | lead .implies => ['T', 'H', 'E', 'N']
  | is => ['I', 'S']
  | not => ['N', 'O', 'T']
  | stop => ['E', 'N', 'D']
  | value (.ofNat n) => Nat.toDigits 10 n
  | value (.negSucc n) => '(' :: '-' :: Nat.toDigits 10 (n + 1) ++ [')']

/-- The lexemes of these characters. -/
def Word.lexemes : Word → List Lexeme
  | value (.negSucc n) => [.opening, .minus, .word (.value (n + 1 : Nat)), .closing]
  | w => [.word w]

/-- The text of words, with a blank behind each. -/
def text (words : List Word) : String := String.ofList (words.flatMap fun w => w.chars ++ [' '])

/-! ## Scanning -/

theorem isDigit_of_mem {n : Nat} {c : Char} (h : c ∈ Nat.toDigits 10 n) : c.isDigit = true :=
  Nat.isDigit_of_mem_toDigits (Nat.succ_pos 9) (Nat.le_refl 10) h

theorem numberOfDigits?_toDigits (n : Nat) : numberOfDigits? (Nat.toDigits 10 n) = some n := by
  have hdigits : (Nat.toDigits 10 n).all Char.isDigit = true :=
    List.all_eq_true.2 fun _ => isDigit_of_mem
  rw [numberOfDigits?, if_pos ⟨Nat.toDigits_ne_nil, hdigits⟩]
  exact congrArg some Nat.ofDigitChars_ten_toDigits

theorem foldlM_alphanum {cs : List Char} (h : cs.all Char.isAlphanum = true) (ls : List Lexeme)
    (pending : List Char) :
    cs.foldlM Scanner.step ⟨ls, pending⟩ = some ⟨ls, cs.reverse ++ pending⟩ := by
  induction cs generalizing pending with
  | nil => rfl
  | cons c cs ih =>
      obtain ⟨hc, hcs⟩ := Bool.and_eq_true_iff.1 h
      have hstep : Scanner.step ⟨ls, pending⟩ c = some ⟨ls, c :: pending⟩ := if_pos hc
      rw [List.foldlM_cons, hstep, List.reverse_cons, List.append_assoc]
      exact ih hcs (c :: pending)

/-- A run of letters and digits is a word as soon as another character follows. -/
theorem scan_run {cs : List Char} {w : Word} {c : Char} (hcs : cs.all Char.isAlphanum = true)
    (hne : cs ≠ []) (hw : Word.ofChars? cs = some w) (hc : c.isAlphanum = false)
    (ls : List Lexeme) (rest : List Char) :
    (cs ++ c :: rest).foldlM Scanner.step ⟨ls, []⟩ =
      (c :: rest).foldlM Scanner.step ⟨.word w :: ls, []⟩ := by
  have hpending : cs.reverse ≠ [] := by simpa using hne
  have hflush : Scanner.flush ⟨ls, cs.reverse⟩ = some (.word w :: ls) := by
    rw [Scanner.flush, if_neg hpending, List.reverse_reverse, hw, Option.map_some]
  -- `c` flushes what is pending first, and where nothing is pending that changes nothing
  have hstep : Scanner.step ⟨ls, cs.reverse⟩ c = Scanner.step ⟨.word w :: ls, []⟩ c := by
    have hflush' : Scanner.flush ⟨.word w :: ls, []⟩ = some (.word w :: ls) := if_pos rfl
    rw [Scanner.step, Scanner.step, hflush, hflush', hc, if_neg Bool.false_ne_true,
      if_neg Bool.false_ne_true]
  rw [List.foldlM_append, foldlM_alphanum hcs, List.append_nil, Option.bind_eq_bind,
    Option.bind_some, List.foldlM_cons, List.foldlM_cons, hstep]

theorem scan_number (n : Nat) {c : Char} (hc : c.isAlphanum = false) (ls : List Lexeme)
    (rest : List Char) :
    (Nat.toDigits 10 n ++ c :: rest).foldlM Scanner.step ⟨ls, []⟩ =
      (c :: rest).foldlM Scanner.step ⟨.word (.value n) :: ls, []⟩ := by
  have hword : Word.ofChars? (Nat.toDigits 10 n) = some (.value n) := by
    rw [Word.ofChars?, numberOfDigits?_toDigits]
  apply scan_run _ Nat.toDigits_ne_nil hword hc
  apply List.all_eq_true.2
  intro d hd
  rw [Char.isAlphanum, isDigit_of_mem hd, Bool.or_true]

/-- A word is scanned together with the blank behind it. -/
theorem scan_word (w : Word) (ls : List Lexeme) (rest : List Char) :
    (w.chars ++ ' ' :: rest).foldlM Scanner.step ⟨ls, []⟩ =
      rest.foldlM Scanner.step ⟨w.lexemes.reverse ++ ls, []⟩ := by
  cases w with
  | lead l => cases l <;> exact scan_run rfl (List.cons_ne_nil _ _) rfl rfl ls rest
  | is | not | stop => exact scan_run rfl (List.cons_ne_nil _ _) rfl rfl ls rest
  | value n =>
      cases n with
      | ofNat n => exact scan_number n rfl ls rest
      | negSucc n =>
          -- the parenthesis and the sign leave nothing pending; the closing one ends the digits
          have hdigits := scan_number (n + 1) (c := ')') rfl (.minus :: .opening :: ls)
            (' ' :: rest)
          rw [Word.chars, List.append_assoc]
          exact hdigits

theorem scan_words (words : List Word) (ls : List Lexeme) :
    (words.flatMap fun w => w.chars ++ [' ']).foldlM Scanner.step ⟨ls, []⟩ =
      some ⟨(words.flatMap Word.lexemes).reverse ++ ls, []⟩ := by
  induction words generalizing ls with
  | nil => rfl
  | cons w words ih =>
      rw [List.flatMap_cons, List.append_assoc, List.singleton_append, scan_word, ih,
        List.flatMap_cons, List.reverse_append, List.append_assoc]

theorem lexemes?_text (words : List Word) :
    lexemes? (text words).toList = some (words.flatMap Word.lexemes) := by
  rw [text, String.toList_ofList, lexemes?, scan_words, Option.bind_some, Scanner.flush,
    if_pos rfl, Option.map_some, List.append_nil, List.reverse_reverse]

/-! ## Reading -/

/-- A change of sign is computed where its parenthesis closes. -/
theorem words?_lexemes_append (w : Word) (rest : List Lexeme) :
    words? none (w.lexemes ++ rest) = (words? none rest).map (w :: ·) := by
  cases w with
  | lead l | is | not | stop => rfl
  | value n =>
      cases n with
      | ofNat n => rfl
      | negSucc n =>
          have hread : words? none ((Word.value (.negSucc n)).lexemes ++ rest) =
              (words? none rest).map (.value (0 + -1 * (n + 1 : Nat)) :: ·) := rfl
          have hvalue : (0 : Int) + -1 * (n + 1 : Nat) = .negSucc n := by omega
          rw [hread, hvalue]

theorem words?_flatMap_lexemes (words : List Word) :
    words? none (words.flatMap Word.lexemes) = some words := by
  induction words with
  | nil => rfl
  | cons w words ih => rw [List.flatMap_cons, words?_lexemes_append, ih, Option.map_some]

/-- The phrases of a text are those of its words. -/
theorem ofText?_text (words : List Word) : Phrase.ofText? (text words) = phrases? words := by
  rw [Phrase.ofText?, lexemes?_text, Option.bind_some, words?_flatMap_lexemes, Option.bind_some]

end FuzzyInference.RuleText
