import PiCalculus.Token.Lexer

/-! Cutting a text one character at a time. A scanner remembers what it is inside of and takes
each character by that alone. It finds the tokens and the faults that cutting lexeme by lexeme
finds, and it leaves no character.
-/

namespace PiCalculus

-----------------------------------------------------------------------------------------
-- Characters
-----------------------------------------------------------------------------------------

/-- The text does not go on with a word character. -/
def Boundary (text : List Char) : Prop := ∀ c ∈ text.head?, isWordChar c = false

theorem boundary_cons {c : Char} {rest : List Char} (outside : isWordChar c = false)
    : Boundary (c :: rest) := by
  intro other head
  cases head
  exact outside

theorem isDigit_eq_false_of_isLetter {c : Char} (letter : isLetter c)
    : c.isDigit = false := by
  simp only [isLetter, Bool.or_eq_true, decide_eq_true_eq] at letter
  rcases letter with alpha | rfl
  · delta Char.isAlpha Char.isUpper Char.isLower at alpha
    simp only [Char.isDigit]
    grind
  · decide

theorem isBlank_eq_false_of_isWordChar {c : Char} (inside : isWordChar c)
    : isBlank c = false := by
  cases blank : isBlank c with
  | false => rfl
  | true =>
      simp only [isBlank, Bool.or_eq_true, decide_eq_true_eq] at blank
      rcases blank with ((rfl | rfl) | rfl) | rfl <;> exact absurd inside (by decide)

theorem ne_percent_of_isWordChar {c : Char} (inside : isWordChar c) : c ≠ '%' := by
  intro percent
  subst percent
  exact absurd inside (by decide)

theorem isWordChar_of_isLetter {c : Char} (letter : isLetter c) : isWordChar c := by
  simp [isWordChar, letter]

theorem isWordChar_of_isDigit {c : Char} (digit : c.isDigit) : isWordChar c := by
  simp [isWordChar, digit]

/-- A symbol is no blank and no word character, and starts no comment. -/
theorem symbol_class {c : Char} {symbol : Lexeme} (found : Lexeme.ofSymbol? c = some symbol)
    : isBlank c = false ∧ c ≠ '%' ∧ isWordChar c = false := by
  unfold Lexeme.ofSymbol? at found
  split at found
  all_goals first | cases found; done | decide

-----------------------------------------------------------------------------------------
-- The scanner
-----------------------------------------------------------------------------------------

/-- What a scanner is inside of: nothing, a comment, a word or a number. -/
inductive Mode where
  | gap
  | comment
  | word (text : String) (start : Location)
  | number (digits : String) (start : Location)
deriving DecidableEq, Repr, Inhabited

/-- The token that ends where the mode is left. -/
def Mode.token? : Mode → Option Token
  | gap | comment => none
  | word text start => some ⟨.ofWord text, start⟩
  | number digits start => some ⟨.number digits, start⟩

/-- A source text read up to the place `loc`, with all tokens and faults found before it. -/
structure Scanner where
  mode : Mode
  loc : Location
  tokens : Array Token
  faults : Array Diagnostic
deriving DecidableEq, Repr, Inhabited

namespace Scanner

/-- A scanner that has read nothing, about to read the character at `loc`. -/
def fresh (loc : Location) : Scanner := ⟨.gap, loc, #[], #[]⟩

/-- Reports the character that is being read. -/
def fault (scanner : Scanner) (problem : Problem) : Scanner :=
  { scanner with faults := scanner.faults.push ⟨problem, scanner.loc⟩ }

/-- Ends the word, number or comment being read. -/
def close (scanner : Scanner) : Scanner :=
  match scanner.mode.token? with
  | some token => { scanner with mode := .gap, tokens := scanner.tokens.push token }
  | none => { scanner with mode := .gap }

/-- Reads a character outside of words, numbers and comments. -/
def enter (scanner : Scanner) (c : Char) : Scanner :=
  if isBlank c then scanner
  else if c = '%' then { scanner with mode := .comment }
  else if c.isDigit then { scanner with mode := .number (String.singleton c) scanner.loc }
  else if isLetter c then { scanner with mode := .word (String.singleton c) scanner.loc }
  else match Lexeme.ofSymbol? c with
    | some symbol => { scanner with tokens := scanner.tokens.push ⟨symbol, scanner.loc⟩ }
    | none => scanner.fault .unknownCharacter

/-- Reads a character and stays at its place. A comment runs to the line break, a word takes
all word characters, and a number takes the digits and reports the letters in its run.
-/
def read (scanner : Scanner) (c : Char) : Scanner :=
  match scanner.mode with
  | .gap => scanner.enter c
  | .comment => if c = '\n' then scanner.close else scanner
  | .word text start =>
      if isWordChar c then { scanner with mode := .word (text.push c) start }
      else scanner.close.enter c
  | .number digits start =>
      if c.isDigit then { scanner with mode := .number (digits.push c) start }
      else if isLetter c then scanner.fault .letterInNumber
      else scanner.close.enter c

/-- Reads a character and moves past it. -/
def step (scanner : Scanner) (c : Char) : Scanner :=
  let next := scanner.loc.next c
  { scanner.read c with loc := next }

/-- Reads all of `text` and ends what is still open. -/
def run (scanner : Scanner) (text : List Char) : Scanner :=
  (text.foldl step scanner).close

/-- The tokens, unless something was reported. -/
def result (scanner : Scanner) : Except Report (List Token) :=
  settle scanner.faults.toList scanner.tokens.toList

@[simp]
theorem loc_close (scanner : Scanner) : scanner.close.loc = scanner.loc := by
  unfold close
  split <;> rfl

@[simp]
theorem loc_step (scanner : Scanner) (c : Char)
    : (scanner.step c).loc = scanner.loc.next c :=
  rfl

/-- A scanner's place is the place after the characters it has read. -/
@[simp]
theorem loc_run (scanner : Scanner) (text : List Char)
    : (scanner.run text).loc = scanner.loc.after text := by
  simp only [run, loc_close]
  induction text generalizing scanner with
  | nil => rfl
  | cons c rest ih => simp [ih]

end Scanner

/-- What ends the mode of a scanner: a line break ends a comment, and all but a word
character ends a word or a number.
-/
def Mode.Ends : Mode → List Char → Prop
  | .gap, _ => True
  | .comment, rest => ∀ c ∈ rest.head?, c = '\n'
  | _, rest => Boundary rest

theorem of_mem_takeWhile {inside : Char → Bool} {text : List Char} {c : Char}
    (member : c ∈ text.takeWhile inside)
    : inside c :=
  List.all_eq_true.mp List.all_takeWhile c member

theorem eq_false_of_mem_head?_dropWhile {inside : Char → Bool} {text : List Char} {c : Char}
    (first : c ∈ (text.dropWhile inside).head?)
    : inside c = false := by
  have stopped := List.head?_dropWhile_not inside text
  rw [first] at stopped
  simpa using stopped

/-- The longest part at the front of a text whose characters are all of one class. -/
theorem exists_span (p : Char → Bool) (text : List Char)
    : ∃ inside rest,
        text = inside ++ rest ∧ (∀ c ∈ inside, p c) ∧ ∀ c ∈ rest.head?, p c = false :=
  ⟨text.takeWhile p, text.dropWhile p, List.takeWhile_append_dropWhile.symm,
    fun _ => of_mem_takeWhile, fun _ => eq_false_of_mem_head?_dropWhile⟩

namespace Scanner

section Runs

variable {loc start : Location} {tokens : Array Token} {faults : Array Diagnostic}
  {text rest : List Char} {c : Char}

theorem run_cons (scanner : Scanner) (c : Char) (text : List Char)
    : scanner.run (c :: text) = (scanner.step c).run text :=
  rfl

theorem run_append (scanner : Scanner) (text rest : List Char)
    : scanner.run (text ++ rest) = (text.foldl step scanner).run rest := by
  simp only [run, List.foldl_append]

theorem foldl_comment (line : ∀ c ∈ text, c ≠ '\n')
    : text.foldl step ⟨.comment, loc, tokens, faults⟩
      = ⟨.comment, loc.after text, tokens, faults⟩ := by
  induction text generalizing loc with
  | nil => rfl
  | cons c text ih =>
      have first : step ⟨.comment, loc, tokens, faults⟩ c
          = ⟨.comment, loc.next c, tokens, faults⟩ := by
        simp [step, read, line c List.mem_cons_self]
      rw [List.foldl_cons, first, ih fun c member => line c (List.mem_cons_of_mem _ member)]
      rfl

theorem foldl_word {word : String} (inside : ∀ c ∈ text, isWordChar c)
    : text.foldl step ⟨.word word start, loc, tokens, faults⟩
      = ⟨.word (word ++ String.ofList text) start, loc.after text, tokens, faults⟩ := by
  induction text generalizing loc word with
  | nil => simp
  | cons c text ih =>
      have first : step ⟨.word word start, loc, tokens, faults⟩ c
          = ⟨.word (word.push c) start, loc.next c, tokens, faults⟩ := by
        simp [step, read, inside c List.mem_cons_self]
      rw [List.foldl_cons, first, ih fun c member => inside c (List.mem_cons_of_mem _ member),
        String.push_eq_append, String.append_assoc, ← String.ofList_cons]
      rfl

theorem run_eq_run_close {scanner : Scanner} (ends : scanner.mode.Ends rest)
    : scanner.run rest = scanner.close.run rest := by
  obtain ⟨mode, loc, tokens, faults⟩ := scanner
  cases rest with
  | nil => cases mode <;> rfl
  | cons c rest =>
      rw [run_cons, run_cons]
      cases mode with
      | gap => rfl
      | comment =>
          obtain rfl : c = '\n' := ends c rfl
          rfl
      | word text start =>
          have outside : isWordChar c = false := ends c rfl
          simp [step, read, close, Mode.token?, outside]
      | number text start =>
          have outside : isWordChar c = false := ends c rfl
          simp only [isWordChar, Bool.or_eq_false_iff] at outside
          simp [step, read, close, Mode.token?, outside]

theorem run_blank (blank : isBlank c)
    : run ⟨.gap, loc, tokens, faults⟩ (c :: rest)
      = run ⟨.gap, loc.next c, tokens, faults⟩ rest := by
  simp [run_cons, step, read, enter, blank]

theorem run_symbol {symbol : Lexeme} (found : Lexeme.ofSymbol? c = some symbol)
    : run ⟨.gap, loc, tokens, faults⟩ (c :: rest)
      = run ⟨.gap, loc.next c, tokens.push ⟨symbol, loc⟩, faults⟩ rest := by
  obtain ⟨blank, percent, outside⟩ := symbol_class found
  simp only [isWordChar, Bool.or_eq_false_iff] at outside
  simp [run_cons, step, read, enter, blank, percent, outside, found]

theorem run_comment (line : ∀ c ∈ text, c ≠ '\n') (ended : ∀ c ∈ rest.head?, c = '\n')
    : run ⟨.gap, loc, tokens, faults⟩ ('%' :: (text ++ rest))
      = run ⟨.gap, (loc.next '%').after text, tokens, faults⟩ rest := by
  have opened : step ⟨.gap, loc, tokens, faults⟩ '%'
      = ⟨.comment, loc.next '%', tokens, faults⟩ :=
    rfl
  rw [run_cons, opened, run_append, foldl_comment line]
  exact run_eq_run_close ended

theorem run_word {first : Char} (letter : isLetter first) (inside : ∀ c ∈ text, isWordChar c)
    (boundary : Boundary rest)
    : run ⟨.gap, loc, tokens, faults⟩ (first :: (text ++ rest))
      = run ⟨.gap, (loc.next first).after text,
          tokens.push ⟨.ofWord (String.ofList (first :: text)), loc⟩, faults⟩ rest := by
  have word := isWordChar_of_isLetter letter
  have opened : step ⟨.gap, loc, tokens, faults⟩ first
      = ⟨.word (String.singleton first) loc, loc.next first, tokens, faults⟩ := by
    simp [step, read, enter, isBlank_eq_false_of_isWordChar word,
      ne_percent_of_isWordChar word, isDigit_eq_false_of_isLetter letter, letter]
  rw [run_cons, opened, run_append, foldl_word inside, ← String.ofList_cons]
  exact run_eq_run_close boundary

end Runs

end Scanner

-----------------------------------------------------------------------------------------
-- Lexeme by lexeme
-----------------------------------------------------------------------------------------

namespace Unread

/-- What a scanner makes of the unread text, with `tokens` found in front of it. -/
def finish (tokens : Array Token) (unread : Unread) : Scanner :=
  Scanner.run ⟨.gap, unread.loc, tokens, unread.faults⟩ unread.text

variable {tokens : Array Token}

theorem finish_skipGaps (unread : Unread)
    : unread.skipGaps.finish tokens = unread.finish tokens := by
  fun_induction skipGaps unread with
  | case1 => rfl
  | case2 c rest loc faults blank ih =>
      rw [ih]
      exact (Scanner.run_blank blank).symm
  | case3 rest loc faults _ ih =>
      have line : ∀ c ∈ rest.takeWhile (· ≠ '\n'), c ≠ '\n' := fun c member => by
        simpa using of_mem_takeWhile member
      have ended : ∀ c ∈ (rest.dropWhile (· ≠ '\n')).head?, c = '\n' := fun c first => by
        simpa using eq_false_of_mem_head?_dropWhile first
      have comment := @Scanner.run_comment loc tokens faults _ _ line ended
      rw [List.takeWhile_append_dropWhile] at comment
      exact ih.trans comment.symm
  | case4 => rfl

theorem skipGaps_front {unread : Unread} {c : Char} (first : c ∈ unread.skipGaps.text.head?)
    : isBlank c = false ∧ c ≠ '%' := by
  fun_induction skipGaps unread with
  | case1 => cases first
  | case2 _ _ _ _ _ ih | case3 _ _ _ _ ih => exact ih first
  | case4 _ _ _ _ blank percent =>
      cases first
      exact ⟨by simpa using blank, percent⟩

/-- A number that is read on with ends where the scanner ends it. -/
theorem finish_number (digits : String) (start : Location) (unread : Unread)
    : (number digits unread).2.finish
          (tokens.push ⟨.number (number digits unread).1, start⟩)
      = Scanner.run ⟨.number digits start, unread.loc, tokens, unread.faults⟩ unread.text := by
  fun_induction number digits unread with
  | case1 => rfl
  | case2 digits c rest loc faults digit ih =>
      rw [ih]
      simp [Scanner.run_cons, Scanner.step, Scanner.read, digit]
  | case3 digits c rest loc faults digit letter ih =>
      rw [ih]
      simp [Scanner.run_cons, Scanner.step, Scanner.read, Scanner.fault, digit, letter]
  | case4 digits c rest loc faults digit letter =>
      have boundary : Boundary (c :: rest) := boundary_cons (by simp [isWordChar, digit, letter])
      exact
        (@Scanner.run_eq_run_close _ ⟨.number digits start, loc, tokens, faults⟩ boundary).symm

theorem finish_word {c : Char} {rest : List Char} {loc : Location} {faults : Array Diagnostic}
    (letter : isLetter c)
    : (word ⟨c :: rest, loc, faults⟩).2.finish
          (tokens.push ⟨.ofWord (word ⟨c :: rest, loc, faults⟩).1, loc⟩)
      = finish tokens ⟨c :: rest, loc, faults⟩ := by
  have inside : ∀ d ∈ rest.takeWhile isWordChar, isWordChar d := fun _ => of_mem_takeWhile
  have boundary : Boundary (rest.dropWhile isWordChar) :=
    fun _ => eq_false_of_mem_head?_dropWhile
  have read := @Scanner.run_word loc tokens faults _ _ c letter inside boundary
  rw [List.takeWhile_append_dropWhile] at read
  simpa [word, skipWhile, finish, isWordChar_of_isLetter letter] using read.symm

/-- Reading one lexeme and then the others is reading them all. -/
theorem finish_cut {c : Char} {rest : List Char} {loc : Location} {faults : Array Diagnostic}
    (blank : isBlank c = false) (percent : c ≠ '%')
    : (cut ⟨c :: rest, loc, faults⟩).2.finish
          (tokens ++ (cut ⟨c :: rest, loc, faults⟩).1.toArray)
      = finish tokens ⟨c :: rest, loc, faults⟩ := by
  simp only [cut]
  split
  next symbol found => simpa [finish] using (Scanner.run_symbol found).symm
  next other =>
    split
    next digit =>
      have opened : Scanner.step ⟨.gap, loc, tokens, faults⟩ c
          = Scanner.step ⟨.number "" loc, loc, tokens, faults⟩ c := by
        simp [Scanner.step, Scanner.read, Scanner.enter, blank, percent, digit]
      have read := @finish_number tokens "" loc ⟨c :: rest, loc, faults⟩
      rw [Scanner.run_cons, ← opened, ← Scanner.run_cons] at read
      simpa [finish] using read
    next digit =>
      split
      next letter => simpa using finish_word letter
      next letter =>
        have dropped : Scanner.step ⟨.gap, loc, tokens, faults⟩ c
            = ⟨.gap, loc.next c, tokens, faults.push ⟨.unknownCharacter, loc⟩⟩ := by
          simp [Scanner.step, Scanner.read, Scanner.enter, Scanner.fault, blank, percent,
            digit, letter, other]
        simp [finish, Scanner.run_cons, dropped]

/-- Cutting lexeme by lexeme finds what a scanner finds and leaves nothing. -/
theorem cutAll_eq (tokens : Array Token) (unread : Unread)
    : unread.cutAll tokens
      = ((unread.finish tokens).tokens,
          ⟨[], (unread.finish tokens).loc, (unread.finish tokens).faults⟩) := by
  fun_induction cutAll tokens unread with
  | case1 tokens unread ended =>
      rw [← finish_skipGaps]
      generalize unread.skipGaps = front at ended
      obtain ⟨text, loc, faults⟩ := front
      cases ended
      rfl
  | case2 tokens unread more round ih =>
      have read : round.2.finish (tokens ++ round.1.toArray) = unread.finish tokens := by
        have front := @skipGaps_front unread
        rw [← finish_skipGaps unread]
        simp only [round]
        generalize unread.skipGaps = start at more front
        obtain ⟨text, loc, faults⟩ := start
        obtain ⟨c, rest, rfl⟩ : ∃ c rest, text = c :: rest := List.exists_cons_of_ne_nil more
        obtain ⟨blank, percent⟩ := @front c rfl
        exact finish_cut blank percent
      rw [ih, read]

end Unread

theorem scan_eq_run (source : String)
    : scan source = ((Scanner.fresh .start).run source.toList).result := by
  rw [scan, Unread.scan, Unread.cutAll_eq]
  rfl

end PiCalculus
