import PiCalculus.Proofs.Scanner

/-! The lexical language. A text is cut into tokens just when it is a sequence of blanks,
comments, symbols, words and numbers, where no two words or numbers touch, and then the
tokens are those of the sequence.
-/

namespace PiCalculus

inductive Lexed : Location → List Char → List Token → Prop
  | nil {loc} : Lexed loc [] []
  | blank {loc c rest tokens} (blank : isBlank c) (tail : Lexed (loc.next c) rest tokens)
    : Lexed loc (c :: rest) tokens
  | comment {loc text rest tokens} (line : ∀ c ∈ text, c ≠ '\n')
    (ended : ∀ c ∈ rest.head?, c = '\n')
    (tail : Lexed ((loc.next '%').after text) rest tokens)
    : Lexed loc ('%' :: (text ++ rest)) tokens
  | symbol {loc c symbol rest tokens} (found : Lexeme.ofSymbol? c = some symbol)
    (tail : Lexed (loc.next c) rest tokens)
    : Lexed loc (c :: rest) (⟨symbol, loc⟩ :: tokens)
  | word {loc first text rest tokens} (letter : isLetter first)
    (inside : ∀ c ∈ text, isWordChar c) (boundary : Boundary rest)
    (tail : Lexed ((loc.next first).after text) rest tokens)
    : Lexed loc (first :: (text ++ rest))
        (⟨.ofWord (String.ofList (first :: text)), loc⟩ :: tokens)
  | number {loc first text rest tokens} (digit : first.isDigit)
    (inside : ∀ c ∈ text, c.isDigit) (boundary : Boundary rest)
    (tail : Lexed ((loc.next first).after text) rest tokens)
    : Lexed loc (first :: (text ++ rest))
        (⟨.number (String.ofList (first :: text)), loc⟩ :: tokens)

namespace Scanner

section Runs

variable {loc start : Location} {tokens : Array Token} {faults : Array Diagnostic}
  {text rest : List Char} {c : Char}

theorem foldl_number {digits : String} (inside : ∀ c ∈ text, c.isDigit)
    : text.foldl step ⟨.number digits start, loc, tokens, faults⟩
      = ⟨.number (digits ++ String.ofList text) start, loc.after text, tokens, faults⟩ := by
  induction text generalizing loc digits with
  | nil => simp
  | cons c text ih =>
      have first : step ⟨.number digits start, loc, tokens, faults⟩ c
          = ⟨.number (digits.push c) start, loc.next c, tokens, faults⟩ := by
        simp [step, read, inside c List.mem_cons_self]
      rw [List.foldl_cons, first, ih fun c member => inside c (List.mem_cons_of_mem _ member),
        String.push_eq_append, String.append_assoc, ← String.ofList_cons]
      rfl

theorem run_digits {first : Char} (digit : first.isDigit) (inside : ∀ c ∈ text, c.isDigit)
    : run ⟨.gap, loc, tokens, faults⟩ (first :: (text ++ rest))
      = run ⟨.number (String.ofList (first :: text)) loc, (loc.next first).after text, tokens,
          faults⟩ rest := by
  have word := isWordChar_of_isDigit digit
  have opened : step ⟨.gap, loc, tokens, faults⟩ first
      = ⟨.number (String.singleton first) loc, loc.next first, tokens, faults⟩ := by
    simp [step, read, enter, isBlank_eq_false_of_isWordChar word,
      ne_percent_of_isWordChar word, digit]
  rw [run_cons, opened, run_append, foldl_number inside, ← String.ofList_cons]

theorem run_number {first : Char} (digit : first.isDigit) (inside : ∀ c ∈ text, c.isDigit)
    (boundary : Boundary rest)
    : run ⟨.gap, loc, tokens, faults⟩ (first :: (text ++ rest))
      = run ⟨.gap, (loc.next first).after text,
          tokens.push ⟨.number (String.ofList (first :: text)), loc⟩, faults⟩ rest :=
  (run_digits digit inside).trans (run_eq_run_close boundary)

/-- A text of the language is cut into its tokens, and nothing is reported. -/
theorem run_of_lexed {found : List Token} (lexed : Lexed loc text found)
    : run ⟨.gap, loc, tokens, faults⟩ text
      = ⟨.gap, loc.after text, tokens ++ found.toArray, faults⟩ := by
  induction lexed generalizing tokens with
  | nil => simp [run, close, Mode.token?]
  | blank blank _ ih =>
      rw [run_blank blank, ih]
      rfl
  | comment line ended _ ih =>
      rw [run_comment line ended, ih]
      simp
  | symbol found _ ih =>
      rw [run_symbol found, ih]
      simp
  | word letter inside boundary _ ih =>
      rw [run_word letter inside boundary, ih]
      simp
  | number digit inside boundary _ ih =>
      rw [run_number digit inside boundary, ih]
      simp

@[simp]
theorem faults_close (scanner : Scanner) : scanner.close.faults = scanner.faults := by
  unfold close
  split <;> rfl

theorem size_faults_le_read (scanner : Scanner) (c : Char)
    : scanner.faults.size ≤ (scanner.read c).faults.size := by
  unfold read enter close fault
  repeat' split
  all_goals simp

theorem size_faults_le_run (scanner : Scanner) (text : List Char)
    : scanner.faults.size ≤ (scanner.run text).faults.size := by
  induction text generalizing scanner with
  | nil => simp [run]
  | cons c text ih => exact Nat.le_trans (size_faults_le_read scanner c) (ih (scanner.step c))

/-- Where a character is reported, the report stays. -/
theorem faults_run_ne_of_fault {scanner : Scanner} {problem : Problem}
    (reported : scanner.read c = scanner.fault problem)
    : (scanner.run (c :: rest)).faults ≠ scanner.faults := by
  intro clean
  have kept := size_faults_le_run (scanner.step c) rest
  rw [← run_cons, clean, step, reported] at kept
  simp only [fault, Array.size_push] at kept
  omega

/-- A letter right behind a number is reported. -/
theorem boundary_of_digits {digits : String} (ended : ∀ c ∈ rest.head?, c.isDigit = false)
    (clean : (run ⟨.number digits start, loc, tokens, faults⟩ rest).faults = faults)
    : Boundary rest := by
  intro c first
  have digit := ended c first
  cases letter : isLetter c with
  | false => simp [isWordChar, letter, digit]
  | true =>
      obtain ⟨rest, rfl⟩ : ∃ tail, rest = c :: tail := List.head?_eq_some_iff.mp first
      have reported : read ⟨.number digits start, loc, tokens, faults⟩ c
          = fault ⟨.number digits start, loc, tokens, faults⟩ .letterInNumber := by
        simp [read, digit, letter]
      exact absurd clean (faults_run_ne_of_fault reported)

/-- What a character can be between two lexemes. -/
theorem read_gap_cases (c : Char)
    : isBlank c ∨ c = '%' ∨ c.isDigit ∨ isLetter c
      ∨ (∃ symbol, Lexeme.ofSymbol? c = some symbol)
      ∨ ∀ loc tokens faults,
          read ⟨.gap, loc, tokens, faults⟩ c
          = fault ⟨.gap, loc, tokens, faults⟩ .unknownCharacter := by
  by_cases blank : isBlank c
  · exact .inl blank
  by_cases percent : c = '%'
  · exact .inr (.inl percent)
  by_cases digit : c.isDigit
  · exact .inr (.inr (.inl digit))
  by_cases letter : isLetter c
  · exact .inr (.inr (.inr (.inl letter)))
  cases found : Lexeme.ofSymbol? c with
  | some symbol => exact .inr (.inr (.inr (.inr (.inl ⟨symbol, rfl⟩))))
  | none =>
      refine .inr (.inr (.inr (.inr (.inr fun loc tokens faults => ?_))))
      simp [read, enter, blank, percent, digit, letter, found]

end Runs

/-- A text in which nothing is reported belongs to the language. -/
theorem exists_lexed {loc : Location} {tokens : Array Token} {faults : Array Diagnostic}
    (text : List Char) (clean : (run ⟨.gap, loc, tokens, faults⟩ text).faults = faults)
    : ∃ found, Lexed loc text found := by
  match text with
  | [] => exact ⟨[], .nil⟩
  | c :: rest =>
      rcases read_gap_cases c with blank | rfl | digit | letter | ⟨symbol, known⟩ | unknown
      · rw [run_blank blank] at clean
        obtain ⟨found, tail⟩ := exists_lexed rest clean
        exact ⟨found, .blank blank tail⟩
      · obtain ⟨inside, rest, rfl, line, ended⟩ := exists_span (· ≠ '\n') rest
        have line : ∀ c ∈ inside, c ≠ '\n' := by simpa using line
        have ended : ∀ c ∈ rest.head?, c = '\n' := by simpa using ended
        rw [run_comment line ended] at clean
        obtain ⟨found, tail⟩ := exists_lexed rest clean
        exact ⟨found, .comment line ended tail⟩
      · obtain ⟨inside, rest, rfl, digits, ended⟩ := exists_span Char.isDigit rest
        -- The digits may end before the run of word characters does, but not without a report.
        have boundary : Boundary rest := by
          rw [run_digits digit digits] at clean
          exact boundary_of_digits ended clean
        rw [run_number digit digits boundary] at clean
        obtain ⟨found, tail⟩ := exists_lexed rest clean
        exact ⟨_, .number digit digits boundary tail⟩
      · obtain ⟨inside, rest, rfl, word, boundary⟩ := exists_span isWordChar rest
        rw [run_word letter word boundary] at clean
        obtain ⟨found, tail⟩ := exists_lexed rest clean
        exact ⟨_, .word letter word boundary tail⟩
      · rw [run_symbol known] at clean
        obtain ⟨found, tail⟩ := exists_lexed rest clean
        exact ⟨_, .symbol known tail⟩
      · exact absurd clean (faults_run_ne_of_fault (unknown loc tokens faults))
termination_by text.length
decreasing_by all_goals grind

end Scanner

/-- A source is cut into tokens just when it belongs to the language with these tokens. -/
theorem scan_eq_ok_iff_lexed {source : String} {tokens : List Token}
    : scan source = .ok tokens ↔ Lexed .start source.toList tokens := by
  rw [scan_eq_run, Scanner.result, settle_eq_ok_iff]
  constructor
  · intro finished
    obtain ⟨clean, rfl⟩ := finished
    have none : ((Scanner.fresh .start).run source.toList).faults = #[] := by simpa using clean
    obtain ⟨found, lexed⟩ := Scanner.exists_lexed source.toList none
    rw [Scanner.fresh, Scanner.run_of_lexed lexed]
    simpa using lexed
  · intro lexed
    rw [Scanner.fresh, Scanner.run_of_lexed lexed]
    simp

/-- A word that is no keyword. -/
def IsName (text : String) : Prop :=
  text.toList.head?.any isLetter ∧ text.toList.all isWordChar ∧ text ≠ "agent" ∧ text ≠ "tau"

instance (text : String) : Decidable (IsName text) :=
  inferInstanceAs (Decidable (_ ∧ _))

theorem Lexeme.ofWord_eq_name_iff {word text : String}
    : Lexeme.ofWord word = .name text ↔ word = text ∧ word ≠ "agent" ∧ word ≠ "tau" := by
  unfold Lexeme.ofWord
  split
  next keyword => simp [keyword]
  next =>
    split
    next keyword => simp [keyword]
    next => simp_all

theorem Lexed.name {loc : Location} {name : String} {rest : List Char} {tokens : List Token}
    (valid : IsName name) (boundary : Boundary rest)
    (tail : Lexed (loc.after name.toList) rest tokens)
    : Lexed loc (name.toList ++ rest) (⟨.name name, loc⟩ :: tokens) := by
  obtain ⟨letter, inside, keyword⟩ := valid
  cases characters : name.toList with
  | nil => simp [characters] at letter
  | cons first text =>
      rw [characters] at letter inside tail
      have word : Lexeme.ofWord (String.ofList (first :: text)) = .name name := by
        rw [← characters, String.ofList_toList]
        exact Lexeme.ofWord_eq_name_iff.mpr ⟨rfl, keyword⟩
      have lexed := Lexed.word (by simpa using letter) (by simp_all) boundary tail
      rwa [word] at lexed

end PiCalculus
