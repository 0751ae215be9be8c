import PiCalculus.Diagnostic

/-! Cutting a source text into tokens, lexeme by lexeme. A character that fits nowhere is
reported and dropped, and the tokens count only if nothing was reported.
-/

namespace PiCalculus

/-- A character that only separates lexemes. -/
def isBlank (c : Char) : Bool := c = ' ' || c = '\t' || c = '\r' || c = '\n'

/-- An ASCII letter or an underscore: what a word may start with. -/
def isLetter (c : Char) : Bool := c.isAlpha || c = '_'

/-- A character inside a word. -/
def isWordChar (c : Char) : Bool := isLetter c || c.isDigit

/-- The unread part of a source text, the place where it starts, and what was found wrong in
front of it and is yet to be reported.
-/
structure Unread where
  text : List Char
  loc : Location
  faults : Array Diagnostic
deriving DecidableEq, Repr, Inhabited

namespace Unread

def ofString (source : String) : Unread := ⟨source.toList, .start, #[]⟩

/-- From `unread` on the characters `used` lead to `next`, and no fault is lost. -/
structure Takes (unread : Unread) (used : List Char) (next : Unread) : Prop where
  text : unread.text = used ++ next.text
  loc : next.loc = unread.loc.after used
  faults : unread.faults.toList <+: next.faults.toList

namespace Takes

variable {unread next final : Unread} {used more : List Char}

theorem refl (unread : Unread) : unread.Takes [] unread :=
  ⟨rfl, rfl, List.prefix_rfl⟩

theorem trans (first : unread.Takes used next) (second : next.Takes more final)
    : unread.Takes (used ++ more) final where
  text := by rw [first.text, second.text, List.append_assoc]
  loc := by rw [second.loc, first.loc, Location.after_append]
  faults := first.faults.trans second.faults

theorem cons {c : Char} {rest : List Char} {loc : Location} {faults kept : Array Diagnostic}
    (taken : Takes ⟨rest, loc.next c, kept⟩ used next)
    (grown : faults.toList <+: kept.toList)
    : Takes ⟨c :: rest, loc, faults⟩ (c :: used) next where
  text := congrArg (c :: ·) taken.text
  loc := taken.loc
  faults := grown.trans taken.faults

theorem length_eq (taken : unread.Takes used next)
    : unread.text.length = used.length + next.text.length := by
  rw [taken.text, List.length_append]

end Takes

/-- Moves past all characters of a class. -/
def skipWhile (inside : Char → Bool) (unread : Unread) : Unread :=
  {
    unread with
    text := unread.text.dropWhile inside
    loc := unread.loc.after (unread.text.takeWhile inside)
  }

theorem takes_skipWhile (inside : Char → Bool) (unread : Unread)
    : unread.Takes (unread.text.takeWhile inside) (unread.skipWhile inside) where
  text := List.takeWhile_append_dropWhile.symm
  loc := rfl
  faults := List.prefix_rfl

/-- Moves past blanks and comments. A comment leaves the line break at its end. -/
def skipGaps : Unread → Unread
  | ⟨[], loc, faults⟩ => ⟨[], loc, faults⟩
  | ⟨c :: rest, loc, faults⟩ =>
      if isBlank c then skipGaps ⟨rest, loc.next c, faults⟩
      else if c = '%' then skipGaps (skipWhile (· ≠ '\n') ⟨rest, loc.next c, faults⟩)
      else ⟨c :: rest, loc, faults⟩
termination_by unread => unread.text.length
decreasing_by
  · simp
  · have skipped := (takes_skipWhile (· ≠ '\n') ⟨rest, loc.next c, faults⟩).length_eq
    simp only [List.length_cons] at skipped ⊢
    omega

/-- Reads the rest of a number that starts with `digits`. The letters in its run are reported
and dropped.
-/
def number (digits : String) : Unread → String × Unread
  | ⟨[], loc, faults⟩ => (digits, ⟨[], loc, faults⟩)
  | ⟨c :: rest, loc, faults⟩ =>
      if c.isDigit then number (digits.push c) ⟨rest, loc.next c, faults⟩
      else if isLetter c then
        number digits ⟨rest, loc.next c, faults.push ⟨.letterInNumber, loc⟩⟩
      else (digits, ⟨c :: rest, loc, faults⟩)
termination_by unread => unread.text.length

def word (unread : Unread) : String × Unread :=
  (String.ofList (unread.text.takeWhile isWordChar), unread.skipWhile isWordChar)

/-- Reads one lexeme, or reports and drops a character that no lexeme starts with. -/
def cut : Unread → Option Token × Unread
  | ⟨[], loc, faults⟩ => (none, ⟨[], loc, faults⟩)
  | ⟨c :: rest, loc, faults⟩ =>
      match Lexeme.ofSymbol? c with
      | some symbol => (some ⟨symbol, loc⟩, ⟨rest, loc.next c, faults⟩)
      | none =>
          if c.isDigit then
            let (digits, unread) := number "" ⟨c :: rest, loc, faults⟩
            (some ⟨.number digits, loc⟩, unread)
          else if isLetter c then
            let (text, unread) := word ⟨c :: rest, loc, faults⟩
            (some ⟨.ofWord text, loc⟩, unread)
          else (none, ⟨rest, loc.next c, faults.push ⟨.unknownCharacter, loc⟩⟩)

theorem exists_takes_skipGaps (unread : Unread) : ∃ used, unread.Takes used unread.skipGaps := by
  fun_induction skipGaps unread with
  | case1 => exact ⟨[], .refl _⟩
  | case2 c rest loc faults _ ih =>
      obtain ⟨used, taken⟩ := ih
      exact ⟨c :: used, taken.cons List.prefix_rfl⟩
  | case3 rest loc faults _ ih =>
      obtain ⟨used, taken⟩ := ih
      exact ⟨_, ((takes_skipWhile _ _).trans taken).cons List.prefix_rfl⟩
  | case4 => exact ⟨[], .refl _⟩

theorem exists_takes_number (digits : String) (unread : Unread)
    : ∃ used, unread.Takes used (number digits unread).2 := by
  fun_induction number digits unread with
  | case1 => exact ⟨[], .refl _⟩
  | case2 _ c rest loc faults _ ih =>
      obtain ⟨used, taken⟩ := ih
      exact ⟨c :: used, taken.cons List.prefix_rfl⟩
  | case3 _ c rest loc faults _ _ ih =>
      obtain ⟨used, taken⟩ := ih
      exact ⟨c :: used, taken.cons (by simp)⟩
  | case4 => exact ⟨[], .refl _⟩

/-- A lexeme takes at least one character, and so does what is dropped. -/
theorem exists_takes_cut (c : Char) (rest : List Char) (loc : Location)
    (faults : Array Diagnostic)
    : ∃ used,
        used ≠ []
        ∧ Takes ⟨c :: rest, loc, faults⟩ used (cut ⟨c :: rest, loc, faults⟩).2 := by
  simp only [cut]
  split
  next => exact ⟨[c], by simp, (Takes.refl _).cons List.prefix_rfl⟩
  next =>
    split
    next digit =>
      obtain ⟨used, taken⟩ :=
        exists_takes_number (String.push "" c) ⟨rest, loc.next c, faults⟩
      rw [number, if_pos digit]
      exact ⟨c :: used, by simp, taken.cons List.prefix_rfl⟩
    next =>
      split
      next letter =>
        refine ⟨_, ?_, takes_skipWhile isWordChar _⟩
        simp [isWordChar, letter]
      next => exact ⟨[c], by simp, (Takes.refl _).cons (by simp)⟩

/-- A round of reading takes at least one character. -/
theorem exists_takes_round {unread : Unread} (more : unread.skipGaps.text ≠ [])
    : ∃ used, used ≠ [] ∧ unread.Takes used unread.skipGaps.cut.2 := by
  obtain ⟨gap, skipped⟩ := unread.exists_takes_skipGaps
  generalize unread.skipGaps = front at more skipped
  obtain ⟨text, loc, faults⟩ := front
  obtain ⟨c, rest, rfl⟩ : ∃ c rest, text = c :: rest := List.exists_cons_of_ne_nil more
  obtain ⟨used, nonempty, taken⟩ := exists_takes_cut c rest loc faults
  exact ⟨gap ++ used, by simp [nonempty], skipped.trans taken⟩

theorem length_cut_lt {unread : Unread} (more : unread.skipGaps.text ≠ [])
    : unread.skipGaps.cut.2.text.length < unread.text.length := by
  obtain ⟨used, nonempty, taken⟩ := exists_takes_round more
  have length := taken.length_eq
  have positive := List.length_pos_iff.mpr nonempty
  omega

/-- Reads lexemes until nothing but a gap is left, and puts them behind `tokens`. -/
def cutAll (tokens : Array Token) (unread : Unread) : Array Token × Unread :=
  if _ : unread.skipGaps.text = [] then (tokens, unread.skipGaps)
  else
    let round := unread.skipGaps.cut
    cutAll (tokens ++ round.1.toArray) round.2
termination_by unread.text.length
decreasing_by exact length_cut_lt ‹_›

/-- Cuts a text into tokens, unless something is wrong with it. All that was found wrong is
reported and then forgotten.
-/
def scan (unread : Unread) : Except Report (List Token) × Unread :=
  let (tokens, rest) := unread.cutAll #[]
  (settle rest.faults.toList tokens.toList, { rest with faults := #[] })

/-- The results of scanning `calls` times in a row. -/
def scanTimes (unread : Unread) : Nat → List (Except Report (List Token))
  | 0 => []
  | calls + 1 =>
      let (result, rest) := unread.scan
      result :: rest.scanTimes calls

theorem scanTimes_succ (unread : Unread) (calls : Nat)
    : unread.scanTimes (calls + 1) = unread.scan.1 :: unread.scan.2.scanTimes calls :=
  rfl

end Unread

/-- The tokens of a source text, or everything in it that fits nowhere. -/
def scan (source : String) : Except Report (List Token) :=
  (Unread.ofString source).scan.1

end PiCalculus
