import PiCalculus.Proofs.LexicalLanguage

/-! Cutting goes line by line. A line break ends whatever a scanner is inside of, so all that
the text behind it sees of the text in front of it is the number of its lines.
-/

namespace PiCalculus

def Location.lowered (lines : Nat) (loc : Location) : Location :=
  ⟨loc.line + lines, loc.column⟩

def Token.lowered (lines : Nat) (token : Token) : Token :=
  ⟨token.lexeme, token.loc.lowered lines⟩

def Diagnostic.lowered (lines : Nat) (diagnostic : Diagnostic) : Diagnostic :=
  ⟨diagnostic.problem, diagnostic.loc.lowered lines⟩

def Mode.lowered (lines : Nat) : Mode → Mode
  | .gap => .gap
  | .comment => .comment
  | .word text start => .word text (start.lowered lines)
  | .number digits start => .number digits (start.lowered lines)

theorem Location.next_lowered (lines : Nat) (loc : Location) (c : Char)
    : (loc.lowered lines).next c = (loc.next c).lowered lines := by
  unfold next lowered
  split
  next => simp only [Nat.add_right_comm]
  next => rfl

theorem Mode.token?_lowered (lines : Nat) (mode : Mode)
    : (mode.lowered lines).token? = mode.token?.map (Token.lowered lines) := by
  cases mode <;> rfl

namespace Scanner

/-- What `scanner` is if the text it reads stands on the lines below those that `earlier`
has read.
-/
def below (earlier scanner : Scanner) : Scanner :=
  let lines := earlier.loc.line + 1
  {
    mode := scanner.mode.lowered lines
    loc := scanner.loc.lowered lines
    tokens := earlier.tokens ++ scanner.tokens.map (Token.lowered lines)
    faults := earlier.faults ++ scanner.faults.map (Diagnostic.lowered lines)
  }

section Below

variable (earlier scanner : Scanner)

@[simp]
theorem mode_below
    : (earlier.below scanner).mode = scanner.mode.lowered (earlier.loc.line + 1) :=
  rfl

theorem below_fault (problem : Problem)
    : earlier.below (scanner.fault problem) = (earlier.below scanner).fault problem := by
  simp [below, fault, Diagnostic.lowered]

theorem below_close : earlier.below scanner.close = (earlier.below scanner).close := by
  unfold close
  rw [mode_below, Mode.token?_lowered]
  cases scanner.mode.token? <;> simp [below, Mode.lowered]

theorem below_enter (c : Char)
    : earlier.below (scanner.enter c) = (earlier.below scanner).enter c := by
  unfold enter
  split
  next => rfl
  next =>
    split
    next => rfl
    next =>
      split
      next => rfl
      next =>
        split
        next => rfl
        next =>
          split
          next => simp [below, Token.lowered]
          next => exact below_fault _ _ _

/-- Reading a character gives the same below other lines, whatever the scanner is inside of. -/
theorem below_read (c : Char)
    : earlier.below (scanner.read c) = (earlier.below scanner).read c := by
  have closed : earlier.below (scanner.close.enter c) = (earlier.below scanner).close.enter c := by
    rw [below_enter, below_close]
  cases mode : scanner.mode with
  | gap =>
      simp only [read, mode_below, mode, Mode.lowered]
      exact below_enter _ _ c
  | comment =>
      simp only [read, mode_below, mode, Mode.lowered]
      split
      next => exact below_close _ _
      next => rfl
  | word text start =>
      simp only [read, mode_below, mode, Mode.lowered]
      split
      next => rfl
      next => exact closed
  | number digits start =>
      simp only [read, mode_below, mode, Mode.lowered]
      split
      next => rfl
      next =>
        split
        next => exact below_fault _ _ _
        next => exact closed

theorem below_step (c : Char)
    : earlier.below (scanner.step c) = (earlier.below scanner).step c := by
  have read := earlier.below_read scanner c
  have next := scanner.loc.next_lowered (earlier.loc.line + 1) c
  simp only [step, ← read]
  simp [below, next]

/-- A whole text gives the same below other lines, by induction on its characters. -/
theorem below_run (text : List Char)
    : earlier.below (scanner.run text) = (earlier.below scanner).run text := by
  induction text generalizing scanner with
  | nil => exact earlier.below_close scanner
  | cons c text ih => rw [run_cons, run_cons, ih, below_step]

end Below

/-- Behind a line break a scanner is between two lexemes, whatever it was inside of. -/
theorem step_newline (scanner : Scanner)
    : scanner.step '\n' = scanner.close.below (fresh .start) := by
  obtain ⟨mode, loc, tokens, faults⟩ := scanner
  have letter : isLetter '\n' = false := rfl
  have blank : isBlank '\n' = true := rfl
  cases mode <;> simp [step, read, enter, close, Mode.token?, below, fresh, Mode.lowered,
    Location.next, Location.lowered, Location.start, isWordChar, letter, blank]

theorem run_newline (scanner : Scanner) (text rest : List Char)
    : scanner.run (text ++ '\n' :: rest) = (scanner.run text).below ((fresh .start).run rest) := by
  rw [run_append, run_cons, step_newline, below_run]
  rfl

end Scanner

/-- All tokens of a source, whatever else is in it. -/
def tokensIn (source : String) : List Token :=
  ((Unread.ofString source).cutAll #[]).1.toList

/-- Everything in a source that fits nowhere. -/
def faultsIn (source : String) : List Diagnostic :=
  ((Unread.ofString source).cutAll #[]).2.faults.toList

theorem scan_eq (source : String) : scan source = settle (faultsIn source) (tokensIn source) :=
  rfl

theorem tokensIn_eq_run (source : String)
    : tokensIn source = ((Scanner.fresh .start).run source.toList).tokens.toList := by
  rw [tokensIn, Unread.cutAll_eq]
  rfl

theorem faultsIn_eq_run (source : String)
    : faultsIn source = ((Scanner.fresh .start).run source.toList).faults.toList := by
  rw [faultsIn, Unread.cutAll_eq]
  rfl

theorem exists_scan_eq_ok_iff {source : String}
    : (∃ tokens, scan source = .ok tokens) ↔ faultsIn source = [] := by
  simp [scan_eq]

theorem line_after_fresh (text : List Char)
    : ((Scanner.fresh .start).loc.after text).line = text.count '\n' :=
  congrArg Location.line (Location.after_start text)

section Newline

variable (source rest : String)

theorem tokensIn_newline
    : tokensIn (source ++ "\n" ++ rest)
      = tokensIn source
        ++ (tokensIn rest).map (Token.lowered (source.toList.count '\n' + 1)) := by
  simp [tokensIn_eq_run, Scanner.run_newline, Scanner.below, line_after_fresh]

theorem faultsIn_newline
    : faultsIn (source ++ "\n" ++ rest)
      = faultsIn source
        ++ (faultsIn rest).map (Diagnostic.lowered (source.toList.count '\n' + 1)) := by
  simp [faultsIn_eq_run, Scanner.run_newline, Scanner.below, line_after_fresh]

end Newline

/-- Two texts with a line break between them have the tokens and the faults of the first, and
then those of the second, further down by the lines of the first.
-/
theorem scan_line_by_line (source rest : String)
    : let lines := source.toList.count '\n' + 1
      let joined := source ++ "\n" ++ rest
      tokensIn joined = tokensIn source ++ (tokensIn rest).map (Token.lowered lines)
      ∧ faultsIn joined = faultsIn source ++ (faultsIn rest).map (Diagnostic.lowered lines)
      ∧ ((∃ tokens, scan joined = .ok tokens)
        ↔ (∃ tokens, scan source = .ok tokens) ∧ ∃ tokens, scan rest = .ok tokens)
      ∧ (∀ tokens others, scan source = .ok tokens → scan rest = .ok others
        → scan joined = .ok (tokens ++ others.map (Token.lowered lines)))
      ∧ ∀ report, scan joined = .error report
        → report.toList
          = faultsIn source ++ (faultsIn rest).map (Diagnostic.lowered lines) := by
  intro lines joined
  have tokens := tokensIn_newline source rest
  have faults := faultsIn_newline source rest
  refine ⟨tokens, faults, ?_, ?_, ?_⟩
  · simp only [exists_scan_eq_ok_iff, joined, faults, List.append_eq_nil_iff,
      List.map_eq_nil_iff]
  · intro first second clean fine
    rw [scan_eq, settle_eq_ok_iff] at clean fine ⊢
    refine ⟨?_, ?_⟩
    · simp [joined, faults, clean.1, fine.1]
    · rw [tokens, clean.2, fine.2]
  · intro report failed
    rw [scan_eq, settle_eq_error_iff] at failed
    exact failed.symm.trans faults

/-- A comment and a number with a letter in it both end with their line. -/
theorem unfinished_lines_scan_apart
    : scan ("A%1a" ++ "\n" ++ "+") = .ok [⟨.name "A", ⟨0, 0⟩⟩, ⟨.plus, ⟨1, 0⟩⟩]
      ∧ ∃ report, scan ("\n1a" ++ "\n" ++ " ?") = .error report
          ∧ report.toList
            = [⟨.letterInNumber, ⟨1, 1⟩⟩] ++ [⟨.unknownCharacter, ⟨0, 1⟩⟩].map (.lowered 2) := by
  have first : scan "A%1a" = .ok [⟨.name "A", ⟨0, 0⟩⟩] := by decide +kernel
  have second : scan "+" = .ok [⟨.plus, ⟨0, 0⟩⟩] := by decide +kernel
  have failed : scan ("\n1a" ++ "\n" ++ " ?")
      = .error ⟨⟨.letterInNumber, ⟨1, 1⟩⟩, [⟨.unknownCharacter, ⟨2, 1⟩⟩]⟩ := by
    decide +kernel
  have apart := scan_line_by_line "\n1a" " ?"
  refine ⟨(scan_line_by_line "A%1a" "+").2.2.2.1 _ _ first second, _, failed, ?_⟩
  exact (apart.2.2.2.2 _ failed).trans (by decide +kernel)

end PiCalculus
