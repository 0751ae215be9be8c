import PiCalculus.Declaration.Draft
import PiCalculus.Token.Lexer

/-! Reading a whole program. A malformed declaration is reported once and reading resumes
behind the next `;`, so each declaration is judged on its own; the program counts only if
nothing was reported.
-/

namespace PiCalculus

/-- Reads declarations as long as there are tokens. Gives those that are well formed and what
is wrong with the others, each in order, and the tokens that are left.
-/
def Declaration.readAll (last : Location)
    : List Token → List Declaration × List Diagnostic × List Token
  | [] => ([], [], [])
  | token :: tokens =>
      let round := Declaration.read last (token :: tokens)
      let (declarations, diagnostics, rest) := readAll last round.2
      match round.1 with
      | .ok declaration => (declaration :: declarations, diagnostics, rest)
      | .error diagnostic => (declarations, diagnostic :: diagnostics, rest)
termination_by tokens => tokens.length
decreasing_by exact Declaration.length_read_lt last token tokens

/-- The tokens not yet read, and the place where their end is reported. -/
structure Supply where
  tokens : List Token
  last : Location
deriving DecidableEq, Repr, Inhabited

namespace Supply

/-- The end of a list of tokens is reported at its last token. -/
def ofList (tokens : List Token) : Supply :=
  ⟨tokens, (tokens.getLast?.map Token.loc).getD .start⟩

/-- Reads a program from the tokens, and also gives what is left of them. -/
def readProgram (supply : Supply) : Except Report Program × Supply :=
  let (declarations, diagnostics, rest) := Declaration.readAll supply.last supply.tokens
  (settle diagnostics ⟨declarations⟩, { supply with tokens := rest })

/-- The results of reading a program `calls` times in a row. -/
def readProgramTimes (supply : Supply) : Nat → List (Except Report Program)
  | 0 => []
  | calls + 1 =>
      let (result, rest) := supply.readProgram
      result :: rest.readProgramTimes calls

theorem readProgramTimes_succ (supply : Supply) (calls : Nat)
    : supply.readProgramTimes (calls + 1)
      = supply.readProgram.1 :: supply.readProgram.2.readProgramTimes calls :=
  rfl

end Supply

namespace Program

/-- The program that a list of tokens forms, or one diagnostic for each malformed part. -/
def ofTokens (tokens : List Token) : Except Report Program :=
  (Supply.ofList tokens).readProgram.1

/-- The program that a source text forms. Tokens are read only from a text cut cleanly. -/
def ofSource (source : String) : Except Report Program := do
  ofTokens (← scan source)

theorem ofSource_of_scan {source : String} {tokens : List Token}
    (cut : scan source = .ok tokens)
    : ofSource source = ofTokens tokens := by
  rw [ofSource, cut]
  rfl

/-- A source is reported for its characters or else for its tokens. -/
theorem ofSource_eq_error_iff {source : String} {report : Report}
    : ofSource source = .error report
      ↔ scan source = .error report
        ∨ ∃ tokens, scan source = .ok tokens ∧ ofTokens tokens = .error report := by
  cases cut : scan source with
  | error first =>
      have stopped : ofSource source = .error first := by
        rw [ofSource, cut]
        rfl
      simp [stopped]
  | ok tokens => simp [ofSource_of_scan cut]

end Program

end PiCalculus
