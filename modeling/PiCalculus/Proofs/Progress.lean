import PiCalculus.Proofs.AgentLevels
import PiCalculus.Proofs.ProgramGrammar

/-! Reading never stands still and leaves nothing behind. Whatever is read in full takes at
least one token, and so does a declaration that is given up; a lexeme takes at least one
character, and so does what is dropped. A program and a text are therefore read in rounds that
get to the end, whether or not something is wrong, and what was wrong is reported only once.
-/

namespace PiCalculus

/-- What is left of `tokens` starts behind `position`, and not behind their end. -/
def Advances (tokens : List Token) (position : Nat) (rest : List Token) : Prop :=
  ∃ stop, position < stop ∧ stop ≤ tokens.length ∧ rest = tokens.drop stop

-----------------------------------------------------------------------------------------
-- Reading declarations and programs
-----------------------------------------------------------------------------------------

namespace Declaration

/-- A body is read as a total, and a `;` behind it ends the declaration. -/
theorem Draft.read_body_eq_ok_iff {last loc : Location} {name : String}
    {parameters : List String} {draft : Agent.Draft} {tokens rest : List Token}
    {declaration : Declaration}
    : (body name parameters loc draft).read last tokens = (.ok declaration, rest)
      ↔ ∃ agent semicolon,
          draft.read? .total tokens = some (agent, ⟨.semicolon, semicolon⟩ :: rest)
          ∧ declaration = ⟨name, parameters, agent, loc⟩ := by
  induction tokens generalizing draft with
  | nil => simp [Draft.read, Agent.Draft.read?]
  | cons token tokens ih =>
      rw [Draft.read, Draft.feed, Agent.Draft.read?_total_cons]
      cases draft.feed token with
      | more next => exact ih
      | fault diagnostic => simp
      | ended agent =>
          obtain ⟨lexeme, place⟩ := token
          by_cases semicolon : lexeme = .semicolon
          · subst semicolon
            constructor
            · rintro ⟨⟩
              exact ⟨agent, place, rfl, rfl⟩
            · rintro ⟨_, _, same, rfl⟩
              cases same
              rfl
          · simp [semicolon, Advance.unexpected]

/-- Rounds of reading, each from where the one before has stopped. -/
inductive Rounds (last : Location) (tokens : List Token)
    : Nat → List (Except Diagnostic Declaration) → Nat → Prop
  | done {position} : Rounds last tokens position [] position
  | round {position stop outcome outcomes final} (ahead : position < stop)
    (inside : stop ≤ tokens.length)
    (read : Declaration.read last (tokens.drop position) = (outcome, tokens.drop stop))
    (rest : Rounds last tokens stop outcomes final)
    : Rounds last tokens position (outcome :: outcomes) final

/-- The declarations that were read in full. -/
def wellFormed (outcomes : List (Except Diagnostic Declaration)) : List Declaration :=
  outcomes.filterMap Except.toOption

/-- What is wrong with the other ones. -/
def malformed (outcomes : List (Except Diagnostic Declaration)) : List Diagnostic :=
  outcomes.filterMap fun
    | .ok _ => none
    | .error diagnostic => some diagnostic

end Declaration

section Advances

variable {tokens rest : List Token} {position : Nat}

theorem advances_of_append {used : List Token} (split : tokens.drop position = used ++ rest)
    (nonempty : used ≠ [])
    : Advances tokens position rest := by
  have length := congrArg List.length split
  have taken := List.length_pos_iff.mpr nonempty
  simp only [List.length_drop, List.length_append] at length
  refine ⟨position + used.length, by omega, by omega, ?_⟩
  rw [← List.drop_drop, split, List.drop_left]

/-- A round starts at a token and leaves some of those behind it. -/
theorem advances_of_read (last : Location) (inside : position < tokens.length)
    : Advances tokens position (Declaration.read last (tokens.drop position)).2 := by
  rw [List.drop_eq_getElem_cons inside]
  obtain ⟨used, split⟩ := Declaration.read_cons_suffix last tokens[position]
    (tokens.drop (position + 1))
  refine @advances_of_append _ _ _ (tokens[position] :: used) ?_ (by simp)
  rw [List.cons_append, split, ← List.drop_eq_getElem_cons inside]

end Advances

namespace Declaration

/-- The rounds of reading get from any position to the end. They are counted by the tokens that
are left, since each of them gets ahead.
-/
theorem exists_rounds (last : Location) {tokens : List Token} {position : Nat}
    (inside : position ≤ tokens.length)
    : ∃ outcomes,
        Rounds last tokens position outcomes tokens.length
        ∧ readAll last (tokens.drop position)
          = (wellFormed outcomes, malformed outcomes, []) := by
  induction left : tokens.length - position using Nat.strongRecOn
    generalizing position with
  | ind count ih =>
      rcases Nat.lt_or_eq_of_le inside with within | rfl
      · obtain ⟨stop, ahead, bound, rest⟩ := advances_of_read last within
        obtain ⟨outcome, result⟩
            : ∃ outcome, Declaration.read last (tokens.drop position)
                = (outcome, tokens.drop stop) :=
          ⟨_, Prod.ext rfl rest⟩
        obtain ⟨outcomes, rounds, all⟩ := ih _ (by omega) bound rfl
        refine ⟨outcome :: outcomes, .round ahead bound result rounds, ?_⟩
        have nonempty : tokens.drop position ≠ [] := by
          simpa [List.drop_eq_nil_iff] using within
        cases outcome with
        | ok declaration =>
            rw [readAll_of_read_ok nonempty result, all]
            rfl
        | error diagnostic =>
            rw [readAll_of_read_error nonempty result, all]
            rfl
      · refine ⟨[], .done, ?_⟩
        rw [List.drop_length, readAll]
        rfl

end Declaration

-----------------------------------------------------------------------------------------
-- Every call gets ahead
-----------------------------------------------------------------------------------------

/-- Whatever is read in full from some position gets ahead of it, and so does each round of
reading a program. An agent is read just where the grammar has one.
-/
structure GetsAhead (tokens : List Token) : Prop where
  agent : ∀ level position agent rest,
    Agent.read? level (tokens.drop position) = some (agent, rest)
    → Advances tokens position rest
      ∧ ∃ used, tokens.drop position = used ++ rest ∧ Agent.Derives level used agent
  derived : ∀ level position used agent rest,
    tokens.drop position = used ++ rest
    → Agent.Derives level used agent
    → (∀ lexeme ∈ rest.head?.map Token.lexeme, lexeme ∉ level.continuations)
    → Agent.read? level (tokens.drop position) = some (agent, rest)
  body : ∀ last name parameters loc position declaration rest,
    (Declaration.Draft.body name parameters loc .blank).read last (tokens.drop position)
        = (.ok declaration, rest)
    ↔ ∃ agent semicolon,
        Agent.read? .total (tokens.drop position)
          = some (agent, ⟨.semicolon, semicolon⟩ :: rest)
        ∧ declaration = ⟨name, parameters, agent, loc⟩
  declaration : ∀ last position declaration rest,
    Declaration.Draft.blank.read last (tokens.drop position) = (.ok declaration, rest)
    → Advances tokens position rest
  round : ∀ last position,
    position < tokens.length
    → Advances tokens position (Declaration.read last (tokens.drop position)).2

theorem getsAhead (tokens : List Token) : GetsAhead tokens where
  agent level position agent rest result := by
    obtain ⟨used, split, derived⟩ := Agent.derives_of_read? result
    exact ⟨advances_of_append split derived.ne_nil, used, split, derived⟩
  derived level position used agent rest split derived ends := by
    rw [split]
    exact derived.read? ends
  body _ _ _ _ _ _ _ := Declaration.Draft.read_body_eq_ok_iff
  declaration last position declaration rest result := by
    obtain ⟨used, split, derived⟩ := Declaration.Draft.Reads.read [] .blank result
    exact advances_of_append split derived.ne_nil
  round last position inside := advances_of_read last inside

-----------------------------------------------------------------------------------------
-- Nothing is left behind
-----------------------------------------------------------------------------------------

namespace Supply

/-- A program is read in rounds up to the last token. Nothing is left then for another call to
find, whatever came of the first one.
-/
structure Drains (supply : Supply) : Prop where
  rounds : ∃ outcomes,
    Declaration.Rounds supply.last supply.tokens 0 outcomes supply.tokens.length
    ∧ supply.readProgram.1
      = settle (Declaration.malformed outcomes) ⟨Declaration.wellFormed outcomes⟩
  rest : supply.readProgram.2 = ⟨[], supply.last⟩
  later : ∀ calls,
    supply.readProgramTimes (calls + 1)
    = supply.readProgram.1 :: List.replicate calls (.ok ⟨[]⟩)

theorem readProgramTimes_nil (last : Location) (calls : Nat)
    : readProgramTimes ⟨[], last⟩ calls = List.replicate calls (.ok ⟨[]⟩) := by
  induction calls with
  | zero => rfl
  | succ calls ih =>
      have empty : readProgram ⟨[], last⟩ = (.ok ⟨[]⟩, ⟨[], last⟩) := by
        rw [readProgram, Declaration.readAll]
        rfl
      rw [readProgramTimes_succ, empty, ih, List.replicate_succ]

theorem drains (supply : Supply) : supply.Drains := by
  obtain ⟨outcomes, rounds, all⟩ := Declaration.exists_rounds supply.last
    (Nat.zero_le supply.tokens.length)
  rw [List.drop_zero] at all
  have rest : supply.readProgram.2 = ⟨[], supply.last⟩ := by rw [readProgram, all]
  refine ⟨⟨outcomes, rounds, by rw [readProgram, all]⟩, rest, fun calls => ?_⟩
  rw [readProgramTimes_succ, rest, readProgramTimes_nil]

end Supply

namespace Unread

/-- Rounds of reading a text, each from where the one before has stopped: a gap is passed and a
lexeme is read or a character dropped. They end where nothing but a gap is left.
-/
inductive Rounds : Unread → List (Option Token) → Unread → Prop
  | done {unread} (ended : unread.skipGaps.text = []) : Rounds unread [] unread.skipGaps
  | round {unread used outcome next outcomes final} (nonempty : used ≠ [])
    (taken : unread.Takes used next) (read : unread.skipGaps.cut = (outcome, next))
    (rest : Rounds next outcomes final)
    : Rounds unread (outcome :: outcomes) final

/-- A text is read in rounds up to its end. What they found wrong, and what was found before
them, is reported and then forgotten, so that nothing is left for another call to find,
whatever came of the first one.
-/
structure Drains (unread : Unread) : Prop where
  rounds : ∃ outcomes final,
    Rounds unread outcomes final
    ∧ unread.Takes unread.text final
    ∧ unread.scan.1 = settle final.faults.toList (outcomes.filterMap id)
  rest : unread.scan.2 = ⟨[], unread.loc.after unread.text, #[]⟩
  later : ∀ calls,
    unread.scanTimes (calls + 1) = unread.scan.1 :: List.replicate calls (.ok [])

/-- The rounds take all characters, since each takes those in front of the next one. -/
theorem Rounds.takes {unread final : Unread} {outcomes : List (Option Token)}
    (rounds : Rounds unread outcomes final)
    : unread.Takes unread.text final := by
  induction rounds with
  | @done unread ended =>
      obtain ⟨used, taken⟩ := unread.exists_takes_skipGaps
      have whole := taken.text
      rw [ended, List.append_nil] at whole
      rwa [whole]
  | round _ taken _ _ ih =>
      rw [taken.text]
      exact taken.trans ih

theorem exists_rounds (tokens : Array Token) (unread : Unread)
    : ∃ outcomes final,
        Rounds unread outcomes final
        ∧ unread.cutAll tokens = (tokens ++ (outcomes.filterMap id).toArray, final) := by
  fun_induction cutAll tokens unread with
  | case1 tokens unread ended => exact ⟨[], _, .done ended, by simp⟩
  | case2 tokens unread more round ih =>
      obtain ⟨outcomes, final, rounds, all⟩ := ih
      obtain ⟨used, nonempty, taken⟩ := exists_takes_round more
      refine ⟨round.1 :: outcomes, final, .round nonempty taken rfl rounds, ?_⟩
      rw [all]
      cases round.1 <;> simp

theorem scanTimes_nil (loc : Location) (calls : Nat)
    : scanTimes ⟨[], loc, #[]⟩ calls = List.replicate calls (.ok []) := by
  induction calls with
  | zero => rfl
  | succ calls ih =>
      have empty : scan ⟨[], loc, #[]⟩ = (.ok [], ⟨[], loc, #[]⟩) := by
        simp [scan, cutAll, skipGaps, settle, Report.ofList?]
      rw [scanTimes_succ, empty, ih, List.replicate_succ]

theorem drains (unread : Unread) : unread.Drains := by
  obtain ⟨outcomes, final, rounds, all⟩ := unread.exists_rounds #[]
  have taken := rounds.takes
  have ended : final.text = [] := by simpa using taken.text
  have rest : unread.scan.2 = ⟨[], unread.loc.after unread.text, #[]⟩ := by
    simp only [scan, all, ended, taken.loc]
  refine ⟨⟨outcomes, final, rounds, taken, ?_⟩, rest, fun calls => ?_⟩
  · simp [scan, all]
  · rw [scanTimes_succ, rest, scanTimes_nil]

end Unread

/-- Reading gets ahead with every call and stops at the end only: reading an agent or a
declaration from any position, reading a program from its tokens, and reading the tokens from a
text.
-/
theorem reading_drains_input
    : (∀ tokens, GetsAhead tokens)
      ∧ (∀ supply : Supply, supply.Drains)
      ∧ (∀ unread : Unread, unread.Drains) :=
  ⟨getsAhead, Supply.drains, Unread.drains⟩

end PiCalculus
