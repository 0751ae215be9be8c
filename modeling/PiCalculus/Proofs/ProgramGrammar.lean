import PiCalculus.Program.Reader
import PiCalculus.Proofs.AgentCompleteness
import PiCalculus.Proofs.AgentSoundness

/-! Reading accepts exactly the grammar: a list of tokens forms a program just when it derives
that program, and then no other one.
-/

namespace PiCalculus

namespace Declaration

-----------------------------------------------------------------------------------------
-- Soundness
-----------------------------------------------------------------------------------------

/-- The tokens that lead to a draft of a declaration. -/
inductive Draft.Reads : List Token → Draft → Prop
  | blank : Reads [] .blank
  | keyword {loc} : Reads [⟨.agent, loc⟩] (.keyword loc)
  | named {loc name place}
    : Reads [⟨.agent, loc⟩, ⟨.name name, place⟩] (.named name loc)
  | firstParameter {loc name place opening}
    : Reads [⟨.agent, loc⟩, ⟨.name name, place⟩, ⟨.openParen, opening⟩]
        (.nextParameter name [] loc)
  | parameter {loc name place opening list parameters} (names : Names list parameters)
    : Reads (⟨.agent, loc⟩ :: ⟨.name name, place⟩ :: ⟨.openParen, opening⟩ :: list)
        (.parameter name parameters loc)
  | nextParameter {loc name place opening list parameters comma}
    (names : Names list parameters)
    : Reads
        (⟨.agent, loc⟩ :: ⟨.name name, place⟩ :: ⟨.openParen, opening⟩
          :: (list ++ [⟨.comma, comma⟩]))
        (.nextParameter name parameters loc)
  | headed {loc name place head parameters} (parsed : Parameters head parameters)
    : Reads (⟨.agent, loc⟩ :: ⟨.name name, place⟩ :: head) (.headed name parameters loc)
  | body {loc name place head parameters equals tokens draft}
    (parsed : Parameters head parameters) (read : Agent.Draft.Reads tokens draft)
    : Reads
        (⟨.agent, loc⟩ :: ⟨.name name, place⟩ :: (head ++ ⟨.equals, equals⟩ :: tokens))
        (.body name parameters loc draft)

namespace Draft

section Steps

variable {tokens : List Token} {draft next : Draft} {token : Token} {declaration : Declaration}

theorem Reads.startBody {loc place : Location} {name : String} {head : List Token}
    {parameters : List String} (parsed : Parameters head parameters)
    (step : Draft.startBody name parameters loc token = .more next)
    : Reads (⟨.agent, loc⟩ :: ⟨.name name, place⟩ :: head ++ [token]) next := by
  obtain ⟨lexeme, equals⟩ := token
  unfold Draft.startBody at step
  split at step
  next found =>
    cases found
    cases step
    exact .body parsed .blank
  next => cases step

/-- A token that belongs to a declaration extends what its draft has read. -/
theorem Reads.feed (read : Reads tokens draft) (step : draft.feed token = .more next)
    : Reads (tokens ++ [token]) next := by
  obtain ⟨lexeme, place⟩ := token
  cases read with
  | blank =>
      simp only [Draft.feed] at step
      split at step
      next found =>
        cases found
        cases step
        exact .keyword
      next => cases step
  | keyword =>
      simp only [Draft.feed] at step
      split at step
      next =>
        cases step
        exact .named
      next => cases step
  | named =>
      simp only [Draft.feed] at step
      split at step
      next found =>
        cases found
        cases step
        exact .firstParameter
      next => exact .startBody .none step
  | firstParameter =>
      simp only [Draft.feed] at step
      split at step
      next =>
        cases step
        exact .parameter .one
      next =>
        cases step
        exact .headed .empty
      next => cases step
  | parameter names =>
      simp only [Draft.feed] at step
      split at step
      next =>
        cases step
        exact .nextParameter names
      next =>
        cases step
        exact .headed (.list (.plain names))
      next => cases step
  | nextParameter names =>
      simp only [Draft.feed] at step
      split at step
      next =>
        cases step
        simpa using Reads.parameter (.more names)
      next =>
        cases step
        exact .headed (.list (.trailing names))
      next => cases step
  | headed parsed => exact .startBody parsed step
  | body parsed read =>
      simp only [Draft.feed] at step
      split at step
      next more =>
        cases step
        simpa using Reads.body parsed (read.feed more)
      next => cases step
      next => split at step <;> cases step

/-- Only a body ends a declaration, and only at a `;`. -/
theorem feed_eq_done (step : draft.feed token = .done declaration)
    : ∃ name parameters loc body agent,
        draft = .body name parameters loc body
        ∧ body.feed token = .ended agent
        ∧ token.lexeme = .semicolon
        ∧ declaration = ⟨name, parameters, agent, loc⟩ := by
  cases draft with
  | body name parameters loc body =>
      simp only [Draft.feed] at step
      split at step
      next => cases step
      next => cases step
      next agent ended =>
        split at step
        next semicolon =>
          cases step
          exact ⟨name, parameters, loc, body, agent, rfl, ended, semicolon, rfl⟩
        next => cases step
  | named =>
      simp only [Draft.feed, Draft.startBody] at step
      repeat' split at step
      all_goals cases step
  | _ =>
      simp only [Draft.feed, Draft.startBody] at step
      split at step <;> cases step

/-- The token that ends a declaration completes a derivation of it. -/
theorem Reads.done (read : Reads tokens draft) (step : draft.feed token = .done declaration)
    : Derives (tokens ++ [token]) declaration := by
  obtain ⟨name, parameters, loc, body, agent, rfl, ended, semicolon, rfl⟩ := feed_eq_done step
  obtain ⟨lexeme, place⟩ := token
  cases semicolon
  cases read with
  | body parsed read => simpa using Derives.intro parsed (read.ended ended)

/-- A declaration that is read in full derives from the tokens that are used up. -/
theorem Reads.read {last : Location} {rest : List Token} (before : List Token)
    (reads : Reads before draft) (result : draft.read last tokens = (.ok declaration, rest))
    : ∃ used, tokens = used ++ rest ∧ Derives (before ++ used) declaration := by
  induction tokens generalizing before draft with
  | nil => simp [Draft.read] at result
  | cons token tokens ih =>
      simp only [Draft.read] at result
      split at result
      next next step =>
        obtain ⟨used, rfl, derived⟩ := ih (before ++ [token]) (reads.feed step) result
        exact ⟨token :: used, rfl, by simpa using derived⟩
      next step =>
        cases result
        exact ⟨[token], rfl, reads.done step⟩
      next => cases result

end Steps

end Draft

-----------------------------------------------------------------------------------------
-- Completeness
-----------------------------------------------------------------------------------------

namespace Draft

section Completeness

variable {last loc : Location} {name : String} {parameters : List String}
  {tokens rest : List Token}

theorem read_names (names : Names tokens parameters)
    : (nextParameter name [] loc).read last (tokens ++ rest)
      = (parameter name parameters loc).read last rest := by
  induction names generalizing rest with
  | one => rfl
  | more _ ih =>
      rw [List.append_assoc, ih]
      rfl

theorem read_nameList {closing : Location} (names : NameList tokens parameters)
    : (nextParameter name [] loc).read last (tokens ++ ⟨.closeParen, closing⟩ :: rest)
      = (headed name parameters loc).read last rest := by
  cases names with
  | plain names =>
      rw [read_names names]
      rfl
  | trailing names =>
      rw [List.append_assoc, read_names names]
      rfl

theorem read_parameters {equals : Location} (parsed : Parameters tokens parameters)
    : (named name loc).read last (tokens ++ ⟨.equals, equals⟩ :: rest)
      = (body name parameters loc .blank).read last rest := by
  cases parsed with
  | none => rfl
  | empty => rfl
  | list names =>
      rw [List.cons_append, List.append_assoc]
      exact (read_nameList names).trans rfl

theorem read_runs {first second : Agent.Draft} (run : Agent.Draft.Runs first tokens second)
    : (body name parameters loc first).read last (tokens ++ rest)
      = (body name parameters loc second).read last rest := by
  induction run with
  | nil => rfl
  | cons step _ ih =>
      rw [List.cons_append, Draft.read, Draft.feed, step]
      exact ih

/-- The tokens of an agent and a `;` behind it end a declaration. -/
theorem read_body {agent : Agent} {semicolon : Location}
    (derived : Agent.Derives .total tokens agent)
    : (body name parameters loc .blank).read last (tokens ++ ⟨.semicolon, semicolon⟩ :: rest)
      = (.ok ⟨name, parameters, agent, loc⟩, rest) := by
  obtain ⟨draft, run, ends⟩ := derived.readable [] .empty rfl
  have ended : draft.feed ⟨.semicolon, semicolon⟩ = .ended agent :=
    ends ⟨.semicolon, semicolon⟩ (by simp [Agent.Level.Closes])
  rw [show Agent.Draft.blank = ⟨[], .empty, .start⟩ from rfl, read_runs run]
  simp [Draft.read, Draft.feed, ended]

end Completeness

end Draft

theorem Derives.read {tokens rest : List Token} {declaration : Declaration} {last : Location}
    (derived : Derives tokens declaration)
    : Declaration.read last (tokens ++ rest) = (.ok declaration, rest) := by
  cases derived with
  | @intro loc name place head parameters equals body agent semicolon parsed derived =>
      have finished
          : Draft.blank.read last
              (⟨.agent, loc⟩ :: ⟨.name name, place⟩
                :: (head ++ ⟨.equals, equals⟩ :: (body ++ [⟨.semicolon, semicolon⟩]))
                ++ rest)
            = (.ok ⟨name, parameters, agent, loc⟩, rest) := by
        simp only [List.cons_append, List.append_assoc, List.nil_append]
        exact (Draft.read_parameters parsed).trans (Draft.read_body derived)
      rw [Declaration.read, finished]

theorem derives_of_read {tokens rest : List Token} {declaration : Declaration}
    {last : Location} (result : Declaration.read last tokens = (.ok declaration, rest))
    : ∃ used, tokens = used ++ rest ∧ Derives used declaration := by
  unfold Declaration.read at result
  split at result
  next finished =>
    cases result
    exact Draft.Reads.read [] .blank finished
  next => cases result

theorem Derives.ne_nil {tokens : List Token} {declaration : Declaration}
    (derived : Derives tokens declaration)
    : tokens ≠ [] := by
  cases derived
  simp

theorem readAll_of_read_ok {tokens rest : List Token} {declaration : Declaration}
    {last : Location} (nonempty : tokens ≠ [])
    (result : Declaration.read last tokens = (.ok declaration, rest))
    : readAll last tokens
      = (declaration :: (readAll last rest).1, (readAll last rest).2) := by
  cases tokens with
  | nil => exact absurd rfl nonempty
  | cons token tokens => rw [readAll, result]

theorem readAll_of_read_error {tokens rest : List Token} {diagnostic : Diagnostic}
    {last : Location} (nonempty : tokens ≠ [])
    (result : Declaration.read last tokens = (.error diagnostic, rest))
    : readAll last tokens
      = ((readAll last rest).1, diagnostic :: (readAll last rest).2.1,
          (readAll last rest).2.2) := by
  cases tokens with
  | nil => exact absurd rfl nonempty
  | cons token tokens => rw [readAll, result]

end Declaration

namespace Program

theorem Derives.readAll {tokens : List Token} {program : Program} {last : Location}
    (derived : Derives tokens program)
    : Declaration.readAll last tokens = (program.declarations, [], []) := by
  induction derived with
  | nil => rw [Declaration.readAll]
  | @cons tokens _ rest _ first _ ih =>
      have nonempty : tokens ++ rest ≠ [] := by simp [first.ne_nil]
      rw [Declaration.readAll_of_read_ok nonempty first.read, ih]

theorem derives_of_readAll {last : Location} {tokens : List Token}
    {declarations : List Declaration} {left : List Token}
    (result : Declaration.readAll last tokens = (declarations, [], left))
    : Derives tokens ⟨declarations⟩ := by
  fun_induction Declaration.readAll last tokens generalizing declarations with
  | case1 =>
      cases result
      exact .nil
  | case2 token tokens round _ _ _ rest declaration first =>
      rename_i ih
      cases result
      have read : Declaration.read last (token :: tokens) = (.ok declaration, round.2) :=
        Prod.ext first rfl
      obtain ⟨used, split, derived⟩ := Declaration.derives_of_read read
      rw [split]
      exact .cons derived (ih rest)
  | case3 => cases result

theorem ofTokens_eq (tokens : List Token)
    : ofTokens tokens
      = settle (Declaration.readAll (Supply.ofList tokens).last tokens).2.1
          ⟨(Declaration.readAll (Supply.ofList tokens).last tokens).1⟩ :=
  rfl

theorem Derives.ofTokens {tokens : List Token} {program : Program}
    (derived : Derives tokens program)
    : Program.ofTokens tokens = .ok program := by
  have all := @Derives.readAll _ _ (Supply.ofList tokens).last derived
  rw [ofTokens_eq, settle_eq_ok_iff]
  rw [all]
  exact ⟨rfl, rfl⟩

theorem derives_of_ofTokens {tokens : List Token} {program : Program}
    (result : ofTokens tokens = .ok program)
    : Derives tokens program := by
  rw [ofTokens_eq, settle_eq_ok_iff] at result
  obtain ⟨clean, rfl⟩ := result
  exact derives_of_readAll (Prod.ext rfl (Prod.ext clean rfl))

/-- A list of tokens forms a program just when it derives that program. -/
theorem ofTokens_eq_ok_iff_derives {tokens : List Token} {program : Program}
    : ofTokens tokens = .ok program ↔ Derives tokens program :=
  ⟨derives_of_ofTokens, Derives.ofTokens⟩

end Program

end PiCalculus
