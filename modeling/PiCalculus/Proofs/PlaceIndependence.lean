import Mathlib.Data.List.Forall2
import PiCalculus.Conversion
import PiCalculus.Proofs.Conversion
import PiCalculus.Proofs.RoundTrip

/-! Places have no influence on meaning. Reading and converting commute with forgetting every
place, so sources that differ in layout alone have the same term, or are reported alike.
-/

namespace PiCalculus

def Token.erase (token : Token) : Token := ⟨token.lexeme, .start⟩

theorem map_erase_eq {tokens others : List Token}
    (h : tokens.map Token.lexeme = others.map Token.lexeme)
    : tokens.map Token.erase = others.map Token.erase := by
  have placed := congrArg (List.map fun lexeme => (⟨lexeme, .start⟩ : Token)) h
  rw [List.map_map, List.map_map] at placed
  exact placed

def Diagnostic.erase (diagnostic : Diagnostic) : Diagnostic := ⟨diagnostic.problem, .start⟩

def Report.erase (report : Report) : Report :=
  ⟨report.first.erase, report.others.map Diagnostic.erase⟩

-----------------------------------------------------------------------------------------
-- Reading an agent
-----------------------------------------------------------------------------------------

namespace Agent

def Guard.erase : Guard → Guard
  | silent _ => silent .start
  | receive subject object _ => receive subject object .start
  | send subject object _ => send subject object .start
  | compare left right _ => compare left right .start
  | restrict name _ => restrict name .start

namespace Chain

def eraseLeft (left : Option (Agent × Location)) : Option (Agent × Location) :=
  left.map fun item => (item.1.erase, .start)

def erase (chain : Chain) : Chain :=
  ⟨eraseLeft chain.summand, eraseLeft chain.factor, chain.guards.map Guard.erase⟩

end Chain

def Point.erase : Point → Point
  | start => start
  | operand agent => operand agent.erase
  | tau _ => tau .start
  | name subject _ => name subject .start
  | firstArgument subject _ => firstArgument subject .start
  | nextArgument subject list _ => nextArgument subject list .start
  | argument subject list _ => argument subject list .start
  | arguments subject list _ => arguments subject list .start
  | output subject _ => output subject .start
  | outputObject subject object _ => outputObject subject object .start
  | bracket _ => bracket .start
  | matchLeft left _ => matchLeft left .start
  | matchEquals left _ => matchEquals left .start
  | matchRight left right _ => matchRight left right .start
  | paren _ => paren .start
  | caret _ => caret .start
  | restricted bound _ => restricted bound .start

def Draft.erase (draft : Draft) : Draft :=
  ⟨draft.outer.map Chain.erase, draft.chain.erase, draft.point.erase⟩

def Advance.erase : Advance → Advance
  | more draft => more draft.erase
  | ended agent => ended agent.erase
  | fault diagnostic => fault diagnostic.erase

theorem Guard.apply_erase (guard : Guard) (next : Agent)
    : guard.erase.apply next.erase = (guard.apply next).erase := by
  cases guard <;> rfl

namespace Chain

variable (chain : Chain) (operand : Agent)

theorem wrap_erase : chain.erase.wrap operand.erase = (chain.wrap operand).erase := by
  obtain ⟨summand, factor, guards⟩ := chain
  simp only [wrap, erase]
  induction guards generalizing operand with
  | nil => rfl
  | cons guard guards ih =>
      rw [List.map_cons, List.foldl_cons, Guard.apply_erase, ih, List.foldl_cons]

theorem product_erase : chain.erase.product operand.erase = (chain.product operand).erase := by
  obtain ⟨summand, factor, guards⟩ := chain
  cases factor <;> rfl

theorem total_erase : chain.erase.total operand.erase = (chain.total operand).erase := by
  have product := chain.product_erase operand
  obtain ⟨summand, factor, guards⟩ := chain
  cases summand with
  | none => exact product
  | some left => exact congrArg (choice left.1.erase · .start) product

theorem alongside_erase (loc : Location)
    : chain.erase.alongside operand.erase .start = (chain.alongside operand loc).erase := by
  rw [alongside, product_erase]
  rfl

theorem otherwise_erase (loc : Location)
    : chain.erase.otherwise operand.erase .start = (chain.otherwise operand loc).erase := by
  rw [otherwise, total_erase]
  rfl

end Chain

namespace Draft

variable (draft : Draft) (token : Token)

theorem completed_erase (operand : Agent)
    : draft.erase.completed operand.erase = (draft.completed operand).erase := by
  rw [completed, completed, erase, Chain.wrap_erase]
  rfl

theorem startOperand_erase
    : draft.erase.startOperand token.erase = (draft.startOperand token).erase := by
  obtain ⟨lexeme, loc⟩ := token
  cases lexeme with
  | number text =>
      by_cases zero : text = "0"
      · subst zero
        exact congrArg Advance.more (draft.completed_erase (.inert loc))
      · simp [startOperand, Token.erase, zero, Advance.erase, Diagnostic.erase]
  | _ => rfl

theorem endOperand_erase (operand : Agent)
    : draft.erase.endOperand operand.erase token.erase
      = (draft.endOperand operand token).erase := by
  obtain ⟨lexeme, loc⟩ := token
  obtain ⟨outer, chain, point⟩ := draft
  cases lexeme with
  | pipe =>
      exact congrArg (Advance.more ⟨outer.map Chain.erase, ·, .start⟩)
        (chain.alongside_erase operand loc)
  | plus =>
      exact congrArg (Advance.more ⟨outer.map Chain.erase, ·, .start⟩)
        (chain.otherwise_erase operand loc)
  | closeParen =>
      cases outer with
      | nil => exact congrArg Advance.ended (chain.total_erase operand)
      | cons inner outer =>
          have group : inner.erase.wrap (chain.erase.total operand.erase)
              = (inner.wrap (chain.total operand)).erase := by
            rw [chain.total_erase, Chain.wrap_erase]
          exact congrArg
            (fun group => Advance.more ⟨outer.map Chain.erase, inner.erase, .operand group⟩)
            group
  | _ =>
      cases outer with
      | nil => exact congrArg Advance.ended (chain.total_erase operand)
      | cons inner outer => rfl

theorem takeName_erase {point : String → Point} {erased : String → Point}
    (same : ∀ name, (point name).erase = erased name)
    : draft.erase.takeName token.erase erased = (draft.takeName token point).erase := by
  obtain ⟨lexeme, loc⟩ := token
  cases lexeme with
  | name text => simp [takeName, Token.erase, moved, Advance.erase, erase, same]
  | _ => rfl

/-- Where one lexeme is wanted, its place does not matter, nor that of another one. -/
theorem wanted_erase {wanted : Lexeme} {expectation : Expectation} {reached erased : Draft}
    (same : reached.erase = erased)
    : (if token.erase.lexeme = wanted then Advance.more erased
        else .unexpected expectation token.erase)
      = (if token.lexeme = wanted then Advance.more reached
        else .unexpected expectation token).erase := by
  subst same
  rw [apply_ite Advance.erase]
  rfl

theorem endCall_erase (name : String) (arguments : List String) (loc : Location)
    : draft.erase.endCall name arguments .start token.erase
      = (draft.endCall name arguments loc token).erase := by
  rw [endCall, endCall, ← endOperand_erase, ← Chain.wrap_erase]
  rfl

theorem feed_erase : draft.erase.feed token.erase = (draft.feed token).erase := by
  obtain ⟨outer, chain, point⟩ := draft
  cases point with
  | start => exact startOperand_erase _ _
  | operand agent => exact endOperand_erase _ _ _
  | name subject loc =>
      obtain ⟨lexeme, place⟩ := token
      cases lexeme with
      | openParen | apostrophe => rfl
      | _ => exact endCall_erase _ _ _ _ _
  | firstArgument subject loc =>
      obtain ⟨lexeme, place⟩ := token
      cases lexeme with
      | closeParen => exact congrArg Advance.more (completed_erase _ (.call subject [] loc))
      | _ => rfl
  | nextArgument | argument =>
      obtain ⟨lexeme, place⟩ := token
      cases lexeme <;> rfl
  | arguments subject list loc =>
      by_cases dot : token.lexeme = .dot
      · obtain ⟨lexeme, place⟩ := token
        cases dot
        match list with
        | [] | [_] | _ :: _ :: _ => rfl
      · have call :=
          endCall_erase ⟨outer, chain, .arguments subject list loc⟩ token subject list loc
        simpa [feed, erase, Point.erase, Token.erase, dot] using call
  | output | bracket | matchEquals | caret => exact takeName_erase _ _ fun _ => rfl
  | paren loc =>
      by_cases caret : token.lexeme = .caret
      · obtain ⟨lexeme, place⟩ := token
        cases caret
        rfl
      · have group := startOperand_erase ⟨chain :: outer, .empty, .start⟩ token
        simp only [feed, erase, Point.erase, Token.erase, caret, if_false]
        exact group
  | _ => exact wanted_erase _ rfl

end Draft

end Agent

-----------------------------------------------------------------------------------------
-- Reading declarations and programs
-----------------------------------------------------------------------------------------

namespace Declaration

def Draft.erase : Draft → Draft
  | blank => blank
  | keyword _ => keyword .start
  | named name _ => named name .start
  | nextParameter name parameters _ => nextParameter name parameters .start
  | parameter name parameters _ => parameter name parameters .start
  | headed name parameters _ => headed name parameters .start
  | body name parameters _ draft => body name parameters .start draft.erase

def Advance.erase : Advance → Advance
  | more draft => more draft.erase
  | done declaration => done declaration.erase
  | fault diagnostic => fault diagnostic.erase

namespace Draft

theorem wanted_erase (token : Token) {wanted : Lexeme} {expectation : Expectation}
    {reached erased : Advance} (same : reached.erase = erased)
    : (if token.erase.lexeme = wanted then erased else .unexpected expectation token.erase)
      = (if token.lexeme = wanted then reached
        else .unexpected expectation token).erase := by
  subst same
  rw [apply_ite Advance.erase]
  rfl

theorem startBody_erase (name : String) (parameters : List String) (loc : Location)
    (token : Token)
    : startBody name parameters .start token.erase
      = (startBody name parameters loc token).erase :=
  wanted_erase token rfl

theorem feed_erase (draft : Draft) (token : Token)
    : draft.erase.feed token.erase = (draft.feed token).erase := by
  cases draft with
  | blank => exact wanted_erase token rfl
  | named name loc =>
      by_cases opening : token.lexeme = .openParen
      · obtain ⟨lexeme, place⟩ := token
        cases opening
        rfl
      · simpa [feed, erase, Token.erase, opening] using startBody_erase name [] loc token
  | headed name parameters loc => exact startBody_erase _ _ _ _
  | body name parameters loc draft =>
      simp only [feed, erase, Agent.Draft.feed_erase]
      cases draft.feed token with
      | more next => rfl
      | fault diagnostic => rfl
      | ended agent => exact wanted_erase token rfl
  | _ =>
      obtain ⟨lexeme, place⟩ := token
      cases lexeme <;> rfl

end Draft

/-- What reading a declaration gives, with every place forgotten. -/
def eraseRead : Except Diagnostic Declaration × List Token
    → Except Diagnostic Declaration × List Token
  | (.ok declaration, rest) => (.ok declaration.erase, rest.map Token.erase)
  | (.error diagnostic, rest) => (.error diagnostic.erase, rest.map Token.erase)

theorem Draft.leftAt_erase (problem : Problem) (token : Token) (tokens : List Token)
    : leftAt problem token.erase (tokens.map Token.erase)
      = (leftAt problem token tokens).map Token.erase := by
  unfold leftAt
  split <;> rfl

theorem Draft.read_erase (draft : Draft) (last : Location) (tokens : List Token)
    : draft.erase.read .start (tokens.map Token.erase)
      = eraseRead (draft.read last tokens) := by
  induction tokens generalizing draft with
  | nil => rfl
  | cons token tokens ih =>
      simp only [List.map_cons, Draft.read, feed_erase]
      cases draft.feed token with
      | more next => exact ih next
      | done declaration => rfl
      | fault diagnostic =>
          exact Prod.ext rfl (leftAt_erase diagnostic.problem token tokens)

theorem afterSemicolon_erase (tokens : List Token)
    : afterSemicolon (tokens.map Token.erase) = (afterSemicolon tokens).map Token.erase := by
  induction tokens with
  | nil => rfl
  | cons token tokens ih =>
      simp only [List.map_cons, afterSemicolon, Token.erase]
      split
      next => rfl
      next => exact ih

theorem read_erase (last : Location) (tokens : List Token)
    : Declaration.read .start (tokens.map Token.erase)
      = eraseRead (Declaration.read last tokens) := by
  have read := Draft.read_erase .blank last tokens
  simp only [Declaration.read]
  cases found : Draft.blank.read last tokens with
  | mk outcome rest =>
      rw [found] at read
      cases outcome <;> simp_all [Draft.erase, eraseRead, afterSemicolon_erase]

theorem readAll_erase (last : Location) (tokens : List Token)
    : readAll .start (tokens.map Token.erase)
      = ((readAll last tokens).1.map Declaration.erase,
          (readAll last tokens).2.1.map Diagnostic.erase,
          (readAll last tokens).2.2.map Token.erase) := by
  fun_induction readAll last tokens with
  | case1 =>
      rw [List.map_nil, readAll]
      rfl
  | case2 token tokens round _ _ _ rest declaration first =>
      rename_i ih
      have found : Declaration.read last (token :: tokens) = (.ok declaration, round.2) :=
        Prod.ext first rfl
      have read := read_erase last (token :: tokens)
      rw [found] at read
      rw [readAll_of_read_ok (by simp) read, ih, rest]
      rfl
  | case3 token tokens round _ _ _ rest diagnostic first =>
      rename_i ih
      have found : Declaration.read last (token :: tokens) = (.error diagnostic, round.2) :=
        Prod.ext first rfl
      have read := read_erase last (token :: tokens)
      rw [found] at read
      rw [readAll_of_read_error (by simp) read, ih, rest]
      rfl

end Declaration

/-- An outcome with every place forgotten, where `erase` does so for a value. -/
def eraseOutcome {α : Type} (erase : α → α) : Except Report α → Except Report α
  | .ok value => .ok (erase value)
  | .error report => .error report.erase

theorem settle_erase {α : Type} (erase : α → α) (diagnostics : List Diagnostic) (value : α)
    : settle (diagnostics.map Diagnostic.erase) (erase value)
      = eraseOutcome erase (settle diagnostics value) := by
  cases diagnostics <;> rfl

theorem Program.ofTokens_erase (tokens : List Token)
    : ofTokens (tokens.map Token.erase) = eraseOutcome erase (ofTokens tokens) := by
  have last : (Supply.ofList (tokens.map Token.erase)).last = .start := by
    cases found : tokens.getLast? <;> simp [Supply.ofList, found, Token.erase]
  rw [ofTokens_eq, ofTokens_eq, last,
    Declaration.readAll_erase (Supply.ofList tokens).last tokens]
  exact settle_erase erase _ ⟨(Declaration.readAll (Supply.ofList tokens).last tokens).1⟩

-----------------------------------------------------------------------------------------
-- Converting
-----------------------------------------------------------------------------------------

theorem Scope.unbound_erase (scope : Scope) (names : List String) (loc : Location)
    : scope.unbound names .start = (scope.unbound names loc).map Diagnostic.erase := by
  simp [unbound, Diagnostic.erase, Function.comp_def]

namespace Agent

variable {agents : Indices}

theorem resolve?_erase (agent : Agent) (scope : Scope)
    : agent.erase.resolve? agents scope = agent.resolve? agents scope := by
  induction agent generalizing scope <;> simp_all [erase, resolve?]

theorem faults_erase (agent : Agent) (scope : Scope)
    : agent.erase.faults agents scope = (agent.faults agents scope).map Diagnostic.erase := by
  induction agent generalizing scope with
  | inert loc => rfl
  | silent next loc ih => exact ih scope
  | receive subject object next loc ih =>
      simp only [erase, faults, scope.unbound_erase [subject] loc]
      cases scope.unbound [subject] loc with
      | nil => exact ih (scope.bind object)
      | cons first others => rfl
  | send left right next loc ih | compare left right next loc ih =>
      simp only [erase, faults, scope.unbound_erase [left, right] loc]
      cases scope.unbound [left, right] loc with
      | nil => exact ih scope
      | cons first others => rfl
  | restrict name next loc ih => exact ih (scope.bind name)
  | choice left right loc hl hr | parallel left right loc hl hr =>
      simp only [erase, faults, hl, hr, List.map_append]
  | call name arguments loc =>
      simp only [erase, faults]
      cases agents[name]? with
      | none => rfl
      | some index => exact scope.unbound_erase arguments loc

end Agent

namespace Program

variable (program : Program)

@[simp]
theorem names_erase : program.erase.names = program.names := by
  simp [names, erase, Declaration.erase]

@[simp]
theorem indices_erase : program.erase.indices = program.indices := by
  simp [indices, erase, Declaration.erase, List.zipIdx_map, List.foldl_map]

theorem duplicates_erase
    : program.erase.duplicates = program.duplicates.map Diagnostic.erase := by
  simp only [duplicates, names_erase]
  simp only [erase, List.zipIdx_map, List.filterMap_map, List.map_filterMap]
  refine List.filterMap_congr fun item _ => ?_
  rw [apply_ite (Option.map Diagnostic.erase)]
  rfl

theorem exists_entry_erase_iff {index : Nat} {slots : List Nat}
    : (∃ entry,
        program.erase.entry? = some (entry, index)
        ∧ slots = List.range entry.parameters.length)
      ↔ ∃ entry,
          program.entry? = some (entry, index)
          ∧ slots = List.range entry.parameters.length := by
  simp only [entry?_eq_some_iff, names_erase]
  simp [erase, Declaration.erase]

theorem resolve?_erase : program.erase.resolve? = program.resolve? := by
  apply Option.ext
  intro system
  have bodies : program.erase.declarations.mapM (·.resolve? program.indices)
      = program.declarations.mapM (·.resolve? program.indices) := by
    simp [erase, Declaration.resolve?, Declaration.erase, Agent.resolve?_erase, Declaration.scope,
      Function.comp_def]
  simp only [resolve?_eq_some_iff, names_erase, indices_erase, bodies, exists_entry_erase_iff]

theorem faults_erase : program.erase.faults = program.faults.map Diagnostic.erase := by
  simp only [faults, indices_erase, List.map_flatMap]
  simp [erase, List.flatMap_map, Declaration.erase, Declaration.scope, Agent.faults_erase]

theorem misdeclared_erase
    : program.erase.misdeclared = program.misdeclared.map Diagnostic.erase := by
  simp only [misdeclared, duplicates_erase, names_erase, List.map_append]
  split <;> rfl

theorem problems_erase : program.erase.problems = program.problems.map Diagnostic.erase := by
  simp only [problems, misdeclared_erase, faults_erase]
  cases program.misdeclared <;> rfl

theorem convert_erase (layout : Layout)
    : program.erase.convert layout = eraseOutcome id (program.convert layout) := by
  cases h : program.convert layout with
  | ok text =>
      obtain ⟨system, resolved, written⟩ := convert_eq_ok_iff.mp h
      rw [← resolve?_erase] at resolved
      exact convert_eq_ok_iff.mpr ⟨system, resolved, written⟩
  | error report =>
      have problems := program.problems_erase
      rw [convert_eq_error_iff.mp h] at problems
      exact convert_eq_error_iff.mpr problems

end Program

-----------------------------------------------------------------------------------------
-- Outcomes that differ in places alone
-----------------------------------------------------------------------------------------

/-- Two values that are `same`, or two reports with the same kinds and messages. -/
inductive Alike {α : Type} (same : α → α → Prop) : Except Report α → Except Report α → Prop
  | ok {value other} (h : same value other) : Alike same (.ok value) (.ok other)
  | error {report other : Report}
    (h : List.Forall₂
      (fun diagnostic twin =>
        diagnostic.kind = twin.kind ∧ diagnostic.message = twin.message)
      report.toList other.toList)
    : Alike same (.error report) (.error other)

theorem alike_of_erase_eq {α : Type} {erase : α → α} {outcome other : Except Report α}
    (h : eraseOutcome erase outcome = eraseOutcome erase other)
    : Alike (fun value twin => erase value = erase twin) outcome other := by
  cases outcome with
  | ok value =>
      cases other with
      | ok twin => exact .ok (Except.ok.inj h)
      | error report => cases h
  | error report =>
      cases other with
      | ok twin => cases h
      | error twin =>
          refine .error ?_
          have lists : report.toList.map Diagnostic.erase = twin.toList.map Diagnostic.erase :=
            congrArg Report.toList (Except.error.inj h)
          rw [← List.forall₂_eq_eq_eq, List.forall₂_map_left_iff,
            List.forall₂_map_right_iff] at lists
          refine lists.imp fun diagnostic other same => ?_
          have problem : diagnostic.erase.problem = other.erase.problem :=
            congrArg Diagnostic.problem same
          exact ⟨congrArg Problem.kind problem, congrArg Problem.message problem⟩

theorem Alike.bind {α β : Type} {same : α → α → Prop} {result : β → β → Prop}
    {outcome other : Except Report α} {next : α → Except Report β}
    (h : Alike same outcome other)
    (hn : ∀ value twin, same value twin → Alike result (next value) (next twin))
    : Alike result (outcome.bind next) (other.bind next) := by
  cases h with
  | ok h => exact hn _ _ h
  | error h => exact .error h

theorem Program.ofTokens_alike {tokens others : List Token}
    (h : tokens.map Token.lexeme = others.map Token.lexeme)
    : Alike (fun program other => program.erase = other.erase)
        (ofTokens tokens) (ofTokens others) := by
  apply alike_of_erase_eq
  rw [← ofTokens_erase, ← ofTokens_erase, map_erase_eq h]

theorem Program.convert_alike {program other : Program} (h : program.erase = other.erase)
    (layout : Layout)
    : Alike Eq (program.convert layout) (other.convert layout) := by
  have erased : eraseOutcome id (program.convert layout)
      = eraseOutcome id (other.convert layout) := by
    rw [← program.convert_erase, ← other.convert_erase, h]
  exact alike_of_erase_eq erased

theorem convertSource_of_scan {source : String} {tokens : List Token}
    (h : scan source = .ok tokens) (layout : Layout)
    : convertSource source layout
      = (Program.ofTokens tokens).bind fun program => program.convert layout := by
  rw [convertSource, Program.ofSource_of_scan h]
  rfl

/-- Tokens that differ in places form programs that differ in places or are reported alike,
such programs have one text or are reported alike, and so do sources with such tokens.
-/
theorem meaning_ignores_places
    : (∀ tokens others : List Token, tokens.map Token.lexeme = others.map Token.lexeme
        → Alike (fun program other => program.erase = other.erase)
            (Program.ofTokens tokens) (Program.ofTokens others))
      ∧ (∀ program other : Program, program.erase = other.erase
        → ∀ layout, Alike Eq (program.convert layout) (other.convert layout))
      ∧ ∀ source other tokens others,
          scan source = .ok tokens
          → scan other = .ok others
          → tokens.map Token.lexeme = others.map Token.lexeme
          → ∀ layout, Alike Eq (convertSource source layout) (convertSource other layout) := by
  refine ⟨fun _ _ => Program.ofTokens_alike, fun _ _ => Program.convert_alike, ?_⟩
  intro source other tokens others scanned scannedOther h layout
  rw [convertSource_of_scan scanned, convertSource_of_scan scannedOther]
  exact (Program.ofTokens_alike h).bind fun _ _ same => Program.convert_alike same layout

/-- The tokens of an unknown call on one line, and of the same call spread over three. -/
def compactCall : List Token :=
  [⟨.agent, ⟨0, 0⟩⟩, ⟨.name "Main", ⟨0, 6⟩⟩, ⟨.equals, ⟨0, 10⟩⟩, ⟨.name "x", ⟨0, 11⟩⟩,
    ⟨.semicolon, ⟨0, 12⟩⟩]

@[inherit_doc compactCall]
def spreadCall : List Token :=
  [⟨.agent, ⟨0, 0⟩⟩, ⟨.name "Main", ⟨2, 1⟩⟩, ⟨.equals, ⟨2, 6⟩⟩, ⟨.name "x", ⟨2, 8⟩⟩,
    ⟨.semicolon, ⟨2, 9⟩⟩]

theorem spreadCall_alike
    : scan "agent Main=x;" = .ok compactCall
      ∧ scan "agent\n%=\n Main =\tx;" = .ok spreadCall
      ∧ compactCall.map Token.lexeme = spreadCall.map Token.lexeme
      ∧ Alike Eq (convertSource "agent Main=x;" .standard)
          (convertSource "agent\n%=\n Main =\tx;" .standard) := by
  have compact : scan "agent Main=x;" = .ok compactCall := by decide +kernel
  have spread : scan "agent\n%=\n Main =\tx;" = .ok spreadCall := by decide +kernel
  have same : compactCall.map Token.lexeme = spreadCall.map Token.lexeme := by decide
  exact ⟨compact, spread, same,
    meaning_ignores_places.2.2 _ _ _ _ compact spread same .standard⟩

end PiCalculus
