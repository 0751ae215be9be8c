import PiCalculus.Agent.Text
import PiCalculus.Proofs.LexicalLanguage
import PiCalculus.Proofs.ProgramGrammar

/-! Writing and reading back. The written form of a program is read as the same program,
places apart, just when every name in it can stand in a source; then it is also the written
form of the program read.
-/

namespace PiCalculus

namespace Agent

/-- The agent with every place forgotten. -/
def erase : Agent → Agent
  | inert _ => inert .start
  | silent next _ => silent next.erase .start
  | receive subject object next _ => receive subject object next.erase .start
  | send subject object next _ => send subject object next.erase .start
  | compare left right next _ => compare left right next.erase .start
  | restrict name next _ => restrict name next.erase .start
  | choice left right _ => choice left.erase right.erase .start
  | parallel left right _ => parallel left.erase right.erase .start
  | call name arguments _ => call name arguments .start

/-- All names that an agent mentions, those of agents it calls included. -/
def allNames : Agent → List String
  | inert _ => []
  | silent next _ => next.allNames
  | receive subject object next _ => subject :: object :: next.allNames
  | send subject object next _ => subject :: object :: next.allNames
  | compare left right next _ => left :: right :: next.allNames
  | restrict name next _ => name :: next.allNames
  | choice left right _ => left.allNames ++ right.allNames
  | parallel left right _ => left.allNames ++ right.allNames
  | call name arguments _ => name :: arguments

@[simp]
theorem text_erase (agent : Agent) : agent.erase.text = agent.text := by
  induction agent <;> simp_all [erase, text]

@[simp]
theorem allNames_erase (agent : Agent) : agent.erase.allNames = agent.allNames := by
  induction agent <;> simp_all [erase, allNames]

end Agent

namespace Declaration

def erase (declaration : Declaration) : Declaration :=
  ⟨declaration.name, declaration.parameters, declaration.body.erase, .start⟩

def allNames (declaration : Declaration) : List String :=
  declaration.name :: (declaration.parameters ++ declaration.body.allNames)

@[simp]
theorem text_erase (declaration : Declaration)
    : declaration.erase.text = declaration.text := by
  simp [erase, text]

@[simp]
theorem allNames_erase (declaration : Declaration)
    : declaration.erase.allNames = declaration.allNames := by
  simp [erase, allNames]

end Declaration

namespace Program

def erase (program : Program) : Program := ⟨program.declarations.map Declaration.erase⟩

def allNames (program : Program) : List String :=
  program.declarations.flatMap Declaration.allNames

@[simp]
theorem text_erase (program : Program) : program.erase.text = program.text := by
  simp [erase, text, Function.comp_def]

@[simp]
theorem allNames_erase (program : Program) : program.erase.allNames = program.allNames := by
  simp [erase, allNames, List.flatMap_map]

end Program

-----------------------------------------------------------------------------------------
-- The lexemes of a written form
-----------------------------------------------------------------------------------------

def nameListLexemes (names : List String) : List Lexeme :=
  (names.map Lexeme.name).intersperse .comma

def nameTupleLexemes : List String → List Lexeme
  | [] => []
  | names => .openParen :: (nameListLexemes names ++ [.closeParen])

def Agent.lexemes : Agent → List Lexeme
  | inert _ => [.number "0"]
  | silent next _ => .tau :: .dot :: next.lexemes
  | receive subject object next _ =>
      .name subject :: .openParen :: .name object :: .closeParen :: .dot :: next.lexemes
  | send subject object next _ =>
      .name subject :: .apostrophe :: .name object :: .dot :: next.lexemes
  | compare left right next _ =>
      .openBracket :: .name left :: .equals :: .name right :: .closeBracket :: next.lexemes
  | restrict name next _ => .openParen :: .caret :: .name name :: .closeParen :: next.lexemes
  | choice left right _ =>
      .openParen :: (left.lexemes ++ .plus :: (right.lexemes ++ [.closeParen]))
  | parallel left right _ =>
      .openParen :: (left.lexemes ++ .pipe :: (right.lexemes ++ [.closeParen]))
  | call name arguments _ => .name name :: nameTupleLexemes arguments

def Declaration.lexemes (declaration : Declaration) : List Lexeme :=
  .agent :: .name declaration.name
    :: (nameTupleLexemes declaration.parameters
      ++ .equals :: (declaration.body.lexemes ++ [.semicolon]))

def Program.lexemes (program : Program) : List Lexeme :=
  program.declarations.flatMap Declaration.lexemes

/-- The text is cut into tokens with these lexemes, wherever it starts. -/
def Spells (text : List Char) (lexemes : List Lexeme) : Prop :=
  ∀ loc, ∃ tokens, Lexed loc text tokens ∧ tokens.map Token.lexeme = lexemes

section Spells

variable {c first : Char} {text rest : List Char} {lexeme : Lexeme} {lexemes : List Lexeme}
  {spelling : String}

theorem Spells.nil : Spells [] [] := fun _ => ⟨[], .nil, rfl⟩

theorem Spells.blank (blank : isBlank c) (tail : Spells rest lexemes)
    : Spells (c :: rest) lexemes := by
  intro loc
  obtain ⟨tokens, lexed, spelled⟩ := tail (loc.next c)
  exact ⟨tokens, .blank blank lexed, spelled⟩

theorem Spells.symbol (found : Lexeme.ofSymbol? c = some lexeme) (tail : Spells rest lexemes)
    : Spells (c :: rest) (lexeme :: lexemes) := by
  intro loc
  obtain ⟨tokens, lexed, spelled⟩ := tail (loc.next c)
  exact ⟨⟨lexeme, loc⟩ :: tokens, .symbol found lexed, by simp [spelled]⟩

theorem Spells.word (letter : isLetter first) (inside : ∀ c ∈ text, isWordChar c)
    (boundary : Boundary rest) (tail : Spells rest lexemes)
    : Spells (first :: (text ++ rest))
        (.ofWord (String.ofList (first :: text)) :: lexemes) := by
  intro loc
  obtain ⟨tokens, lexed, spelled⟩ := tail ((loc.next first).after text)
  exact ⟨_ :: tokens, .word letter inside boundary lexed, by simp [spelled]⟩

theorem Spells.zero (boundary : Boundary rest) (tail : Spells rest lexemes)
    : Spells ('0' :: rest) (.number "0" :: lexemes) := by
  intro loc
  obtain ⟨tokens, lexed, spelled⟩ := tail (loc.next '0')
  exact ⟨⟨.number "0", loc⟩ :: tokens, @Lexed.number _ _ [] _ _ rfl (by simp) boundary lexed,
    by simp [spelled]⟩

theorem Spells.name (valid : IsName spelling) (boundary : Boundary rest)
    (tail : Spells rest lexemes)
    : Spells (spelling.toList ++ rest) (.name spelling :: lexemes) := by
  intro loc
  obtain ⟨tokens, lexed, spelled⟩ := tail (loc.after spelling.toList)
  exact ⟨⟨.name spelling, loc⟩ :: tokens, .name valid boundary lexed, by simp [spelled]⟩

theorem spells_nameList {names : List String} (valid : ∀ name ∈ names, IsName name)
    (boundary : Boundary rest) (tail : Spells rest lexemes)
    : Spells ((nameList names).toList ++ rest) (nameListLexemes names ++ lexemes) := by
  induction names with
  | nil => simpa [nameList, nameListLexemes] using tail
  | cons name names ih =>
      cases names with
      | nil =>
          have last := tail.name (valid name (by simp)) boundary
          simpa [nameList, nameListLexemes] using last
      | cons next names =>
          have more := ih fun name member => valid name (List.mem_cons_of_mem _ member)
          have comma := (more.blank (c := ' ') rfl).symbol (c := ',') rfl
          have all := comma.name (valid name (by simp)) (boundary_cons rfl)
          simpa [nameList, nameListLexemes] using all

theorem spells_nameTuple {names : List String} (valid : ∀ name ∈ names, IsName name)
    (tail : Spells rest lexemes)
    : Spells ((nameTuple names).toList ++ rest) (nameTupleLexemes names ++ lexemes) := by
  cases names with
  | nil => simpa [nameTuple, nameTupleLexemes] using tail
  | cons name names =>
      have list := spells_nameList valid (boundary_cons rfl) (tail.symbol (c := ')') rfl)
      have tuple := list.symbol (c := '(') rfl
      simpa [nameTuple, nameTupleLexemes] using tuple

theorem boundary_nameTuple (names : List String) (boundary : Boundary rest)
    : Boundary ((nameTuple names).toList ++ rest) := by
  cases names with
  | nil => simpa [nameTuple] using boundary
  | cons name names => simpa [nameTuple] using boundary_cons rfl

theorem Spells.tau (boundary : Boundary rest) (tail : Spells rest lexemes)
    : Spells ('t' :: 'a' :: 'u' :: rest) (.tau :: lexemes) :=
  @Spells.word 't' ['a', 'u'] _ _ rfl (List.all_eq_true.mp rfl) boundary tail

theorem Spells.agentKeyword (boundary : Boundary rest) (tail : Spells rest lexemes)
    : Spells ('a' :: 'g' :: 'e' :: 'n' :: 't' :: rest) (.agent :: lexemes) :=
  @Spells.word 'a' ['g', 'e', 'n', 't'] _ _ rfl (List.all_eq_true.mp rfl) boundary tail

/-- A written agent is cut into the agent's lexemes. -/
theorem spells_agent (agent : Agent) (valid : ∀ name ∈ agent.allNames, IsName name)
    (boundary : Boundary rest) (tail : Spells rest lexemes)
    : Spells (agent.text.toList ++ rest) (agent.lexemes ++ lexemes) := by
  induction agent generalizing rest lexemes with
  | inert loc => simpa [Agent.text, Agent.lexemes] using Spells.zero boundary tail
  | silent next loc ih =>
      have inner := ih valid boundary tail
      have shape : (next.silent loc).text.toList ++ rest
          = 't' :: 'a' :: 'u' :: ' ' :: '.' :: ' ' :: (next.text.toList ++ rest) := by
        simp [Agent.text]
      rw [shape]
      exact .tau (boundary_cons rfl) (.blank rfl (.symbol rfl (.blank rfl inner)))
  | receive subject object next loc ih =>
      simp only [Agent.allNames, List.forall_mem_cons] at valid
      have inner := ih valid.2.2 boundary tail
      have shape : (Agent.receive subject object next loc).text.toList ++ rest
          = subject.toList ++ '(' :: (object.toList ++ ')' :: ' ' :: '.' :: ' '
            :: (next.text.toList ++ rest)) := by
        simp [Agent.text]
      rw [shape]
      exact .name valid.1 (boundary_cons rfl) (.symbol rfl (.name valid.2.1 (boundary_cons rfl)
        (.symbol rfl (.blank rfl (.symbol rfl (.blank rfl inner))))))
  | send subject object next loc ih =>
      simp only [Agent.allNames, List.forall_mem_cons] at valid
      have inner := ih valid.2.2 boundary tail
      have shape : (Agent.send subject object next loc).text.toList ++ rest
          = subject.toList ++ '\'' :: (object.toList ++ ' ' :: '.' :: ' '
            :: (next.text.toList ++ rest)) := by
        simp [Agent.text]
      rw [shape]
      exact .name valid.1 (boundary_cons rfl) (.symbol rfl (.name valid.2.1 (boundary_cons rfl)
        (.blank rfl (.symbol rfl (.blank rfl inner)))))
  | compare left right next loc ih =>
      simp only [Agent.allNames, List.forall_mem_cons] at valid
      have inner := ih valid.2.2 boundary tail
      have shape : (Agent.compare left right next loc).text.toList ++ rest
          = '[' :: (left.toList ++ ' ' :: '=' :: ' ' :: (right.toList ++ ']' :: ' '
            :: (next.text.toList ++ rest))) := by
        simp [Agent.text]
      rw [shape]
      exact .symbol rfl (.name valid.1 (boundary_cons rfl) (.blank rfl (.symbol rfl (.blank rfl
        (.name valid.2.1 (boundary_cons rfl) (.symbol rfl (.blank rfl inner)))))))
  | restrict name next loc ih =>
      simp only [Agent.allNames, List.forall_mem_cons] at valid
      have inner := ih valid.2 boundary tail
      have shape : (Agent.restrict name next loc).text.toList ++ rest
          = '(' :: '^' :: (name.toList ++ ')' :: ' ' :: (next.text.toList ++ rest)) := by
        simp [Agent.text]
      rw [shape]
      exact .symbol rfl (.symbol rfl (.name valid.1 (boundary_cons rfl)
        (.symbol rfl (.blank rfl inner))))
  | choice left right loc hl hr =>
      simp only [Agent.allNames, List.forall_mem_append] at valid
      have second := hr valid.2 (boundary_cons rfl) (tail.symbol (c := ')') rfl)
      have first := hl valid.1 (boundary_cons rfl)
        ((((second.blank (c := ' ') rfl).symbol (c := '+') rfl).blank (c := ' ') rfl))
      simpa [Agent.text, Agent.lexemes] using first.symbol (c := '(') rfl
  | parallel left right loc hl hr =>
      simp only [Agent.allNames, List.forall_mem_append] at valid
      have second := hr valid.2 (boundary_cons rfl) (tail.symbol (c := ')') rfl)
      have first := hl valid.1 (boundary_cons rfl)
        ((((second.blank (c := ' ') rfl).symbol (c := '|') rfl).blank (c := ' ') rfl))
      simpa [Agent.text, Agent.lexemes] using first.symbol (c := '(') rfl
  | call name arguments loc =>
      simp only [Agent.allNames, List.forall_mem_cons] at valid
      have tuple := spells_nameTuple valid.2 tail
      have outside := boundary_nameTuple arguments boundary
      simpa [Agent.text, Agent.lexemes] using tuple.name valid.1 outside

theorem spells_declaration (declaration : Declaration)
    (valid : ∀ name ∈ declaration.allNames, IsName name) (tail : Spells rest lexemes)
    : Spells (declaration.text.toList ++ rest) (declaration.lexemes ++ lexemes) := by
  simp only [Declaration.allNames, List.forall_mem_cons, List.forall_mem_append] at valid
  obtain ⟨name, parameters, body⟩ := valid
  have inner := spells_agent declaration.body body (boundary_cons rfl)
    (tail.symbol (c := ';') rfl)
  have head := spells_nameTuple parameters
    (((inner.blank (c := ' ') rfl).symbol (c := '=') rfl).blank (c := ' ') rfl)
  have named := head.name name (boundary_nameTuple _ (boundary_cons rfl))
  have all := (named.blank (c := ' ') rfl).agentKeyword (boundary_cons rfl)
  simpa [Declaration.text, Declaration.lexemes] using all

/-- A written program is cut into the program's lexemes. -/
theorem spells_program (program : Program) (valid : ∀ name ∈ program.allNames, IsName name)
    : Spells program.text.toList program.lexemes := by
  obtain ⟨declarations⟩ := program
  induction declarations with
  | nil => simpa [Program.text, Program.lexemes] using Spells.nil
  | cons declaration declarations ih =>
      simp only [Program.allNames, List.flatMap_cons, List.forall_mem_append] at valid
      have line := (ih valid.2).blank (c := '\n') rfl
      have all := spells_declaration declaration valid.1 line
      simpa [Program.text, Program.lexemes] using all

end Spells

-----------------------------------------------------------------------------------------
-- Reading the lexemes back
-----------------------------------------------------------------------------------------

section Derivations

variable {tokens : List Token} {lexeme : Lexeme} {lexemes : List Lexeme} {names : List String}

theorem map_lexeme_eq_cons_iff
    : tokens.map Token.lexeme = lexeme :: lexemes
      ↔ ∃ loc rest, tokens = ⟨lexeme, loc⟩ :: rest ∧ rest.map Token.lexeme = lexemes := by
  constructor
  · intro spelled
    obtain ⟨token, rest, rfl, rfl, tail⟩ := List.map_eq_cons_iff.mp spelled
    exact ⟨token.loc, rest, rfl, tail⟩
  · intro found
    obtain ⟨loc, rest, rfl, rfl⟩ := found
    rfl

theorem Names.cons {name : String} {loc comma : Location} (tail : Names tokens names)
    : Names (⟨.name name, loc⟩ :: ⟨.comma, comma⟩ :: tokens) (name :: names) := by
  induction tail with
  | one => exact .more .one
  | more _ ih => exact .more ih

theorem names_of_lexemes (nonempty : names ≠ [])
    (spelled : tokens.map Token.lexeme = nameListLexemes names)
    : Names tokens names := by
  induction names generalizing tokens with
  | nil => exact absurd rfl nonempty
  | cons name names ih =>
      cases names with
      | nil =>
          obtain ⟨loc, rest, rfl, none⟩ := map_lexeme_eq_cons_iff.mp spelled
          obtain rfl := List.map_eq_nil_iff.mp none
          exact .one
      | cons next names =>
          obtain ⟨loc, others, rfl, rest⟩ := map_lexeme_eq_cons_iff.mp spelled
          obtain ⟨comma, list, rfl, tail⟩ := map_lexeme_eq_cons_iff.mp rest
          exact (ih (by simp) tail).cons

theorem parameters_of_lexemes (spelled : tokens.map Token.lexeme = nameTupleLexemes names)
    : Parameters tokens names := by
  cases names with
  | nil =>
      obtain rfl := List.map_eq_nil_iff.mp spelled
      exact .none
  | cons name names =>
      simp only [nameTupleLexemes, map_lexeme_eq_cons_iff, List.map_eq_append_iff,
        List.map_eq_nil_iff] at spelled
      obtain ⟨opening, _, rfl, list, _, rfl, inner, closing, _, rfl, rfl⟩ := spelled
      exact .list (.plain (names_of_lexemes (by simp) inner))

theorem Parameters.call {name : String} {loc : Location} (parsed : Parameters tokens names)
    : Agent.Derives .operand (⟨.name name, loc⟩ :: tokens) (.call name names loc) := by
  cases parsed with
  | none => exact .name
  | empty => exact .emptyCall
  | list list => exact .call list

/-- Tokens with the lexemes of a written agent derive that agent, places apart. -/
theorem Agent.exists_derives (agent : Agent)
    (spelled : tokens.map Token.lexeme = agent.lexemes)
    : ∃ read, Derives .operand tokens read ∧ read.erase = agent.erase := by
  induction agent generalizing tokens with
  | inert loc =>
      simp only [lexemes, map_lexeme_eq_cons_iff, List.map_eq_nil_iff] at spelled
      obtain ⟨loc, _, rfl, rfl⟩ := spelled
      exact ⟨_, .inert, rfl⟩
  | silent next loc ih =>
      simp only [lexemes, map_lexeme_eq_cons_iff] at spelled
      obtain ⟨loc, _, rfl, dot, _, rfl, inner⟩ := spelled
      obtain ⟨read, derived, same⟩ := ih inner
      exact ⟨_, .silent derived, by simp [erase, same]⟩
  | receive subject object next loc ih =>
      simp only [lexemes, map_lexeme_eq_cons_iff] at spelled
      obtain ⟨loc, _, rfl, opening, _, rfl, place, _, rfl, closing, _, rfl, dot, _, rfl,
        inner⟩ := spelled
      obtain ⟨read, derived, same⟩ := ih inner
      exact ⟨_, .receive (.plain .one) derived, by simp [erase, same]⟩
  | send subject object next loc ih =>
      simp only [lexemes, map_lexeme_eq_cons_iff] at spelled
      obtain ⟨loc, _, rfl, apostrophe, _, rfl, place, _, rfl, dot, _, rfl, inner⟩ := spelled
      obtain ⟨read, derived, same⟩ := ih inner
      exact ⟨_, .send derived, by simp [erase, same]⟩
  | compare left right next loc ih =>
      simp only [lexemes, map_lexeme_eq_cons_iff] at spelled
      obtain ⟨loc, _, rfl, first, _, rfl, equals, _, rfl, second, _, rfl, closing, _, rfl,
        inner⟩ := spelled
      obtain ⟨read, derived, same⟩ := ih inner
      exact ⟨_, .compare derived, by simp [erase, same]⟩
  | restrict name next loc ih =>
      simp only [lexemes, map_lexeme_eq_cons_iff] at spelled
      obtain ⟨loc, _, rfl, caret, _, rfl, place, _, rfl, closing, _, rfl, inner⟩ := spelled
      obtain ⟨read, derived, same⟩ := ih inner
      exact ⟨_, .restrict derived, by simp [erase, same]⟩
  | choice left right loc hl hr =>
      simp only [lexemes, map_lexeme_eq_cons_iff, List.map_eq_append_iff,
        List.map_eq_nil_iff] at spelled
      obtain ⟨opening, _, rfl, first, _, rfl, before, plus, _, rfl, second, _, rfl, after,
        closing, _, rfl, rfl⟩ := spelled
      obtain ⟨leftRead, leftDerived, leftSame⟩ := hl before
      obtain ⟨rightRead, rightDerived, rightSame⟩ := hr after
      have derived := @Derives.group opening _ _ closing
        (@Derives.choice _ _ plus _ _ (.total (.product leftDerived)) (.product rightDerived))
      exact ⟨_, by simpa using derived, by simp [erase, leftSame, rightSame]⟩
  | parallel left right loc hl hr =>
      simp only [lexemes, map_lexeme_eq_cons_iff, List.map_eq_append_iff,
        List.map_eq_nil_iff] at spelled
      obtain ⟨opening, _, rfl, first, _, rfl, before, pipe, _, rfl, second, _, rfl, after,
        closing, _, rfl, rfl⟩ := spelled
      obtain ⟨leftRead, leftDerived, leftSame⟩ := hl before
      obtain ⟨rightRead, rightDerived, rightSame⟩ := hr after
      have derived := @Derives.group opening _ _ closing
        (.total (@Derives.parallel _ _ pipe _ _ (.product leftDerived) rightDerived))
      exact ⟨_, by simpa using derived, by simp [erase, leftSame, rightSame]⟩
  | call name arguments loc =>
      obtain ⟨loc, rest, rfl, tuple⟩ := map_lexeme_eq_cons_iff.mp spelled
      exact ⟨_, (parameters_of_lexemes tuple).call, rfl⟩

theorem Declaration.exists_derives (declaration : Declaration)
    (spelled : tokens.map Token.lexeme = declaration.lexemes)
    : ∃ read, Derives tokens read ∧ read.erase = declaration.erase := by
  simp only [lexemes, map_lexeme_eq_cons_iff, List.map_eq_append_iff,
    List.map_eq_nil_iff] at spelled
  obtain ⟨loc, _, rfl, place, _, rfl, head, _, rfl, parameters, equals, _, rfl, body, _, rfl,
    inner, semicolon, _, rfl, rfl⟩ := spelled
  obtain ⟨read, derived, same⟩ := declaration.body.exists_derives inner
  refine ⟨_, .intro (parameters_of_lexemes parameters) (.total (.product derived)), ?_⟩
  simp [erase, same]

theorem Program.exists_derives (program : Program)
    (spelled : tokens.map Token.lexeme = program.lexemes)
    : ∃ read, Derives tokens read ∧ read.erase = program.erase := by
  obtain ⟨declarations⟩ := program
  induction declarations generalizing tokens with
  | nil =>
      obtain rfl := List.map_eq_nil_iff.mp spelled
      exact ⟨⟨[]⟩, .nil, rfl⟩
  | cons declaration declarations ih =>
      obtain ⟨first, rest, rfl, before, after⟩ := List.map_eq_append_iff.mp spelled
      obtain ⟨head, headDerived, headSame⟩ := declaration.exists_derives before
      obtain ⟨⟨others⟩, tailDerived, tailSame⟩ := ih after
      refine ⟨⟨head :: others⟩, .cons headDerived tailDerived, ?_⟩
      simp_all [erase]

end Derivations

def Lexeme.names : Lexeme → List String
  | name text => [text]
  | _ => []

/-- The names among some tokens, in their order. -/
def namesIn (tokens : List Token) : List String := tokens.flatMap (·.lexeme.names)

theorem mem_namesIn {tokens : List Token} {name : String} (member : name ∈ namesIn tokens)
    : ∃ token ∈ tokens, token.lexeme = .name name := by
  obtain ⟨token, found, named⟩ := List.mem_flatMap.mp member
  refine ⟨token, found, ?_⟩
  cases lexeme : token.lexeme <;> simp_all [Lexeme.names]

section NamesIn

variable {tokens : List Token} {names : List String}

theorem Names.namesIn_eq (list : Names tokens names) : namesIn tokens = names := by
  induction list with
  | one => rfl
  | more _ ih => simp_all [namesIn, Lexeme.names]

theorem NameList.namesIn_eq (list : NameList tokens names) : namesIn tokens = names := by
  cases list with
  | plain list => exact list.namesIn_eq
  | trailing list =>
      have same := list.namesIn_eq
      simp_all [namesIn, Lexeme.names]

theorem Parameters.namesIn_eq (parsed : Parameters tokens names) : namesIn tokens = names := by
  cases parsed with
  | none => rfl
  | empty => rfl
  | list list =>
      have same := list.namesIn_eq
      simp_all [namesIn, Lexeme.names]

/-- An agent has the names of its tokens, one for one. -/
theorem Agent.Derives.namesIn_eq {level : Level} {agent : Agent}
    (derived : Derives level tokens agent)
    : namesIn tokens = agent.allNames := by
  induction derived with
  | call list =>
      have same := list.namesIn_eq
      simp_all [namesIn, Lexeme.names, allNames]
  | receive list _ ih =>
      have same := list.namesIn_eq
      simp_all [namesIn, Lexeme.names, allNames]
  | _ => simp_all [namesIn, Lexeme.names, allNames]

theorem Declaration.Derives.namesIn_eq {declaration : Declaration}
    (derived : Derives tokens declaration)
    : namesIn tokens = declaration.allNames := by
  cases derived with
  | intro parsed body =>
      have parameters := parsed.namesIn_eq
      have inner := body.namesIn_eq
      simp_all [namesIn, Lexeme.names, allNames]

theorem Program.Derives.namesIn_eq {program : Program} (derived : Derives tokens program)
    : namesIn tokens = program.allNames := by
  induction derived with
  | nil => rfl
  | cons first _ ih =>
      have head := first.namesIn_eq
      simp_all [namesIn, allNames]

end NamesIn

-----------------------------------------------------------------------------------------
-- Written programs
-----------------------------------------------------------------------------------------

namespace Program

theorem ofSource_eq_ok_iff {source : String} {program : Program}
    : ofSource source = .ok program
      ↔ ∃ tokens, Lexed .start source.toList tokens ∧ Derives tokens program := by
  unfold ofSource
  constructor
  · intro result
    cases scanned : scan source with
    | error report => simp [scanned, bind, Except.bind] at result
    | ok tokens =>
        simp only [scanned, bind, Except.bind] at result
        exact ⟨tokens, scan_eq_ok_iff_lexed.mp scanned, derives_of_ofTokens result⟩
  · intro found
    obtain ⟨tokens, lexed, derived⟩ := found
    rw [scan_eq_ok_iff_lexed.mpr lexed]
    exact derived.ofTokens

/-- A written program is read back if its names can stand in a source. -/
theorem exists_ofSource_text (program : Program)
    (valid : ∀ name ∈ program.allNames, IsName name)
    : ∃ read, ofSource program.text = .ok read ∧ read.erase = program.erase := by
  obtain ⟨tokens, lexed, spelled⟩ := spells_program program valid .start
  obtain ⟨read, derived, same⟩ := program.exists_derives spelled
  exact ⟨read, ofSource_eq_ok_iff.mpr ⟨tokens, lexed, derived⟩, same⟩

/-- Only names that can stand in a source are ever read. -/
theorem isName_of_ofSource {source : String} {program : Program}
    (result : ofSource source = .ok program)
    : ∀ name ∈ program.allNames, IsName name := by
  obtain ⟨tokens, lexed, derived⟩ := ofSource_eq_ok_iff.mp result
  intro name member
  rw [← derived.namesIn_eq] at member
  obtain ⟨token, found, named⟩ := mem_namesIn member
  have proper := lexed.proper token found
  rwa [named] at proper

/-- Writing and reading back keeps a program, places apart, just when every name in it can
stand in a source; then both have one written form, and reading it gives the program read.
-/
theorem ofSource_text_round_trip (program : Program)
    : ((∃ read, ofSource program.text = .ok read ∧ read.erase = program.erase)
        ↔ ∀ name ∈ program.allNames, IsName name)
      ∧ ∀ read, ofSource program.text = .ok read → read.erase = program.erase
        → read.text = program.text ∧ ofSource read.text = .ok read := by
  refine ⟨⟨?_, exists_ofSource_text program⟩, ?_⟩
  · intro found
    obtain ⟨read, result, same⟩ := found
    rw [← allNames_erase, ← same, allNames_erase]
    exact isName_of_ofSource result
  · intro read result same
    have text : read.text = program.text := by rw [← text_erase, same, text_erase]
    exact ⟨text, text.symm ▸ result⟩

/-- Sends a private name, or passes a received one on to itself. -/
def relay : Program :=
  ⟨[⟨"Relay", ["x", "y"],
    .choice (.restrict "z" (.send "x" "z" (.inert .start) .start) .start)
      (.compare "x" "y" (.silent (.receive "y" "w" (.call "Relay" ["w", "y"] .start) .start)
        .start) .start) .start,
    .start⟩]⟩

theorem relay_round_trip
    : (∀ name ∈ relay.allNames, IsName name)
      ∧ ∃ read, ofSource relay.text = .ok read ∧ read.erase = relay.erase
          ∧ read.text = relay.text ∧ ofSource read.text = .ok read := by
  have valid : ∀ name ∈ relay.allNames, IsName name := by decide +kernel
  obtain ⟨read, result, same⟩ := (ofSource_text_round_trip relay).1.mpr valid
  exact ⟨valid, read, result, same, (ofSource_text_round_trip relay).2 read result same⟩

end Program

end PiCalculus
