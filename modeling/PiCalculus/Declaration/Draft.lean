import PiCalculus.Agent.Draft

/-! Reading a declaration one token at a time: the keyword, a name, optional parameters, and
an agent between `=` and `;`. A parameter list may be empty and may end in a comma.
-/

namespace PiCalculus

namespace Declaration

/-- A declaration read in part; `loc` is the place of its first token. -/
inductive Draft where
  /-- Nothing is read. -/
  | blank
  /-- After the keyword. -/
  | keyword (loc : Location)
  /-- After the name. -/
  | named (name : String) (loc : Location)
  /-- After `(` or after a `,` between parameters. -/
  | nextParameter (name : String) (parameters : List String) (loc : Location)
  /-- After a parameter. -/
  | parameter (name : String) (parameters : List String) (loc : Location)
  /-- After the `)` of the parameter list. -/
  | headed (name : String) (parameters : List String) (loc : Location)
  /-- After `=`. -/
  | body (name : String) (parameters : List String) (loc : Location) (draft : Agent.Draft)
deriving DecidableEq, Repr, Inhabited

/-- What a token does to a draft. -/
inductive Advance where
  /-- The token belongs to the declaration. -/
  | more (draft : Draft)
  /-- The token ends the declaration. -/
  | done (declaration : Declaration)
  /-- The token cannot stand here. -/
  | fault (diagnostic : Diagnostic)
deriving DecidableEq, Repr, Inhabited

/-- The fault of finding `token` where something else is wanted. -/
def Advance.unexpected (wanted : Expectation) (token : Token) : Advance :=
  .fault ⟨.unexpected wanted token.lexeme, token.loc⟩

namespace Draft

/-- Reads the `=` between the head of a declaration and its body. -/
def startBody (name : String) (parameters : List String) (loc : Location) (token : Token)
    : Advance :=
  if token.lexeme = .equals then .more (.body name parameters loc .blank)
  else .unexpected .definition token

/-- Reads one token of a declaration. -/
def feed (draft : Draft) (token : Token) : Advance :=
  match draft with
  | blank =>
      if token.lexeme = .agent then .more (.keyword token.loc)
      else .unexpected .declaration token
  | keyword loc =>
      match token.lexeme with
      | .name text => .more (.named text loc)
      | _ => .unexpected .identifier token
  | named name loc =>
      if token.lexeme = .openParen then .more (.nextParameter name [] loc)
      else startBody name [] loc token
  | nextParameter name parameters loc =>
      match token.lexeme with
      | .name text => .more (.parameter name (parameters ++ [text]) loc)
      | .closeParen => .more (.headed name parameters loc)
      | _ => .unexpected .endOfParameters token
  | parameter name parameters loc =>
      match token.lexeme with
      | .comma => .more (.nextParameter name parameters loc)
      | .closeParen => .more (.headed name parameters loc)
      | _ => .unexpected .endOfParameters token
  | headed name parameters loc => startBody name parameters loc token
  | body name parameters loc draft =>
      match draft.feed token with
      | .more draft => .more (.body name parameters loc draft)
      | .fault diagnostic => .fault diagnostic
      | .ended agent =>
          if token.lexeme = .semicolon then .done ⟨name, parameters, agent, loc⟩
          else .unexpected .endOfDeclaration token

/-- What is left where `token` shows a problem: this token first of all. Only the names of an
input prefix are counted behind its dot, so that the dot is used up.
-/
def leftAt (problem : Problem) (token : Token) (tokens : List Token) : List Token :=
  if problem = .inputArity then tokens else token :: tokens

/-- Goes on reading a declaration from `tokens`, and also gives the tokens that are left. An
end too early is reported at `last`.
-/
def read (last : Location) (draft : Draft) : List Token
    → Except Diagnostic Declaration × List Token
  | [] => (.error ⟨.unexpectedEnd, last⟩, [])
  | token :: tokens =>
      match draft.feed token with
      | .more draft => draft.read last tokens
      | .done declaration => (.ok declaration, tokens)
      | .fault diagnostic => (.error diagnostic, leftAt diagnostic.problem token tokens)

end Draft

/-- The tokens behind the next `;`. -/
def afterSemicolon : List Token → List Token
  | [] => []
  | token :: tokens =>
      if token.lexeme = .semicolon then tokens else afterSemicolon tokens

/-- Reads one declaration from the front of `tokens`, and also gives the tokens that are left:
those behind it, or behind the next `;` if it is malformed.
-/
def read (last : Location) (tokens : List Token) : Except Diagnostic Declaration × List Token :=
  match Draft.blank.read last tokens with
  | (.ok declaration, rest) => (.ok declaration, rest)
  | (.error diagnostic, rest) => (.error diagnostic, afterSemicolon rest)

theorem Draft.leftAt_suffix (problem : Problem) (token : Token) (tokens : List Token)
    : leftAt problem token tokens <:+ token :: tokens := by
  unfold leftAt
  split
  · exact List.suffix_cons token tokens
  · exact List.suffix_rfl

theorem Draft.read_suffix (last : Location) (draft : Draft) (tokens : List Token)
    : (draft.read last tokens).2 <:+ tokens := by
  induction tokens generalizing draft with
  | nil => exact List.suffix_rfl
  | cons token tokens ih =>
      simp only [Draft.read]
      split
      · exact (ih _).trans (List.suffix_cons token tokens)
      · exact List.suffix_cons token tokens
      · exact leftAt_suffix _ token tokens

theorem afterSemicolon_suffix (tokens : List Token) : afterSemicolon tokens <:+ tokens := by
  induction tokens with
  | nil => exact List.suffix_rfl
  | cons token tokens ih =>
      simp only [afterSemicolon]
      split
      · exact List.suffix_cons token tokens
      · exact ih.trans (List.suffix_cons token tokens)

theorem afterSemicolon_cons_suffix (token : Token) (tokens : List Token)
    : afterSemicolon (token :: tokens) <:+ tokens := by
  simp only [afterSemicolon]
  split
  · exact List.suffix_rfl
  · exact afterSemicolon_suffix tokens

/-- A round of reading uses up at least one token, whether the declaration is well formed or
not.
-/
theorem read_cons_suffix (last : Location) (token : Token) (tokens : List Token)
    : (read last (token :: tokens)).2 <:+ tokens := by
  unfold read Draft.read
  cases Draft.blank.feed token with
  | done declaration => exact List.suffix_rfl
  | fault diagnostic =>
      simp only [Draft.leftAt]
      split
      · exact afterSemicolon_suffix tokens
      · exact afterSemicolon_cons_suffix token tokens
  | more draft =>
      have left := draft.read_suffix last tokens
      split
      next result => simpa [result] using left
      next result => exact (afterSemicolon_suffix _).trans (by simpa [result] using left)

theorem length_read_lt (last : Location) (token : Token) (tokens : List Token)
    : (read last (token :: tokens)).2.length < (token :: tokens).length :=
  Nat.lt_succ_of_le (read_cons_suffix last token tokens).length_le

end Declaration

end PiCalculus
