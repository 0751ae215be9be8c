import PiCalculus.Agent
import PiCalculus.Diagnostic

/-! Reading an agent one token at a time. A draft keeps what is still to be combined: a stack
of operator chains, one for each open parenthesis, and the point reached inside an operand.

An operand is `0`, a call, a parenthesised agent, or an operand behind a guard; `|` joins
operands, `+` joins what `|` has joined, and both group to the left.
-/

namespace PiCalculus

namespace Agent

/-- What is written in front of an operand and applies to it alone. -/
inductive Guard where
  | silent (loc : Location)
  | receive (subject object : String) (loc : Location)
  | send (subject object : String) (loc : Location)
  | compare (left right : String) (loc : Location)
  | restrict (name : String) (loc : Location)
deriving DecidableEq, Repr, Inhabited

def Guard.apply : Guard → Agent → Agent
  | silent loc, next => .silent next loc
  | receive subject object loc, next => .receive subject object next loc
  | send subject object loc, next => .send subject object next loc
  | compare left right loc, next => .compare left right next loc
  | restrict name loc, next => .restrict name next loc

/-- An operator chain up to its next operand: the agents on the left of a `+` and of a
`|`, each with the operator's place, and the operand's guards, the innermost first.
-/
structure Chain where
  summand : Option (Agent × Location)
  factor : Option (Agent × Location)
  guards : List Guard
deriving DecidableEq, Repr, Inhabited

namespace Chain

def empty : Chain := ⟨none, none, []⟩

def guarded (chain : Chain) (guard : Guard) : Chain :=
  { chain with guards := guard :: chain.guards }

/-- The operand behind the guards of the chain. -/
def wrap (chain : Chain) (operand : Agent) : Agent :=
  chain.guards.foldl (fun next guard => guard.apply next) operand

/-- The operand joined to what stands on the left of its `|`. -/
def product (chain : Chain) (operand : Agent) : Agent :=
  match chain.factor with
  | some (left, loc) => .parallel left operand loc
  | none => operand

/-- The operand joined to all that stands on its left. -/
def total (chain : Chain) (operand : Agent) : Agent :=
  match chain.summand with
  | some (left, loc) => .choice left (chain.product operand) loc
  | none => chain.product operand

/-- The chain after an operand and a `|` at `loc`. -/
def alongside (chain : Chain) (operand : Agent) (loc : Location) : Chain :=
  ⟨chain.summand, some (chain.product operand, loc), []⟩

/-- The chain after an operand and a `+` at `loc`. -/
def otherwise (chain : Chain) (operand : Agent) (loc : Location) : Chain :=
  ⟨some (chain.total operand, loc), none, []⟩

end Chain

/-- The point reached inside an operand; `loc` is the place where its current part starts. -/
inductive Point where
  /-- An operand has to start. -/
  | start
  /-- An operand has ended, guards included. -/
  | operand (agent : Agent)
  /-- After `tau`. -/
  | tau (loc : Location)
  /-- After a name that starts an operand. -/
  | name (subject : String) (loc : Location)
  /-- After a name and `(`. -/
  | firstArgument (subject : String) (loc : Location)
  /-- After a `,` between arguments. -/
  | nextArgument (subject : String) (arguments : List String) (loc : Location)
  /-- After an argument. -/
  | argument (subject : String) (arguments : List String) (loc : Location)
  /-- After the `)` behind one argument or more. -/
  | arguments (subject : String) (arguments : List String) (loc : Location)
  /-- After a name and an apostrophe. -/
  | output (subject : String) (loc : Location)
  /-- After the name that an output sends. -/
  | outputObject (subject object : String) (loc : Location)
  /-- After `[`. -/
  | bracket (loc : Location)
  /-- After the first name of a match. -/
  | matchLeft (left : String) (loc : Location)
  /-- After the `=` of a match. -/
  | matchEquals (left : String) (loc : Location)
  /-- After the second name of a match. -/
  | matchRight (left right : String) (loc : Location)
  /-- After `(` where an operand starts. -/
  | paren (loc : Location)
  /-- After `(^`. -/
  | caret (loc : Location)
  /-- After the name of a restriction. -/
  | restricted (name : String) (loc : Location)
deriving DecidableEq, Repr, Inhabited

/-- An agent read in part. The chains in `outer` wait for their parentheses to be closed. -/
structure Draft where
  outer : List Chain
  chain : Chain
  point : Point
deriving DecidableEq, Repr, Inhabited

/-- What a token does to a draft. -/
inductive Advance where
  /-- The token belongs to the agent. -/
  | more (draft : Draft)
  /-- The agent ended before the token. -/
  | ended (agent : Agent)
  /-- The token cannot stand here. -/
  | fault (diagnostic : Diagnostic)
deriving DecidableEq, Repr, Inhabited

/-- The fault of finding `token` where something else is wanted. -/
def Advance.unexpected (wanted : Expectation) (token : Token) : Advance :=
  .fault ⟨.unexpected wanted token.lexeme, token.loc⟩

namespace Draft

/-- The draft before an agent's first token. -/
def blank : Draft := ⟨[], .empty, .start⟩

/-- The draft with a guard read, in front of an operand. -/
def guarded (draft : Draft) (guard : Guard) : Draft :=
  { draft with chain := draft.chain.guarded guard, point := .start }

/-- The draft with an operand read, without its guards. -/
def completed (draft : Draft) (operand : Agent) : Draft :=
  { draft with point := .operand (draft.chain.wrap operand) }

/-- The draft at another point of the same operand. -/
def moved (draft : Draft) (point : Point) : Advance := .more { draft with point }

/-- Reads the first token of an operand. -/
def startOperand (draft : Draft) (token : Token) : Advance :=
  match token.lexeme with
  | .tau => draft.moved (.tau token.loc)
  | .name text => draft.moved (.name text token.loc)
  | .openBracket => draft.moved (.bracket token.loc)
  | .openParen => draft.moved (.paren token.loc)
  | .number text =>
      if text = "0" then .more (draft.completed (.inert token.loc))
      else .fault ⟨.nonzeroAgent, token.loc⟩
  | _ => .unexpected .agent token

/-- Reads the token after an operand: an operator, or the end of the innermost chain. -/
def endOperand (draft : Draft) (operand : Agent) (token : Token) : Advance :=
  match token.lexeme with
  | .pipe => .more ⟨draft.outer, draft.chain.alongside operand token.loc, .start⟩
  | .plus => .more ⟨draft.outer, draft.chain.otherwise operand token.loc, .start⟩
  | lexeme =>
      match draft.outer with
      | [] => .ended (draft.chain.total operand)
      | chain :: outer =>
          if lexeme = .closeParen then
            .more ⟨outer, chain, .operand (chain.wrap (draft.chain.total operand))⟩
          else .unexpected .endOfGroup token

/-- Reads a token after a call's name, or after its arguments, that is no part of the call. -/
def endCall (draft : Draft) (name : String) (arguments : List String) (loc : Location)
    (token : Token) : Advance :=
  draft.endOperand (draft.chain.wrap (.call name arguments loc)) token

/-- Reads a name and goes on from the point that it leads to. -/
def takeName (draft : Draft) (token : Token) (point : String → Point) : Advance :=
  match token.lexeme with
  | .name text => draft.moved (point text)
  | _ => .unexpected .identifier token

/-- Reads one token of an agent. -/
def feed (draft : Draft) (token : Token) : Advance :=
  match draft.point with
  | .start => draft.startOperand token
  | .operand operand => draft.endOperand operand token
  | .tau loc =>
      if token.lexeme = .dot then .more (draft.guarded (.silent loc))
      else .unexpected .silentDot token
  | .name subject loc =>
      match token.lexeme with
      | .openParen => draft.moved (.firstArgument subject loc)
      | .apostrophe => draft.moved (.output subject loc)
      | _ => draft.endCall subject [] loc token
  | .firstArgument subject loc =>
      match token.lexeme with
      | .name text => draft.moved (.argument subject [text] loc)
      | .closeParen => .more (draft.completed (.call subject [] loc))
      | _ => .unexpected .endOfCall token
  | .nextArgument subject arguments loc =>
      match token.lexeme with
      | .name text => draft.moved (.argument subject (arguments ++ [text]) loc)
      | .closeParen => draft.moved (.arguments subject arguments loc)
      | _ => .unexpected .endOfCall token
  | .argument subject arguments loc =>
      match token.lexeme with
      | .comma => draft.moved (.nextArgument subject arguments loc)
      | .closeParen => draft.moved (.arguments subject arguments loc)
      | _ => .unexpected .endOfCall token
  | .arguments subject arguments loc =>
      if token.lexeme = .dot then
        match arguments with
        | [object] => .more (draft.guarded (.receive subject object loc))
        | _ => .fault ⟨.inputArity, loc⟩
      else draft.endCall subject arguments loc token
  | .output subject loc => draft.takeName token (.outputObject subject · loc)
  | .outputObject subject object loc =>
      if token.lexeme = .dot then .more (draft.guarded (.send subject object loc))
      else .unexpected .outputDot token
  | .bracket loc => draft.takeName token (.matchLeft · loc)
  | .matchLeft left loc =>
      if token.lexeme = .equals then draft.moved (.matchEquals left loc)
      else .unexpected .matchEquals token
  | .matchEquals left loc => draft.takeName token (.matchRight left · loc)
  | .matchRight left right loc =>
      if token.lexeme = .closeBracket then .more (draft.guarded (.compare left right loc))
      else .unexpected .endOfMatch token
  | .paren loc =>
      if token.lexeme = .caret then draft.moved (.caret loc)
      else startOperand ⟨draft.chain :: draft.outer, .empty, .start⟩ token
  | .caret loc => draft.takeName token (.restricted · loc)
  | .restricted name loc =>
      if token.lexeme = .closeParen then .more (draft.guarded (.restrict name loc))
      else .unexpected .endOfRestriction token

end Draft

end Agent

end PiCalculus
