import PiCalculus.Location

/-! The words and symbols of the agent notation, each with the place of its first
character. A lexeme without its place is what the grammar looks at.
-/

namespace PiCalculus

/-- A word or symbol of the notation; names and numbers carry their text. -/
inductive Lexeme where
  | name (text : String)
  | number (text : String)
  | agent
  | tau
  | semicolon
  | openParen
  | closeParen
  | openBracket
  | closeBracket
  | less
  | greater
  | comma
  | apostrophe
  | equals
  | dot
  | plus
  | pipe
  | caret
  | tilde
deriving DecidableEq, Repr, Inhabited

namespace Lexeme

/-- The text that stands for the lexeme in a source. -/
def spelling : Lexeme → String
  | name text => text
  | number text => text
  | agent => "agent"
  | tau => "tau"
  | semicolon => ";"
  | openParen => "("
  | closeParen => ")"
  | openBracket => "["
  | closeBracket => "]"
  | less => "<"
  | greater => ">"
  | comma => ","
  | apostrophe => "'"
  | equals => "="
  | dot => "."
  | plus => "+"
  | pipe => "|"
  | caret => "^"
  | tilde => "~"

/-- How a message names the lexeme: its quoted spelling, after the class of a name or number. -/
def describe (lexeme : Lexeme) : String :=
  match lexeme with
  | name text => "identifier `" ++ text ++ "`"
  | number text => "number `" ++ text ++ "`"
  | keyword => "`" ++ keyword.spelling ++ "`"

/-- The symbol that a single character stands for. -/
def ofSymbol? : Char → Option Lexeme
  | ';' => some semicolon
  | '(' => some openParen
  | ')' => some closeParen
  | '[' => some openBracket
  | ']' => some closeBracket
  | '<' => some less
  | '>' => some greater
  | ',' => some comma
  | '\'' => some apostrophe
  | '=' => some equals
  | '.' => some dot
  | '+' => some plus
  | '|' => some pipe
  | '^' => some caret
  | '~' => some tilde
  | _ => none

/-- The lexeme of a whole word: a keyword on exact match, otherwise a name. -/
def ofWord (text : String) : Lexeme :=
  if text = "agent" then agent else if text = "tau" then tau else name text

end Lexeme

/-- A lexeme and the place where it starts. -/
structure Token where
  lexeme : Lexeme
  loc : Location
deriving DecidableEq, Repr, Inhabited

end PiCalculus
