import PiCalculus.Token

/-! What can be wrong with a source, and where. A stage that fails reports at least one
diagnostic, in the order in which they were found.
-/

namespace PiCalculus

/-- The two families of diagnostics: malformed text, and names without a meaning. -/
inductive Kind where
  | malformed
  | naming
deriving DecidableEq, Repr, Inhabited

/-- What the reader of a declaration was looking for when another lexeme came. -/
inductive Expectation where
  | declaration
  | identifier
  | endOfParameters
  | definition
  | endOfDeclaration
  | agent
  | silentDot
  | outputDot
  | matchEquals
  | endOfMatch
  | endOfRestriction
  | endOfGroup
  | endOfCall
deriving DecidableEq, Repr, Inhabited

/-- The wording of an expectation inside a message. -/
def Expectation.describe : Expectation → String
  | declaration => "`agent` keyword to start process declaration"
  | identifier => "an identifier"
  | endOfParameters => "a closing parenthesis at the end of parameter list"
  | definition => "an `=` after process name and parameter list"
  | endOfDeclaration => "a `;` at the end of process declaration"
  | agent => "a process"
  | silentDot => "`.` in tau prefix"
  | outputDot => "`.` in an output prefix"
  | matchEquals => "an = sign in match clause"
  | endOfMatch => "a ] at the end of the match clause"
  | endOfRestriction => "`)` symbol in a restriction process"
  | endOfGroup => "closing `)`"
  | endOfCall => "`)` as closing delimiter for recursive call"

/-- The cause of a diagnostic. -/
inductive Problem where
  /-- A character that belongs to no lexeme. -/
  | unknownCharacter
  /-- A letter or underscore in a run that starts with a digit. -/
  | letterInNumber
  /-- A lexeme that cannot follow what was read before it. -/
  | unexpected (wanted : Expectation) (found : Lexeme)
  /-- The tokens ended inside a declaration. -/
  | unexpectedEnd
  /-- A number other than `0` where an agent starts. -/
  | nonzeroAgent
  /-- An input prefix that receives no name, or several. -/
  | inputArity
  /-- A name that no enclosing binder introduces. -/
  | unboundName (name : String)
  /-- A call of an agent that is not declared. -/
  | unknownAgent (name : String)
  /-- A second declaration of one name. -/
  | duplicateAgent
  /-- No declaration is the entry point. -/
  | noEntryPoint
  /-- A remark in free wording. -/
  | remark (kind : Kind) (text : String)
deriving DecidableEq, Repr, Inhabited

namespace Problem

def kind : Problem → Kind
  | unknownCharacter | letterInNumber | unexpected .. | unexpectedEnd | nonzeroAgent
  | inputArity => .malformed
  | unboundName _ | unknownAgent _ | duplicateAgent | noEntryPoint => .naming
  | remark kind _ => kind

def message : Problem → String
  | unknownCharacter => "unknown character"
  | letterInNumber => "unexpected word characters in the middle of a number"
  | unexpected wanted found => "Expected " ++ wanted.describe ++ ", found " ++ found.describe
  | unexpectedEnd => "Reached unexpected end of file"
  | nonzeroAgent => "The only number that can be used as a process is 0"
  | inputArity => "an input prefix must have only one object"
  | unboundName name => "Unbound name `" ++ name ++ "`"
  | unknownAgent name => "Unknown recursion variable `" ++ name ++ "`"
  | duplicateAgent => "Duplicate process variable name"
  | noEntryPoint => "No starting process found; it should be called `Main`"
  | remark _ text => text

end Problem

/-- A problem and the place it is reported at. -/
structure Diagnostic where
  problem : Problem
  loc : Location
deriving DecidableEq, Repr, Inhabited

namespace Diagnostic

def kind (diagnostic : Diagnostic) : Kind := diagnostic.problem.kind

def message (diagnostic : Diagnostic) : String := diagnostic.problem.message

/-- One diagnostic as printed: its place, a colon and its message. -/
def display (diagnostic : Diagnostic) : String :=
  diagnostic.loc.display ++ ": " ++ diagnostic.message

end Diagnostic

/-- The diagnostics of a failed stage; there is always a first one. -/
structure Report where
  first : Diagnostic
  others : List Diagnostic
deriving DecidableEq, Repr, Inhabited

namespace Report

def toList (report : Report) : List Diagnostic := report.first :: report.others

/-- The report of a list of diagnostics, unless there is nothing to report. -/
def ofList? : List Diagnostic → Option Report
  | [] => none
  | first :: others => some ⟨first, others⟩

def ofDiagnostic (diagnostic : Diagnostic) : Report := ⟨diagnostic, []⟩

def size (report : Report) : Nat := report.toList.length

/-- The kind of the first diagnostic. -/
def kind (report : Report) : Kind := report.first.kind

/-- Some diagnostic has exactly this message. -/
def mentions (report : Report) (message : String) : Bool :=
  report.toList.any (·.message == message)

/-- The diagnostics as printed, one below the other, without a final line break. -/
def display (report : Report) : String :=
  "\n".intercalate (report.toList.map (·.display))

@[simp]
theorem ofList?_toList (report : Report) : ofList? report.toList = some report := rfl

@[simp]
theorem ofList?_eq_none_iff {diagnostics : List Diagnostic}
    : ofList? diagnostics = none ↔ diagnostics = [] := by
  cases diagnostics <;> simp [ofList?]

@[simp]
theorem ofList?_eq_some_iff {diagnostics : List Diagnostic} {report : Report}
    : ofList? diagnostics = some report ↔ diagnostics = report.toList := by
  cases diagnostics <;> cases report <;> simp [ofList?, toList]

@[simp]
theorem toList_ne_nil (report : Report) : report.toList ≠ [] := by
  simp [toList]

end Report

/-- The value of a finished stage, or its report if anything was found wrong. -/
def settle {α : Type} (diagnostics : List Diagnostic) (value : α) : Except Report α :=
  match Report.ofList? diagnostics with
  | some report => .error report
  | none => .ok value

@[simp]
theorem settle_eq_ok_iff {α : Type} {diagnostics : List Diagnostic} {value result : α}
    : settle diagnostics value = .ok result ↔ diagnostics = [] ∧ value = result := by
  cases diagnostics <;> simp [settle, Report.ofList?]

@[simp]
theorem settle_eq_error_iff {α : Type} {diagnostics : List Diagnostic} {value : α}
    {report : Report}
    : settle diagnostics value = .error report ↔ diagnostics = report.toList := by
  cases diagnostics <;> cases report <;> simp [settle, Report.ofList?, Report.toList]

end PiCalculus
