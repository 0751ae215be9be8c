import PiCalculus.Emission.Program

/-! Agents with their names resolved, and the text that each of them has in a layout.
Resolution threads a scope that is never undone, so it depends on the enclosing binders only.
-/

namespace PiCalculus

/-- An agent whose names are ids and whose calls are indices of declarations. -/
inductive Term where
  | inert
  | silent (next : Term)
  | receive (subject object : Nat) (next : Term)
  | send (subject object : Nat) (next : Term)
  | compare (left right : Nat) (next : Term)
  | restrict (name : Nat) (next : Term)
  | choice (left right : Term)
  | parallel (left right : Term)
  | call (index : Nat) (arguments : List Nat)
deriving DecidableEq, Repr, Inhabited

/-- The number of parameters of a declared agent, and its resolved body. -/
structure Definition where
  arity : Nat
  body : Term
deriving DecidableEq, Repr, Inhabited

/-- A resolved program: one definition for each index, and the invocation that starts it. -/
structure System where
  definitions : List Definition
  entry : Nat
  slots : List Nat
deriving DecidableEq, Repr, Inhabited

/-- What stands in front of a line at `depth`. -/
def Layout.margin (layout : Layout) (depth : Nat) : String :=
  String.join (List.replicate depth layout.indent)

@[simp]
theorem Layout.margin_zero (layout : Layout) : layout.margin 0 = "" := by
  simp [margin]

/-- A term with `ids` as its first arguments and `body` as its last one, on its own line. -/
def Layout.application (layout : Layout) (depth : Nat) (head : String) (ids : List Nat)
    (body : String)
    : String :=
  head ++ "(" ++ Emission.idList ids ++ ",\n" ++ layout.margin (depth + 1) ++ body ++ "\n"
    ++ layout.margin depth ++ ")"

/-- A term with two arguments, each on its own line. -/
def Layout.pair (layout : Layout) (depth : Nat) (head left right : String) : String :=
  head ++ "(\n" ++ layout.margin (depth + 1) ++ left ++ ",\n" ++ layout.margin (depth + 1)
    ++ right ++ "\n" ++ layout.margin depth ++ ")"

/-- The invocation of the agent with this index. -/
def invocationText (index : Nat) (ids : List Nat) : String :=
  "identifier(" ++ toString index ++ ", [" ++ Emission.idList ids ++ "])"

/-- The text of a term whose first line stands at `depth`. -/
def Term.text (layout : Layout) (depth : Nat) : Term → String
  | inert => "zero"
  | silent next => "tau_prefix(" ++ next.text layout depth ++ ")"
  | receive subject object next =>
      layout.application depth "input_prefix" [subject, object] (next.text layout (depth + 1))
  | send subject object next =>
      layout.application depth "output_prefix" [subject, object] (next.text layout (depth + 1))
  | compare left right next =>
      layout.application depth "match_proc" [left, right] (next.text layout (depth + 1))
  | restrict name next =>
      layout.application depth "restriction" [name] (next.text layout (depth + 1))
  | choice left right =>
      layout.pair depth "summation" (left.text layout (depth + 1))
        (right.text layout (depth + 1))
  | parallel left right =>
      layout.pair depth "parallel_composition" (left.text layout (depth + 1))
        (right.text layout (depth + 1))
  | call index arguments => invocationText index arguments

def Definition.text (layout : Layout) (definition : Definition) : String :=
  layout.application 0 "pi_definition" [definition.arity] (definition.body.text layout 1)

/-- The entry of a table of definitions under `index`. -/
def Definition.entryText (layout : Layout) (definition : Definition) (index : Nat) : String :=
  "[" ++ toString index ++ " -> " ++ definition.text layout ++ "]"

/-- The table without entries, which gives the inert agent for every index. -/
def blankTable : String := "(lambda id': PiIdentifier . pi_definition(0, zero))"

def definitionTable (layout : Layout) (definitions : List Definition) : String :=
  blankTable
    ++ String.join (definitions.zipIdx.map fun item => item.1.entryText layout item.2)

/-- The definitions of a program, then the invocation that starts it. -/
def System.text (layout : Layout) (system : System) : String :=
  definitionTable layout system.definitions ++ ",\n"
    ++ invocationText system.entry system.slots

-----------------------------------------------------------------------------------------
-- Resolution
-----------------------------------------------------------------------------------------

/-- The index of each agent that can be called. -/
abbrev Indices := Std.ExtTreeMap String Nat

/-- The scope with all of `names` bound, the first one first. -/
def Scope.bindAll (scope : Scope) (names : List String) : Scope := names.foldl bind scope

/-- The ids of all `names`, unless one of them has none. -/
def Scope.resolveAll? (scope : Scope) (names : List String) : Option (List Nat) :=
  names.mapM scope.resolve?

/-- One diagnostic at `loc` for each of `names` that has no id. -/
def Scope.unbound (scope : Scope) (names : List String) (loc : Location) : List Diagnostic :=
  (names.filter fun name => (scope.resolve? name).isNone).map fun name =>
    ⟨.unboundName name, loc⟩

namespace Agent

variable (agents : Indices)

/-- The term of an agent under a scope, unless it refers to an unknown name or agent. -/
def resolve? : Agent → Scope → Option Term
  | inert _, _ => some .inert
  | silent next _, scope => return .silent (← next.resolve? scope)
  | receive subject object next _, scope =>
      return .receive (← scope.resolve? subject) scope.next
        (← next.resolve? (scope.bind object))
  | send subject object next _, scope =>
      return .send (← scope.resolve? subject) (← scope.resolve? object)
        (← next.resolve? scope)
  | compare left right next _, scope =>
      return .compare (← scope.resolve? left) (← scope.resolve? right)
        (← next.resolve? scope)
  | restrict name next _, scope =>
      return .restrict scope.next (← next.resolve? (scope.bind name))
  | choice left right _, scope =>
      return .choice (← left.resolve? scope) (← right.resolve? scope)
  | parallel left right _, scope =>
      return .parallel (← left.resolve? scope) (← right.resolve? scope)
  | call name arguments _, scope =>
      return .call (← agents[name]?) (← scope.resolveAll? arguments)

/-- What is wrong with an agent under a scope. Behind a prefix or a match with an unknown
name nothing is looked at, and the arguments of an unknown agent are not looked at either.
-/
def faults : Agent → Scope → List Diagnostic
  | inert _, _ => []
  | silent next _, scope => next.faults scope
  | receive subject object next loc, scope =>
      match scope.unbound [subject] loc with
      | [] => next.faults (scope.bind object)
      | unbound => unbound
  | send subject object next loc, scope =>
      match scope.unbound [subject, object] loc with
      | [] => next.faults scope
      | unbound => unbound
  | compare left right next loc, scope =>
      match scope.unbound [left, right] loc with
      | [] => next.faults scope
      | unbound => unbound
  | restrict name next _, scope => next.faults (scope.bind name)
  | choice left right _, scope => left.faults scope ++ right.faults scope
  | parallel left right _, scope => left.faults scope ++ right.faults scope
  | call name arguments loc, scope =>
      match agents[name]? with
      | some _ => scope.unbound arguments loc
      | none => [⟨.unknownAgent name, loc⟩]

end Agent

namespace Declaration

/-- The scope of a declaration's body. -/
def scope (declaration : Declaration) : Scope := Scope.empty.bindAll declaration.parameters

def resolve? (agents : Indices) (declaration : Declaration)
    : Option Definition := do
  let body ← declaration.body.resolve? agents declaration.scope
  return ⟨declaration.parameters.length, body⟩

end Declaration

namespace Program

/-- The index of each declared agent, the last one if there are several. -/
def indices (program : Program) : Indices :=
  program.declarations.zipIdx.foldl
    (fun indices (declaration, index) => indices.insert declaration.name index) ∅

def names (program : Program) : List String := program.declarations.map (·.name)

/-- The resolved form of a program, if no name is declared twice, there is an entry point,
and every body can be resolved.
-/
def resolve? (program : Program) : Option System :=
  if program.names.Nodup then do
    let (entry, index) ← program.entry?
    let definitions ← program.declarations.mapM (·.resolve? program.indices)
    return ⟨definitions, index, List.range entry.parameters.length⟩
  else none

end Program

end PiCalculus
