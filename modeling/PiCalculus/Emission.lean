import PiCalculus.Diagnostic
import PiCalculus.Scope

/-! The text of a term while it is being written, together with the names in scope, the
declared agents, and everything found wrong so far.
-/

namespace PiCalculus

/-- How a term is laid out: `indent` stands in front of a line once for each nesting level. -/
structure Layout where
  indent : String
deriving DecidableEq, Repr, Inhabited

namespace Layout

/-- Four spaces for each level. -/
def standard : Layout := ⟨"    "⟩

def ofWidth (width : Nat) : Layout := ⟨"".pushn ' ' width⟩

end Layout

/-- A term written in part: its text, the depth of the current line, the names and agents
that can be referred to, and the diagnostics recorded on the way.
-/
structure Emission where
  layout : Layout
  depth : Nat
  text : String
  diagnostics : Array Diagnostic
  scope : Scope
  agents : Std.ExtTreeMap String Nat

namespace Emission

def blank (layout : Layout) : Emission := ⟨layout, 0, "", #[], .empty, ∅⟩

/-- The finished text, or everything found wrong. -/
def result (emission : Emission) : Except Report String :=
  settle emission.diagnostics.toList emission.text

/-! ### Names and agents -/

def report (emission : Emission) (diagnostic : Diagnostic) : Emission :=
  { emission with diagnostics := emission.diagnostics.push diagnostic }

def bind (emission : Emission) (name : String) : Emission :=
  { emission with scope := emission.scope.bind name }

def unbind (emission : Emission) (name : String) (binding : Binding) : Emission :=
  { emission with scope := emission.scope.unbind name binding }

/-- What `body` does with `name` bound to a new id; the binding is undone afterwards. -/
def within (name : String) (body : Nat → Emission → Emission) (emission : Emission)
    : Emission :=
  let binding := emission.scope.binding name
  (body binding.id (emission.bind name)).unbind name binding

/-- What `body` does with all of `names` bound, the first one first. -/
def withinAll (names : List String) (body : Emission → Emission) : Emission → Emission :=
  names.foldr (fun name inner => within name fun _ => inner) body

/-- The id of `name`; a name without one is reported. -/
def useName (emission : Emission) (name : String) (loc : Location)
    : Option Nat × Emission :=
  match emission.scope.resolve? name with
  | some id => (some id, emission)
  | none => (none, emission.report ⟨.unboundName name, loc⟩)

/-- The ids of those `names` that have one; the others are reported, each in its turn. -/
def useNames (emission : Emission) (names : List String) (loc : Location)
    : List Nat × Emission :=
  match names with
  | [] => ([], emission)
  | name :: names =>
      let (id?, emission) := emission.useName name loc
      let (ids, emission) := emission.useNames names loc
      (id?.toList ++ ids, emission)

/-- The index of the agent `name`; an agent that is not declared is reported. -/
def useAgent (emission : Emission) (name : String) (loc : Location)
    : Option Nat × Emission :=
  match emission.agents[name]? with
  | some index => (some index, emission)
  | none => (none, emission.report ⟨.unknownAgent name, loc⟩)

/-- Gives the agent `name` an index, in place of one it may have had. -/
def declare (emission : Emission) (name : String) (index : Nat) : Emission :=
  { emission with agents := emission.agents.insert name index }

/-! ### Text -/

def write (emission : Emission) (text : String) : Emission :=
  { emission with text := emission.text ++ text }

/-- Writes what stands in front of the current line. -/
def margin (emission : Emission) : Emission :=
  emission.write (String.join (List.replicate emission.depth emission.layout.indent))

def deeper (emission : Emission) : Emission := { emission with depth := emission.depth + 1 }

def shallower (emission : Emission) : Emission := { emission with depth := emission.depth - 1 }

/-- Ids as written in a list. -/
def idList (ids : List Nat) : String := ", ".intercalate (ids.map toString)

/-- Writes what `body` writes on a line of its own, one level deeper, and opens the line that
follows it.
-/
def nested (body : Emission → Emission) (emission : Emission) : Emission :=
  ((body emission.deeper.margin).shallower.write "\n").margin

/-- Writes a term whose first arguments are ids and whose last one is what `body` writes. -/
def application (head : String) (ids : List Nat) (body : Emission → Emission)
    (emission : Emission) : Emission :=
  (nested body (emission.write (head ++ "(" ++ idList ids ++ ",\n"))).write ")"

/-- Writes a term with two arguments, each on a line of its own, one level deeper. -/
def pair (head : String) (left right : Emission → Emission) (emission : Emission)
    : Emission :=
  let emission := left (emission.write (head ++ "(\n")).deeper.margin
  let emission := right (emission.write ",\n").margin
  (emission.write "\n").shallower.margin.write ")"

/-- Writes the invocation of the agent with this index. -/
def invocation (index : Nat) (ids : List Nat) (emission : Emission) : Emission :=
  emission.write ("identifier(" ++ toString index ++ ", [" ++ idList ids ++ "])")

end Emission

end PiCalculus
