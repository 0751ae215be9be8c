import PiCalculus.Agent
import PiCalculus.Emission

/-! The mCRL2 term of a program. Names are written as the ids they are bound to and agents
as the indices of their declarations; a node that refers to an unknown name is not written.
-/

namespace PiCalculus

/-- Writes the term of an agent. What a node refers to is looked up before it is written. -/
def Agent.emit : Agent → Emission → Emission
  | inert _, emission => emission.write "zero"
  | silent next _, emission => (next.emit (emission.write "tau_prefix(")).write ")"
  | receive subject object next loc, emission =>
      match emission.useName subject loc with
      | (some subject, emission) =>
          emission.within object fun object =>
            Emission.application "input_prefix" [subject, object] next.emit
      | (none, emission) => emission
  | send subject object next loc, emission =>
      match emission.useNames [subject, object] loc with
      | ([subject, object], emission) =>
          emission.application "output_prefix" [subject, object] next.emit
      | (_, emission) => emission
  | compare left right next loc, emission =>
      match emission.useNames [left, right] loc with
      | ([left, right], emission) =>
          emission.application "match_proc" [left, right] next.emit
      | (_, emission) => emission
  | restrict name next _, emission =>
      emission.within name fun name => Emission.application "restriction" [name] next.emit
  | choice left right _, emission => emission.pair "summation" left.emit right.emit
  | parallel left right _, emission =>
      emission.pair "parallel_composition" left.emit right.emit
  | call name arguments loc, emission =>
      match emission.useAgent name loc with
      | (some index, emission) =>
          let (ids, emission) := emission.useNames arguments loc
          emission.invocation index ids
      | (none, emission) => emission

/-- Writes the definition of a declared agent: the number of its parameters and its body. -/
def Declaration.emit (declaration : Declaration) : Emission → Emission :=
  Emission.withinAll declaration.parameters
    (Emission.application "pi_definition" [declaration.parameters.length] declaration.body.emit)

namespace Program

/-- The declaration that a program starts with, and its index: the last one of that name. -/
def entry? (program : Program) : Option (Declaration × Nat) :=
  program.declarations.zipIdx.findRev? (·.1.name == entryPoint)

/-- Gives each declared agent its index. A name declared before is reported. -/
def declareAll (program : Program) (emission : Emission) : Emission :=
  program.declarations.zipIdx.foldl
    (fun emission (declaration, index) =>
      let emission :=
        if emission.agents.contains declaration.name then
          emission.report ⟨.duplicateAgent, declaration.loc⟩
        else emission
      emission.declare declaration.name index)
    emission

/-- Writes the table of definitions, which maps each index to its definition. -/
def emitDefinitions (program : Program) (emission : Emission) : Emission :=
  program.declarations.zipIdx.foldl
    (fun emission (declaration, index) =>
      (declaration.emit (emission.write ("[" ++ toString index ++ " -> "))).write "]")
    (emission.write "(lambda id': PiIdentifier . pi_definition(0, zero))")

/-- Writes the definitions of a program and the invocation that starts it. Nothing is written
if a name is declared twice or the entry point is missing.
-/
def emit (program : Program) (emission : Emission) : Emission :=
  let emission := program.declareAll emission
  match program.entry? with
  | none => emission.report ⟨.noEntryPoint, .start⟩
  | some (entry, index) =>
      if emission.diagnostics.isEmpty then
        ((program.emitDefinitions emission).write ",\n").margin.invocation index
          (List.range entry.parameters.length)
      else emission

/-- The mCRL2 term of a program, or everything in it that has no meaning. -/
def convert (program : Program) (layout : Layout) : Except Report String :=
  (program.emit (.blank layout)).result

end Program

end PiCalculus
