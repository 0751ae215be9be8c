import PiCalculus.Emission

/-! Scripts of operations on the names of an emission, with a log of what each one gives. A
script can undo bindings in any order, so it shows what undoing does out of turn.
-/

namespace PiCalculus

namespace Emission

/-- An operation on the names of an emission. -/
inductive Action where
  | bind (name : String)
  /-- Undoes, under `name`, the binding made by an earlier `bind`, counted from zero. -/
  | unbind (name : String) (index : Nat)
  | resolve (name : String)
  | useName (name : String) (loc : Location)
  | useAgent (name : String) (loc : Location)
  | report (diagnostic : Diagnostic)
deriving DecidableEq, Repr, Inhabited

/-- A sequence of operations, some of them inside the scope of a name. -/
inductive Script where
  | done
  | act (action : Action) (rest : Script)
  | within (name : String) (body rest : Script)
deriving DecidableEq, Repr, Inhabited

/-- What an entry of the log is about. -/
inductive Event where
  | acted (action : Action)
  /-- The scope of a name was entered. -/
  | entered
  /-- The scope of a name was left. -/
  | left
deriving DecidableEq, Repr, Inhabited

/-- An event, the id it gave, if any, and the state right after it. -/
structure LogEntry where
  event : Event
  result : Option Nat
  next : Nat
  faulty : Bool
deriving DecidableEq, Repr, Inhabited

/-- A script on its way: the emission it works on, the bindings made, and the log. -/
structure Session where
  emission : Emission
  bindings : Array Binding
  log : Array LogEntry

namespace Session

def start (layout : Layout) : Session := ⟨.blank layout, #[], #[]⟩

def record (session : Session) (event : Event) (result : Option Nat) : Session :=
  let entry :=
    {
      event
      result
      next := session.emission.scope.next
      faulty := !session.emission.diagnostics.isEmpty
    }
  { session with log := session.log.push entry }

/-- Does one operation; there is nothing to do for a binding that was never made. -/
def act (session : Session) (action : Action) : Option Session :=
  let emission := session.emission
  match action with
  | .bind name =>
      let binding := emission.scope.binding name
      let bindings := session.bindings.push binding
      some (({ session with emission := emission.bind name, bindings }).record
        (.acted action) (some binding.id))
  | .unbind name index =>
      session.bindings[index]?.map fun binding =>
        ({ session with emission := emission.unbind name binding }).record (.acted action) none
  | .resolve name => some (session.record (.acted action) (emission.scope.resolve? name))
  | .useName name loc =>
      let (result, emission) := emission.useName name loc
      some (({ session with emission }).record (.acted action) result)
  | .useAgent name loc =>
      let (result, emission) := emission.useAgent name loc
      some (({ session with emission }).record (.acted action) result)
  | .report diagnostic =>
      some (({ session with emission := emission.report diagnostic }).record (.acted action) none)

end Session

/-- Runs a script, unless it undoes a binding that was never made. -/
def Script.run : Script → Session → Option Session
  | done, session => some session
  | act action rest, session => (session.act action).bind rest.run
  | within name body rest, session =>
      let binding := session.emission.scope.binding name
      let entered := { session with emission := session.emission.bind name }
      (body.run (entered.record .entered (some binding.id))).bind fun session =>
        let left := { session with emission := session.emission.unbind name binding }
        rest.run (left.record .left none)

end Emission

end PiCalculus
