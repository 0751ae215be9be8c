import PiCalculus.Location

/-! Agents of the pi-calculus with match, recursion by name and located nodes, and the
programs that declare them. Names are texts, and nothing is assumed about their shape.
-/

namespace PiCalculus

/-- An agent. Each node has a place: its first lexeme, or its operator if it has one. -/
inductive Agent where
  /-- The agent that does nothing. -/
  | inert (loc : Location)
  /-- An internal step, then `next`. -/
  | silent (next : Agent) (loc : Location)
  /-- Receives a name on `subject` and binds it as `object` in `next`. -/
  | receive (subject object : String) (next : Agent) (loc : Location)
  /-- Sends `object` on `subject`, then `next`. -/
  | send (subject object : String) (next : Agent) (loc : Location)
  /-- Goes on as `next` if both names are the same. -/
  | compare (left right : String) (next : Agent) (loc : Location)
  /-- Binds a new private `name` in `next`. -/
  | restrict (name : String) (next : Agent) (loc : Location)
  /-- Goes on as one of the two. -/
  | choice (left right : Agent) (loc : Location)
  /-- Runs both. -/
  | parallel (left right : Agent) (loc : Location)
  /-- Runs the agent declared as `name`. -/
  | call (name : String) (arguments : List String) (loc : Location)
deriving DecidableEq, Repr, Inhabited

/-- The place of an agent's outermost node. -/
def Agent.loc : Agent → Location
  | inert loc
  | silent _ loc
  | receive _ _ _ loc
  | send _ _ _ loc
  | compare _ _ _ loc
  | restrict _ _ loc
  | choice _ _ loc
  | parallel _ _ loc
  | call _ _ loc => loc

/-- The definition of an agent name; the parameters are bound in the body. -/
structure Declaration where
  name : String
  parameters : List String
  body : Agent
  loc : Location
deriving DecidableEq, Repr, Inhabited

/-- The declarations of a source, in their order. -/
structure Program where
  declarations : List Declaration
deriving DecidableEq, Repr, Inhabited

/-- The name of the agent that a program starts with. -/
def Program.entryPoint : String := "Main"

end PiCalculus
