import PiCalculus.Agent

/-! The written form of agents and programs. Both binary operators are written in
parentheses, so no written form depends on precedence.
-/

namespace PiCalculus

/-- Names as written in a list of parameters or arguments. -/
def nameList (names : List String) : String := ", ".intercalate names

/-- Names in parentheses, or nothing at all if there are none. -/
def nameTuple : List String → String
  | [] => ""
  | names => "(" ++ nameList names ++ ")"

def Agent.text : Agent → String
  | inert _ => "0"
  | silent next _ => "tau . " ++ next.text
  | receive subject object next _ => subject ++ "(" ++ object ++ ") . " ++ next.text
  | send subject object next _ => subject ++ "'" ++ object ++ " . " ++ next.text
  | compare left right next _ => "[" ++ left ++ " = " ++ right ++ "] " ++ next.text
  | restrict name next _ => "(^" ++ name ++ ") " ++ next.text
  | choice left right _ => "(" ++ left.text ++ " + " ++ right.text ++ ")"
  | parallel left right _ => "(" ++ left.text ++ " | " ++ right.text ++ ")"
  | call name arguments _ => name ++ nameTuple arguments

def Declaration.text (declaration : Declaration) : String :=
  "agent " ++ declaration.name ++ nameTuple declaration.parameters ++ " = "
    ++ declaration.body.text ++ ";"

/-- One declaration a line, each line ended. -/
def Program.text (program : Program) : String :=
  String.join (program.declarations.map fun declaration => declaration.text ++ "\n")

end PiCalculus
