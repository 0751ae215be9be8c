/-! Complete mCRL2 specifications: a fixed header that defines the interpreter of agents,
and the generated term as the argument that the interpreter is started with.
-/

namespace PiCalculus

/-- The specification text in front of a generated term. -/
structure Template where
  header : String
deriving DecidableEq, Repr, Inhabited

namespace Template

/-- Where the header is looked for if no other place is named. -/
def defaultPath : String := "mcrl2/picalc.mcrl2"

/-- What opens the generated part of a specification. -/
def prologue : String := "init PiInterpreter(\n% BEGIN GENERATED\n"

/-- What closes the generated part of a specification. -/
def epilogue : String := "\n% END GENERATED\n);"

def enclose (template : Template) (fragment : String) : String :=
  template.header ++ prologue ++ fragment ++ epilogue

/-- The generated term inside a template, or alone if there is none. -/
def complete (fragment : String) : Option Template → String
  | some template => template.enclose fragment
  | none => fragment

end Template

end PiCalculus
