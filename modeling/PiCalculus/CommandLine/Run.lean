import PiCalculus.Agent.Text
import PiCalculus.CommandLine.Arguments
import PiCalculus.Conversion
import PiCalculus.Storage

/-! A run of the command line. The result goes to one place and only at the very end, so a run
that fails has printed nothing but diagnostics and has changed no file.
-/

namespace PiCalculus

namespace CommandLine

/-- What a run leaves behind, files apart. -/
structure Outcome where
  success : Bool
  stdout : String
  stderr : String
deriving DecidableEq, Repr, Inhabited

namespace Outcome

def done (stdout stderr : String) : Outcome := ⟨true, stdout, stderr⟩

def failed (stderr : String) : Outcome := ⟨false, "", stderr⟩

def exitCode (outcome : Outcome) : UInt32 := if outcome.success then 0 else 1

end Outcome

/-- The line printed when the file at `path` cannot be used. -/
def fileMessage (action path : String) (fault : FileFault) : String :=
  "Error: Failed to " ++ action ++ " " ++ path ++ ": " ++ fault.message ++ "\n"

def versionText : String := "pi2mcrl2 0.1.0\n"

def helpText : String :=
  String.join
    [
      "Build mCRL2 models from pi-calculus expressions\n",
      "\n",
      "Usage: pi2mcrl2 [OPTIONS] <INPUT>\n",
      "\n",
      "Arguments:\n",
      "  <INPUT>  Input pi-calculus file\n",
      "\n",
      "Options:\n",
      "  -o, --output <FILE>     " ++
        "Write the mCRL2 specification to this file instead of standard output\n",
      "      --verbose           Print the parsed module and debug logs to standard error\n",
      "      --raw-output        Only print the generated term, not a full mCRL2 specification\n",
      "      --template <FILE>   " ++
        "mCRL2 specification the generated term is appended to [default: mcrl2/picalc.mcrl2]\n",
      "      --indent-width <N>  Spaces per nesting level in the generated term [default: 4]\n",
      "  -h, --help              Print help\n",
      "  -V, --version           Print version\n"
    ]

variable {m : Type → Type} [Monad m]

/-- The template that the settings ask for; raw output needs none. -/
def Settings.loadTemplate (settings : Settings) (storage : Storage m)
    : m (Except FileFault (Option Template)) := do
  if settings.rawOutput then return .ok none
  else return (← storage.readText settings.template).map fun header => some ⟨header⟩

/-- Stores or prints a finished specification. -/
def Settings.deliver (settings : Settings) (storage : Storage m) (text notes : String)
    : m Outcome :=
  match settings.output with
  | none => return .done text notes
  | some path => do
      match ← storage.write path text with
      | .ok () => return .done "" notes
      | .error fault => return .failed (notes ++ fileMessage "write" path fault)

/-- What is printed about a program before it is converted. -/
def Settings.notes (settings : Settings) (program : Program) : String :=
  if settings.verbose then "[verbose] module: " ++ program.text ++ "\n" else ""

/-- Reads, converts and delivers. The first step that fails decides what is printed. -/
def Settings.run (settings : Settings) (storage : Storage m) : m Outcome := do
  match ← storage.readText settings.input with
  | .error fault => return .failed (fileMessage "read" settings.input fault)
  | .ok source =>
  match Program.ofSource source with
  | .error report => return .failed (report.display ++ "\n")
  | .ok program =>
  let notes := settings.notes program
  match program.convert (.ofWidth settings.indentWidth) with
  | .error report => return .failed (notes ++ report.display ++ "\n")
  | .ok fragment =>
  match ← settings.loadTemplate storage with
  | .error fault =>
      return .failed (notes ++ fileMessage "read template" settings.template fault)
  | .ok template => settings.deliver storage (Template.complete fragment template) notes

/-- Does what the arguments ask for. -/
def Invocation.run (invocation : Invocation) (storage : Storage m) : m Outcome :=
  match invocation with
  | help => return .done helpText ""
  | version => return .done versionText ""
  | convert settings => settings.run storage

end CommandLine

end PiCalculus
