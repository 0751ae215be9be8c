import PiCalculus.CommandLine.Run

/-! The command line itself: arguments and files of the real world in, text and an exit code
out.
-/

namespace PiCalculus

namespace CommandLine

/-- The fault behind an error of the file system; some calls negate the error's number. -/
def faultOfError : IO.Error → FileFault
  | .noFileOrDirectory .. => .missing
  | .inappropriateType _ code details =>
      if code = 21 ∨ code = -21 then .isDirectory
      else if code = 20 ∨ code = -20 then .notDirectory
      else .other details
  | error => .other (toString error)

/-- Runs a file action and keeps its failure as a value. -/
def attempt {α : Type} (action : IO α) : IO (Except FileFault α) := do
  try return .ok (← action)
  catch error => return .error (faultOfError error)

/-- The files of the real world. -/
def disk : Storage IO where
  read path := attempt (IO.FS.readBinFile path)
  write path text := attempt (IO.FS.writeFile path text)

end CommandLine

end PiCalculus

def main (arguments : List String) : IO UInt32 := do
  match PiCalculus.CommandLine.Invocation.parse? arguments with
  | none =>
      IO.eprint "error: the arguments are not understood\n\nFor more information, try '--help'.\n"
      return 1
  | some invocation =>
      let outcome ← invocation.run PiCalculus.CommandLine.disk
      IO.eprint outcome.stderr
      IO.print outcome.stdout
      return outcome.exitCode
