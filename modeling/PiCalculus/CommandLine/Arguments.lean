import PiCalculus.Template

/-! The arguments of the command line. They are read from left to right: a request for help or
for the version ends the reading at once, and everything else that is not understood is an
error.
-/

namespace PiCalculus

namespace CommandLine

/-- What one conversion is asked to do. -/
structure Settings where
  input : String
  output : Option String
  verbose : Bool
  rawOutput : Bool
  template : String
  indentWidth : Nat
deriving DecidableEq, Repr, Inhabited

/-- What the arguments ask for. -/
inductive Invocation where
  | help
  | version
  | convert (settings : Settings)
deriving DecidableEq, Repr, Inhabited

/-- The options that take a value. -/
inductive Setting where
  | output
  | template
  | indentWidth
deriving DecidableEq, Repr, Inhabited

/-- The options that take none. -/
inductive Flag where
  | verbose
  | rawOutput
deriving DecidableEq, Repr, Inhabited

/-- The part that a single argument plays. -/
inductive Part where
  /-- Not an option. -/
  | operand (text : String)
  /-- The mark behind which no argument is an option. -/
  | escape
  | help
  | version
  | flag (flag : Flag)
  /-- An option, and the value attached to it, if any. -/
  | setting (setting : Setting) (attached : Option String)
  | unknown
deriving DecidableEq, Repr, Inhabited

namespace Part

/-- The part of a long option with this name and attached value. -/
def ofLong (name : String) (attached : Option String) : Part :=
  if name = "output" then setting .output attached
  else if name = "template" then setting .template attached
  else if name = "indent-width" then setting .indentWidth attached
  else if attached.isSome then unknown
  else if name = "verbose" then flag .verbose
  else if name = "raw-output" then flag .rawOutput
  else if name = "help" then help
  else if name = "version" then version
  else unknown

/-- The part of an argument. A lone `-` is no option, and an equals sign between a short option
and its value is dropped.
-/
def ofArgument (argument : String) : Part :=
  match argument.toList with
  | ['-', '-'] => escape
  | '-' :: '-' :: long =>
      let name := String.ofList (long.takeWhile (· ≠ '='))
      match long.dropWhile (· ≠ '=') with
      | [] => ofLong name none
      | _ :: value => ofLong name (some (String.ofList value))
  | '-' :: 'h' :: _ => help
  | '-' :: 'V' :: _ => version
  | ['-', 'o'] => setting .output none
  | '-' :: 'o' :: '=' :: value => setting .output (some (String.ofList value))
  | '-' :: 'o' :: value => setting .output (some (String.ofList value))
  | '-' :: _ :: _ => unknown
  | _ => operand argument

/-- The argument can be the value of the option in front of it. -/
def isValue (argument : String) : Bool :=
  match ofArgument argument with
  | operand _ => true
  | _ => false

end Part

/-- The largest number of spaces that can be asked for, the largest of 64 bits. -/
def maxWidth : Nat := 18446744073709551615

/-- The number of spaces that a text asks for: digits, with one plus sign allowed in front. -/
def width? (text : String) : Option Nat :=
  let digits := match text.toList with
    | '+' :: digits => digits
    | digits => digits
  if !digits.isEmpty && digits.all Char.isDigit then
    let width := digits.foldl (fun width c => 10 * width + (c.toNat - '0'.toNat)) 0
    if width ≤ maxWidth then some width else none
  else none

/-- What the arguments read so far have set. -/
structure Choices where
  input : Option String
  output : Option String
  verbose : Bool
  rawOutput : Bool
  template : Option String
  indentWidth : Option Nat
deriving DecidableEq, Repr, Inhabited

namespace Choices

def empty : Choices := ⟨none, none, false, false, none, none⟩

/-- Takes the input path; there is only one, and it is not empty. -/
def setInput (choices : Choices) (path : String) : Option Choices :=
  if choices.input.isSome ∨ path = "" then none
  else some { choices with input := some path }

/-- Takes a flag, which is given at most once. -/
def setFlag (choices : Choices) : Flag → Option Choices
  | .verbose => if choices.verbose then none else some { choices with verbose := true }
  | .rawOutput => if choices.rawOutput then none else some { choices with rawOutput := true }

/-- Takes the value of an option, which is given at most once and is not empty. -/
def set (choices : Choices) (setting : Setting) (value : String) : Option Choices :=
  if value = "" then none
  else match setting with
    | .output =>
        if choices.output.isSome then none else some { choices with output := some value }
    | .template =>
        if choices.template.isSome then none else some { choices with template := some value }
    | .indentWidth =>
        if choices.indentWidth.isSome then none
        else (width? value).map fun width => { choices with indentWidth := some width }

/-- The settings, once all arguments are read; an input is required. -/
def settings? (choices : Choices) : Option Settings :=
  choices.input.map fun input =>
    {
      input
      output := choices.output
      verbose := choices.verbose
      rawOutput := choices.rawOutput
      template := choices.template.getD Template.defaultPath
      indentWidth := choices.indentWidth.getD 4
    }

/-- Reads the arguments behind the mark that ends the options. -/
def operands? (choices : Choices) (arguments : List String) : Option Settings := do
  (← arguments.foldlM setInput choices).settings?

/-- Reads the rest of the arguments. -/
def parse? (choices : Choices) : List String → Option Invocation
  | [] => choices.settings?.map .convert
  | argument :: arguments =>
      match Part.ofArgument argument with
      | .operand path => (choices.setInput path).bind (parse? · arguments)
      | .escape => (choices.operands? arguments).map .convert
      | .help => some .help
      | .version => some .version
      | .flag flag => (choices.setFlag flag).bind (parse? · arguments)
      | .setting setting (some value) => (choices.set setting value).bind (parse? · arguments)
      | .setting setting none =>
          match arguments with
          | value :: arguments =>
              if Part.isValue value then
                (choices.set setting value).bind (parse? · arguments)
              else none
          | [] => none
      | .unknown => none

end Choices

/-- What the arguments ask for, unless they are wrong. -/
def Invocation.parse? (arguments : List String) : Option Invocation :=
  Choices.empty.parse? arguments

end CommandLine

end PiCalculus
