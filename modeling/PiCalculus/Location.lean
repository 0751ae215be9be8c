/-! Places in a source text. Lines and columns count from zero and columns count characters;
only the printed form counts from one.
-/

namespace PiCalculus

/-- A place in a source text: full lines before it, then characters before it on its line. -/
structure Location where
  line : Nat
  column : Nat
deriving DecidableEq, Repr, Inhabited

namespace Location

/-- The place of a text's first character. -/
def start : Location := ⟨0, 0⟩

/-- The place right after the character `c` that stands at `loc`. -/
def next (loc : Location) (c : Char) : Location :=
  if c = '\n' then ⟨loc.line + 1, 0⟩ else ⟨loc.line, loc.column + 1⟩

/-- The place right after the characters `text`, the first of which stands at `loc`. -/
def after (loc : Location) (text : List Char) : Location :=
  text.foldl next loc

/-- The printed form, with line and column counted from one. -/
def display (loc : Location) : String :=
  "(" ++ toString (loc.line + 1) ++ ", " ++ toString (loc.column + 1) ++ ")"

@[simp]
theorem after_nil (loc : Location) : loc.after [] = loc := rfl

@[simp]
theorem after_cons (loc : Location) (c : Char) (text : List Char)
    : loc.after (c :: text) = (loc.next c).after text :=
  rfl

@[simp]
theorem after_append (loc : Location) (text rest : List Char)
    : loc.after (text ++ rest) = (loc.after text).after rest :=
  List.foldl_append

end Location

end PiCalculus
