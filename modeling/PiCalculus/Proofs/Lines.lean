import PiCalculus.Proofs.Conversion

/-! A layout decides about margins only. A converted program has a list of lines, each with its
depth, and the text in a layout is these lines one below the other, with one indent in front of
a line for each level of its depth.
-/

namespace PiCalculus

/-- A line of a text: its depth, and what stands behind its margin. -/
structure Line where
  depth : Nat
  text : String
deriving DecidableEq, Repr, Inhabited

namespace Line

/-- A line behind its margin. -/
def written (layout : Layout) (line : Line) : String := layout.margin line.depth ++ line.text

/-- Two texts without a line break between them: the first line of the second one goes on in
the last line of the first one.
-/
def join : List Line → List Line → List Line
  | [], others => others
  | [line], [] => [line]
  | [line], other :: others => ⟨line.depth, line.text ++ other.text⟩ :: others
  | line :: next :: lines, others => line :: join (next :: lines) others

/-- The lines of a term with `ids` and then `body` as its arguments. -/
def application (depth : Nat) (head : String) (ids : List Nat) (body : List Line)
    : List Line :=
  ⟨depth, head ++ "(" ++ Emission.idList ids ++ ","⟩ :: (body ++ [⟨depth, ")"⟩])

/-- The lines of a term with two arguments. -/
def pair (depth : Nat) (head : String) (left right : List Line) : List Line :=
  ⟨depth, head ++ "("⟩ :: (join left [⟨depth + 1, ","⟩] ++ (right ++ [⟨depth, ")"⟩]))

end Line

/-- The lines of a term whose first line stands at `depth`. -/
def Term.lines (depth : Nat) : Term → List Line
  | inert => [⟨depth, "zero"⟩]
  | silent next =>
      Line.join (Line.join [⟨depth, "tau_prefix("⟩] (next.lines depth)) [⟨depth, ")"⟩]
  | receive subject object next =>
      Line.application depth "input_prefix" [subject, object] (next.lines (depth + 1))
  | send subject object next =>
      Line.application depth "output_prefix" [subject, object] (next.lines (depth + 1))
  | compare left right next =>
      Line.application depth "match_proc" [left, right] (next.lines (depth + 1))
  | restrict name next => Line.application depth "restriction" [name] (next.lines (depth + 1))
  | choice left right =>
      Line.pair depth "summation" (left.lines (depth + 1)) (right.lines (depth + 1))
  | parallel left right =>
      Line.pair depth "parallel_composition" (left.lines (depth + 1)) (right.lines (depth + 1))
  | call index arguments => [⟨depth, invocationText index arguments⟩]

/-- The lines of an entry of a table of definitions. -/
def Definition.entryLines (definition : Definition) (index : Nat) : List Line :=
  let body := Line.application 0 "pi_definition" [definition.arity] (definition.body.lines 1)
  Line.join (Line.join [⟨0, "[" ++ toString index ++ " -> "⟩] body) [⟨0, "]"⟩]

def System.lines (system : System) : List Line :=
  let table := system.definitions.zipIdx.foldl
    (fun lines item => Line.join lines (item.1.entryLines item.2)) [⟨0, blankTable⟩]
  Line.join table [⟨0, ","⟩] ++ [⟨0, invocationText system.entry system.slots⟩]

-----------------------------------------------------------------------------------------
-- Texts of one line
-----------------------------------------------------------------------------------------

/-- A text that can be a whole line. -/
def Solid (text : String) : Prop := text ≠ "" ∧ '\n' ∉ text.toList

theorem Solid.append {text : String} (solid : Solid text) (more : String)
    (unbroken : '\n' ∉ more.toList)
    : Solid (text ++ more) := by
  refine ⟨?_, ?_⟩
  · simp [String.append_eq_empty_iff, solid.1]
  · simp [solid.2, unbroken]

theorem newline_not_mem_toString (id : Nat) : '\n' ∉ (toString id).toList := by
  intro member
  have digit := Nat.isDigit_of_mem_toDigits (by decide) (by decide)
    (show '\n' ∈ Nat.toDigits 10 id by simpa using member)
  exact absurd digit (by decide)

theorem newline_not_mem_idList (ids : List Nat) : '\n' ∉ (Emission.idList ids).toList := by
  induction ids with
  | nil => simp [Emission.idList]
  | cons id others ih =>
      cases others with
      | nil => simpa [Emission.idList] using newline_not_mem_toString id
      | cons next others =>
          have first := newline_not_mem_toString id
          simp [Emission.idList] at ih first ⊢
          exact ⟨first, ih⟩

theorem solid_invocationText (index : Nat) (ids : List Nat)
    : Solid (invocationText index ids) := by
  have opening : Solid "identifier(" := by simp [Solid]
  have calls := opening.append _ (newline_not_mem_toString index)
  have lists := calls.append ", [" (by simp)
  exact (lists.append _ (newline_not_mem_idList ids)).append _ (by simp)

-----------------------------------------------------------------------------------------
-- Texts and their lines
-----------------------------------------------------------------------------------------

theorem comma_newline : ",\n" = "," ++ "\n" := rfl

/-- Depths that differ by one level at most. -/
def Near (depth next : Nat) : Prop := depth ≤ next + 1 ∧ next ≤ depth + 1

theorem Near.same {depth : Nat} : Near depth depth := by simp [Near]

theorem Near.deeper {depth : Nat} : Near depth (depth + 1) := ⟨by omega, by omega⟩

theorem Near.shallower {depth : Nat} : Near (depth + 1) depth := ⟨by omega, by omega⟩

/-- A text whose lines go from the depth `first` to the depth `last`, in steps of one level
at most. The margin of its first line is not part of the text.
-/
inductive Laid (layout : Layout) : Nat → Nat → List Line → String → Prop
  | line {depth text} (solid : Solid text) : Laid layout depth depth [⟨depth, text⟩] text
  | above {depth next last text lines rest} (solid : Solid text) (near : Near depth next)
    (laid : Laid layout next last lines rest)
    : Laid layout depth last (⟨depth, text⟩ :: lines)
        (text ++ "\n" ++ layout.margin next ++ rest)

namespace Laid

variable {layout : Layout} {first middle next last depth : Nat} {lines others : List Line}
  {text rest head : String}

theorem append (laid : Laid layout first middle lines text) (near : Near middle next)
    (below : Laid layout next last others rest)
    : Laid layout first last (lines ++ others)
        (text ++ "\n" ++ layout.margin next ++ rest) := by
  induction laid with
  | line solid => exact .above solid near below
  | above solid step _ ih =>
      have stacked := Laid.above solid step (ih near)
      simpa only [String.append_assoc, List.cons_append] using stacked

theorem ne_nil (laid : Laid layout first last lines text) : lines ≠ [] := by
  cases laid <;> simp

theorem join (laid : Laid layout first middle lines text)
    (onward : Laid layout middle last others rest)
    : Laid layout first last (Line.join lines others) (text ++ rest) := by
  induction laid with
  | line solid =>
      cases onward with
      | line more => exact .line (solid.append _ more.2)
      | above more near below =>
          have opened := Laid.above (solid.append _ more.2) near below
          simpa only [Line.join, String.append_assoc] using opened
  | above solid near below ih =>
      obtain ⟨line, lines, rfl⟩ := List.exists_cons_of_ne_nil below.ne_nil
      have opened := Laid.above solid near (ih onward)
      simpa only [Line.join, String.append_assoc] using opened

/-- A closing bracket on a line of its own. -/
theorem closed (laid : Laid layout (depth + 1) (depth + 1) lines text)
    : Laid layout (depth + 1) depth (lines ++ [⟨depth, ")"⟩])
        (text ++ "\n" ++ layout.margin depth ++ ")") :=
  laid.append .shallower (.line (by simp [Solid]))

theorem application (opening : Solid head) (ids : List Nat)
    (body : Laid layout (depth + 1) (depth + 1) lines text)
    : Laid layout depth depth (Line.application depth head ids lines)
        (layout.application depth head ids text) := by
  have named := (opening.append "(" (by simp)).append _ (newline_not_mem_idList ids)
  have whole := Laid.above (named.append "," (by simp)) .deeper body.closed
  simpa only [Line.application, Layout.application, comma_newline, String.append_assoc] using whole

theorem pair (opening : Solid head)
    (left : Laid layout (depth + 1) (depth + 1) lines text)
    (right : Laid layout (depth + 1) (depth + 1) others rest)
    : Laid layout depth depth (Line.pair depth head lines others)
        (layout.pair depth head text rest) := by
  have solid : Solid "," := by simp [Solid]
  have both := (left.join (.line solid)).append .same right.closed
  have whole := Laid.above (opening.append "(" (by simp)) .deeper both
  have bracket : "(\n" = "(" ++ "\n" := rfl
  simpa only [Line.pair, Layout.pair, comma_newline, bracket, String.append_assoc] using whole

end Laid

/-- A term is laid out on its lines, by induction on the term. -/
theorem Term.laid (layout : Layout) (term : Term) (depth : Nat)
    : Laid layout depth depth (term.lines depth) (term.text layout depth) := by
  induction term generalizing depth with
  | inert => exact .line (by simp [Solid])
  | silent next ih =>
      have opening : Solid "tau_prefix(" := by simp [Solid]
      have closing : Solid ")" := by simp [Solid]
      exact ((Laid.line opening).join (ih depth)).join (.line closing)
  | receive subject object next ih | send subject object next ih
  | compare left right next ih | restrict name next ih =>
      exact (ih (depth + 1)).application (by simp [Solid]) _
  | choice left right ihl ihr | parallel left right ihl ihr =>
      exact (ihl (depth + 1)).pair (by simp [Solid]) (ihr (depth + 1))
  | call index arguments => exact .line (solid_invocationText index arguments)

theorem Definition.laid (layout : Layout) (definition : Definition) (index : Nat)
    : Laid layout 0 0 (definition.entryLines index) (definition.entryText layout index) := by
  have bracket : Solid "[" := by simp [Solid]
  have opening := (bracket.append _ (newline_not_mem_toString index)).append " -> " (by simp)
  have closing : Solid "]" := by simp [Solid]
  have head : Solid "pi_definition" := by simp [Solid]
  have body := (definition.body.laid layout 1).application head [definition.arity]
  exact ((Laid.line opening).join body).join (.line closing)

/-- Every entry goes on where the table before it ends. -/
theorem Laid.table {layout : Layout} {lines : List Line} {text : String}
    (items : List (Definition × Nat)) (laid : Laid layout 0 0 lines text)
    : Laid layout 0 0
        (items.foldl (fun lines item => Line.join lines (item.1.entryLines item.2)) lines)
        (text ++ String.join (items.map fun item => item.1.entryText layout item.2)) := by
  induction items generalizing lines text with
  | nil => simpa using laid
  | cons item items ih =>
      have next := ih (laid.join (item.1.laid layout item.2))
      simpa [String.append_assoc] using next

theorem System.laid (layout : Layout) (system : System)
    : Laid layout 0 0 system.lines (system.text layout) := by
  have blank : Laid layout 0 0 [⟨0, blankTable⟩] blankTable :=
    .line (by simp [Solid, blankTable])
  have solid : Solid "," := by simp [Solid]
  have table := blank.table system.definitions.zipIdx
  have whole := (table.join (.line solid)).append .same
    (.line (solid_invocationText system.entry system.slots))
  simpa only [lines, text, definitionTable, comma_newline, Layout.margin_zero,
    String.append_assoc, String.empty_append] using whole

namespace Laid

variable {layout : Layout} {first last : Nat} {lines : List Line} {text : String}

theorem solid (laid : Laid layout first last lines text)
    : ∀ line ∈ lines, Solid line.text := by
  induction laid with
  | line solid => simpa using solid
  | above solid _ _ ih => simpa using ⟨solid, ih⟩

theorem head (laid : Laid layout first last lines text)
    : lines.head?.map (·.depth) = some first := by
  cases laid <;> rfl

theorem getLast (laid : Laid layout first last lines text)
    : lines.getLast?.map (·.depth) = some last := by
  induction laid with
  | line solid => rfl
  | above _ _ below ih =>
      obtain ⟨line, lines, rfl⟩ := List.exists_cons_of_ne_nil below.ne_nil
      simpa using ih

theorem isChain (laid : Laid layout first last lines text)
    : lines.IsChain fun line next => Near line.depth next.depth := by
  induction laid with
  | line solid => exact .singleton _
  | above _ near below ih =>
      cases below with
      | line => exact .cons_cons near ih
      | above => exact .cons_cons near ih

theorem written (laid : Laid layout first last lines text)
    : layout.margin first ++ text
      = "\n".intercalate (lines.map (Line.written layout)) := by
  induction laid with
  | line solid => simp [Line.written]
  | above _ _ below ih =>
      have rest := below.ne_nil
      rw [List.map_cons, String.intercalate_cons_of_ne_nil (by simpa using rest), ← ih]
      simp [Line.written, String.append_assoc]

end Laid

-----------------------------------------------------------------------------------------
-- Converted programs
-----------------------------------------------------------------------------------------

namespace Program

/-- The program has these lines in every layout. No line is empty or has a line break in it,
they start and end at depth zero, and no two of them that follow each other are more than one
level apart.
-/
structure Lined (program : Program) (lines : List Line) : Prop where
  solid : ∀ line ∈ lines, Solid line.text
  first : lines.head?.map (·.depth) = some 0
  last : lines.getLast?.map (·.depth) = some 0
  near : lines.IsChain fun line next => Near line.depth next.depth
  written
    : ∀ layout,
        program.convert layout = .ok ("\n".intercalate (lines.map (Line.written layout)))

theorem lined_of_resolve? {program : Program} {system : System}
    (resolved : program.resolve? = some system)
    : program.Lined system.lines := by
  have laid := system.laid .standard
  refine ⟨laid.solid, laid.head, laid.getLast, laid.isChain, ?_⟩
  intro layout
  have written := (system.laid layout).written
  rw [convert_of_resolve? resolved, ← written, Layout.margin_zero, String.empty_append]

/-- A layout decides neither whether a program converts nor what is reported about it, and a
program that converts has the same lines in all layouts.
-/
theorem convert_line_by_line (program : Program)
    : (∀ layout other,
        ((∃ text, program.convert layout = .ok text)
          ↔ ∃ text, program.convert other = .ok text)
        ∧ ∀ report, program.convert layout = .error report
          ↔ program.convert other = .error report)
      ∧ ∀ layout text, program.convert layout = .ok text
        → ∃ lines, program.Lined lines := by
  refine ⟨fun layout other => ⟨?_, ?_⟩, ?_⟩
  · have resolves (layout : Layout)
        : (∃ text, program.convert layout = .ok text)
          ↔ ∃ system, program.resolve? = some system := by
      simp only [convert_eq_ok_iff]
      rw [exists_comm]
      simp
    rw [resolves, resolves]
  · intro report
    rw [convert_eq_error_iff, convert_eq_error_iff]
  · intro layout text converted
    obtain ⟨system, resolved, _⟩ := convert_eq_ok_iff.mp converted
    exact ⟨system.lines, lined_of_resolve? resolved⟩

/-- A silent step in front of a choice. -/
def branching : Program :=
  ⟨[⟨"Main", ["a"],
      .silent
        (.choice (.receive "a" "x" (.inert ⟨0, 30⟩) ⟨0, 23⟩)
          (.send "a" "a" (.inert ⟨0, 40⟩) ⟨0, 34⟩) ⟨0, 32⟩)
        ⟨0, 16⟩,
      ⟨0, 0⟩⟩]⟩

theorem branching_line_by_line
    : branching.convert ⟨"\t"⟩
        = .ok ("(lambda id': PiIdentifier . pi_definition(0, zero))[0 -> pi_definition(1,\n"
          ++ "\ttau_prefix(summation(\n\t\tinput_prefix(0, 1,\n\t\t\tzero\n\t\t),\n"
          ++ "\t\toutput_prefix(0, 0,\n\t\t\tzero\n\t\t)\n\t))\n)],\nidentifier(0, [0])")
      ∧ ∃ lines, branching.Lined lines := by
  refine ⟨?converted, (convert_line_by_line branching).2 _ _ ?converted⟩
  decide +kernel

end Program

end PiCalculus
