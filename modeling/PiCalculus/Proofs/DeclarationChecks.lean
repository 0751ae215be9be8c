import PiCalculus.Proofs.LexicalScope
import PiCalculus.Proofs.OpenReferences

/-! What a program declares is judged before any of its bodies. Repeated names and a missing
entry point are all that is reported about a program that has them, and in any other program
they are not reported: each call finds its agent in a table of the declared names.
-/

namespace PiCalculus

/-- The node at the end of `path` in the body of the declaration at `place`. -/
def Program.node? (program : Program) (place : Nat) (path : List Turn) : Option Agent :=
  program.declarations[place]?.bind (·.body.at? path)

/-- The node at the end of `path` in the body of the definition at `place`. -/
def System.node? (system : System) (place : Nat) (path : List Turn) : Option Term :=
  system.definitions[place]?.bind (·.body.at? path)

namespace Program

/-- What a program declares is in order: `table` gives each declared name the one place of its
declaration, and `entry`, at `main`, is the only entry point.
-/
structure Registers (program : Program) (table : Indices) (main : Nat) (entry : Declaration)
    : Prop where
  own
    : ∀ (name : String) (index : Nat),
        table[name]? = some index ↔ program.names[index]? = some name
  unique : program.Declares entryPoint main
  starts : program.declarations[main]? = some entry

/-- Each call of a program carries in `system` the index that `table` has for its name. -/
def CallsThrough (program : Program) (table : Indices) (system : System) : Prop :=
  ∀ place path name arguments loc,
    program.node? place path = some (.call name arguments loc)
    → ∃ index ids,
        system.node? place path = some (.call index ids)
        ∧ table[name]? = some index

/-- The bodies of a program and the invocation of `entry`, written with calls looked up in
`table`.
-/
def written (program : Program) (table : Indices) (main : Nat) (entry : Declaration)
    (layout : Layout)
    : Emission :=
  let emission := program.emitDefinitions { Emission.blank layout with agents := table }
  (emission.write ",\n").margin.invocation main (List.range entry.parameters.length)

variable {program : Program} {table : Indices} {main : Nat} {entry : Declaration}
  {layout : Layout}

-----------------------------------------------------------------------------------------
-- Repeated names and the entry point
-----------------------------------------------------------------------------------------

theorem misdeclared_eq_nil_iff
    : program.misdeclared = [] ↔ program.names.Nodup ∧ entryPoint ∈ program.names := by
  simp [misdeclared, duplicates_eq_nil_iff]

theorem problems_of_misdeclared (wrong : program.misdeclared ≠ [])
    : program.problems = program.misdeclared := by
  unfold problems
  split
  next none => exact absurd none wrong
  next => rfl

theorem problems_of_declared (sound : program.misdeclared = [])
    : program.problems = program.openReferences := by
  rw [problems, sound, faults_eq]

/-- How the diagnostics about declared names read, and where they stand. -/
theorem misdeclared_wording {diagnostic : Diagnostic}
    (member : diagnostic ∈ program.misdeclared)
    : diagnostic.kind = .naming
      ∧ (diagnostic.problem = .duplicateAgent
          ∧ diagnostic.message = "Duplicate process variable name"
        ∨ diagnostic.problem = .noEntryPoint
          ∧ diagnostic.message = "No starting process found; it should be called `Main`"
          ∧ diagnostic.loc = ⟨0, 0⟩) := by
  obtain ⟨problem, loc⟩ := diagnostic
  rcases cases_of_mem_misdeclared member with duplicate | missing
  · cases duplicate
    exact ⟨rfl, .inl ⟨rfl, rfl⟩⟩
  · cases missing
    exact ⟨rfl, .inr ⟨rfl, rfl, rfl⟩⟩

-----------------------------------------------------------------------------------------
-- The table of declared names
-----------------------------------------------------------------------------------------

/-- The table that is filled declaration by declaration, with later entries in place of
earlier ones, is exact where no name is repeated.
-/
theorem exists_registers (sound : program.misdeclared = [])
    : ∃ main entry, program.Registers program.indices main entry := by
  obtain ⟨distinct, declared⟩ := misdeclared_eq_nil_iff.mp sound
  obtain ⟨⟨entry, main⟩, found⟩ := exists_entry?_iff.mpr declared
  obtain ⟨starts, last⟩ := entry?_eq_some_iff.mp found
  refine ⟨main, entry, ?_, (lastAt_iff_declares distinct).mp last, starts⟩
  intro name index
  rw [getElem?_indices_eq_some_iff, lastAt_iff_getElem? distinct]

theorem Registers.entry?_eq (registers : program.Registers table main entry)
    : program.entry? = some (entry, main) := by
  obtain ⟨place, only⟩ := registers.unique
  refine entry?_eq_some_iff.mpr ⟨registers.starts, place, ?_⟩
  intro later behind again
  exact absurd (only later again) (by omega)

theorem Registers.convert_eq (registers : program.Registers program.indices main entry)
    (sound : program.misdeclared = [])
    : program.convert layout
      = (program.written program.indices main entry layout).result := by
  have distinct := duplicates_eq_nil_iff.mpr (misdeclared_eq_nil_iff.mp sound).1
  simp only [convert, emit, registers.entry?_eq, declareAll_blank, distinct,
    Emission.extended_nothing]
  rfl

theorem Registers.table_eq_none_iff (registers : program.Registers table main entry)
    {name : String}
    : table[name]? = none ↔ name ∉ program.names := by
  simp [Option.eq_none_iff_forall_ne_some, registers.own, List.mem_iff_getElem?]

-----------------------------------------------------------------------------------------
-- Calls
-----------------------------------------------------------------------------------------

theorem callsThrough_indices {system : System} (resolved : program.resolve? = some system)
    : program.CallsThrough program.indices system := by
  intro place path name arguments loc node
  obtain ⟨declaration, here, node⟩ := Option.bind_eq_some_iff.mp node
  obtain ⟨_, all, _⟩ := resolve?_eq_some_iff.mp resolved
  -- Declarations and definitions stand at the same places, and their nodes at the same paths.
  have paired := getElem?_of_mapM all place
  rw [here, Option.bind_some] at paired
  obtain ⟨definition, found⟩ :=
    exists_mapM_eq_some_iff.mp ⟨_, all⟩ declaration (List.mem_of_getElem? here)
  have matched :=
    Agent.resolve?_eq_some_iff_at.mp (Declaration.resolve?_eq_some_iff.mp found).2 path
  rw [node] at matched
  simp only [System.node?, paired, found, Option.bind_some]
  generalize definition.body.at? path = below at matched
  cases matched with
  | some matched =>
      cases matched with
      | call target _ => exact ⟨_, _, rfl, target⟩

/-- What is reported about bodies is never about what the program declares. -/
theorem Registers.report_of_declared (registers : program.Registers table main entry)
    {diagnostic : Diagnostic} (member : diagnostic ∈ program.openReferences)
    : ∃ name,
        diagnostic.problem = .unboundName name
        ∨ diagnostic.problem = .unknownAgent name ∧ table[name]? = none := by
  obtain ⟨problem, loc⟩ := diagnostic
  obtain ⟨declaration, _, member⟩ := List.mem_flatMap.mp member
  cases Agent.dangling_of_mem_openReferences member with
  | name => exact ⟨_, .inl rfl⟩
  | agent _ undeclared => exact ⟨_, .inr ⟨rfl, registers.table_eq_none_iff.mpr undeclared⟩⟩

/-- Declared names are judged first and exactly. A program that repeats names or has no entry
point is reported with just that, whatever its bodies are. In any other program there is a
table from each name to its own place and one entry point, with which the bodies are written:
a call carries the index of its name, or is reported because its name is not in the table.
-/
theorem convert_checks_declarations_first (program : Program) (layout : Layout)
    : (program.misdeclared ≠ []
        → ∃ report, program.convert layout = .error report
            ∧ report.toList = program.misdeclared)
      ∧ (∀ diagnostic ∈ program.misdeclared,
          diagnostic.kind = .naming
          ∧ (diagnostic.problem = .duplicateAgent
              ∧ diagnostic.message = "Duplicate process variable name"
            ∨ diagnostic.problem = .noEntryPoint
              ∧ diagnostic.message = "No starting process found; it should be called `Main`"
              ∧ diagnostic.loc = ⟨0, 0⟩))
      ∧ (program.misdeclared = []
        → ∃ table main entry,
            program.Registers table main entry
            ∧ program.convert layout = (program.written table main entry layout).result
            ∧ (∀ report, program.convert layout = .error report
              → report.toList = program.openReferences
                ∧ ∀ diagnostic ∈ report.toList, ∃ name,
                    diagnostic.problem = .unboundName name
                    ∨ diagnostic.problem = .unknownAgent name ∧ table[name]? = none)
            ∧ ∀ text, program.convert layout = .ok text
              → ∃ system : System,
                  text = system.text layout
                  ∧ system.entry = main
                  ∧ program.CallsThrough table system) := by
  refine ⟨?wrong, fun _ => misdeclared_wording, ?sound⟩
  case wrong =>
    intro wrong
    obtain ⟨first, others, found⟩ := List.exists_cons_of_ne_nil wrong
    refine ⟨⟨first, others⟩, ?_, found.symm⟩
    rw [convert_eq_error_iff, problems_of_misdeclared wrong, found]
    rfl
  case sound =>
    intro sound
    obtain ⟨main, entry, registers⟩ := exists_registers sound
    refine ⟨program.indices, main, entry, registers, registers.convert_eq sound, ?_, ?_⟩
    · intro report failed
      rw [← convert_eq_error_iff.mp failed, problems_of_declared sound]
      exact ⟨rfl, fun _ => registers.report_of_declared⟩
    · intro text converted
      obtain ⟨system, resolved, rfl⟩ := convert_eq_ok_iff.mp converted
      obtain ⟨_, _, first, found, _⟩ := resolve?_eq_some_iff.mp resolved
      rw [registers.entry?_eq] at found
      cases found
      exact ⟨system, rfl, rfl, callsThrough_indices resolved⟩

/-- Names declared two and three times and no entry point, with open references in the bodies. -/
def crowded : Program :=
  ⟨[⟨"A", [], .call "Gone" ["x"] ⟨0, 10⟩, ⟨0, 6⟩⟩, ⟨"B", [], .inert ⟨1, 10⟩, ⟨1, 6⟩⟩,
    ⟨"A", ["x"], .inert ⟨2, 13⟩, ⟨2, 6⟩⟩, ⟨"A", [], .call "A" [] ⟨3, 10⟩, ⟨3, 6⟩⟩,
    ⟨"B", [], .send "x" "y" (.inert ⟨4, 14⟩) ⟨4, 10⟩, ⟨4, 6⟩⟩]⟩

/-- An agent and the entry point behind it call each other. -/
def alternating : Program :=
  ⟨[⟨"A", ["x"], .call entryPoint ["x", "x"] .start, .start⟩,
    ⟨entryPoint, ["x", "y"], .call "A" ["y"] .start, .start⟩]⟩

theorem declarations_checked_first
    : (crowded.misdeclared ≠ []
        ∧ ∃ report, crowded.convert .standard = .error report
            ∧ report.toList
              = [⟨.duplicateAgent, ⟨2, 6⟩⟩, ⟨.duplicateAgent, ⟨3, 6⟩⟩, ⟨.duplicateAgent, ⟨4, 6⟩⟩,
                  ⟨.noEntryPoint, ⟨0, 0⟩⟩])
      ∧ alternating.misdeclared = []
      ∧ ∃ table entry,
          alternating.Registers table 1 entry
          ∧ ∃ system : System,
              alternating.convert ⟨""⟩ = .ok (system.text ⟨""⟩)
              ∧ system.entry = 1
              ∧ alternating.CallsThrough table system := by
  have wrong : crowded.misdeclared ≠ [] := by decide +kernel
  have sound : alternating.misdeclared = [] := by decide +kernel
  obtain ⟨report, failed, reported⟩ := (convert_checks_declarations_first _ .standard).1 wrong
  obtain ⟨table, main, entry, registers, _, _, calls⟩ :=
    (convert_checks_declarations_first _ ⟨""⟩).2.2 sound
  -- The only entry point of this program is its second declaration.
  obtain rfl : 1 = main := registers.unique.2 1 (by decide)
  have converted : alternating.convert ⟨""⟩
      = .ok ("(lambda id': PiIdentifier . pi_definition(0, zero))"
          ++ "[0 -> pi_definition(1,\nidentifier(1, [0, 0])\n)]"
          ++ "[1 -> pi_definition(2,\nidentifier(0, [1])\n)],\nidentifier(1, [0, 1])") := by
    decide +kernel
  obtain ⟨system, same, starts, through⟩ := calls _ converted
  refine ⟨⟨wrong, report, failed, reported.trans (by decide +kernel)⟩, sound, table, entry,
    registers, system, ?_, starts, through⟩
  rw [converted, same]

end Program

end PiCalculus
