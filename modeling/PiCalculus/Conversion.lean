import PiCalculus.Emission.Program
import PiCalculus.Program.Reader

/-! From a source text to its mCRL2 term. Each stage runs only if the one before it found
nothing wrong, so all diagnostics of a report come from one stage.
-/

namespace PiCalculus

/-- The mCRL2 term of a source text, or the report of the first stage that fails. -/
def convertSource (source : String) (layout : Layout) : Except Report String := do
  (← Program.ofSource source).convert layout

theorem convertSource_of_ofSource {source : String} {program : Program}
    (read : Program.ofSource source = .ok program) (layout : Layout)
    : convertSource source layout = program.convert layout := by
  rw [convertSource, read]
  rfl

/-- A source is reported for its text or else for its names. -/
theorem convertSource_eq_error_iff {source : String} {layout : Layout} {report : Report}
    : convertSource source layout = .error report
      ↔ Program.ofSource source = .error report
        ∨ ∃ program, Program.ofSource source = .ok program
            ∧ program.convert layout = .error report := by
  cases read : Program.ofSource source with
  | error first =>
      have stopped : convertSource source layout = .error first := by
        rw [convertSource, read]
        rfl
      simp [stopped]
  | ok program => simp [convertSource_of_ofSource read]

end PiCalculus
