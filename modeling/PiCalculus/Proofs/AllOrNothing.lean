import Mathlib.Data.List.Basic
import PiCalculus.CommandLine.Run
import PiCalculus.Proofs.FileSystem

/-! A run of the command line delivers the whole result or nothing. It succeeds just when every
step does, and then the result is in one place; else it prints what the first failing step
has to say and leaves all files as they were. Nothing is assumed about which of the paths of
a run lead to the same file.
-/

namespace PiCalculus

namespace CommandLine

open FileSystem

-----------------------------------------------------------------------------------------
-- What a run has to do
-----------------------------------------------------------------------------------------

section Steps

variable {σ : Type} (files : FileSystem σ) (settings : Settings) (before : σ)

/-- The template that the result is put into, unless raw output is asked for. -/
inductive Finds : Option Template → Prop
  | raw (raw : settings.rawOutput = true) : Finds none
  | template {header} (full : settings.rawOutput = false)
    (read : files.readText before settings.template = .ok header)
    : Finds (some ⟨header⟩)

/-- What is printed once a program is read: the program, if that is asked for. -/
inductive Notes (program : Program) : String → Prop
  | quiet (quiet : settings.verbose = false) : Notes program ""
  | verbose (verbose : settings.verbose = true)
    : Notes program ("[verbose] module: " ++ program.text ++ "\n")

/-- All steps up to the delivery of `text` succeed, with `notes` printed on the way. -/
inductive Renders : (text notes : String) → Prop
  | intro {source program notes fragment template}
    (read : files.readText before settings.input = .ok source)
    (parsed : Program.ofSource source = .ok program)
    (noted : Notes settings program notes)
    (converted : convertSource source (.ofWidth settings.indentWidth) = .ok fragment)
    (found : Finds files settings before template)
    : Renders (Template.complete fragment template) notes

/-- The first step that fails, and all that is printed then. -/
inductive Fails : String → Prop
  | input {fault} (unread : files.readText before settings.input = .error fault)
    : Fails ("Error: Failed to read " ++ settings.input ++ ": " ++ fault.message ++ "\n")
  | scanning {source report} (read : files.readText before settings.input = .ok source)
    (failed : scan source = .error report)
    : Fails (report.display ++ "\n")
  | parsing {source tokens report} (read : files.readText before settings.input = .ok source)
    (cut : scan source = .ok tokens) (failed : Program.ofTokens tokens = .error report)
    : Fails (report.display ++ "\n")
  | converting {source program notes report}
    (read : files.readText before settings.input = .ok source)
    (parsed : Program.ofSource source = .ok program) (noted : Notes settings program notes)
    (failed : program.convert (.ofWidth settings.indentWidth) = .error report)
    : Fails (notes ++ report.display ++ "\n")
  | template {source program notes fragment fault}
    (read : files.readText before settings.input = .ok source)
    (parsed : Program.ofSource source = .ok program) (noted : Notes settings program notes)
    (converted : program.convert (.ofWidth settings.indentWidth) = .ok fragment)
    (full : settings.rawOutput = false)
    (unread : files.readText before settings.template = .error fault)
    : Fails
        (notes ++ ("Error: Failed to read template " ++ settings.template ++ ": "
          ++ fault.message ++ "\n"))
  | output {text notes path fault} (rendered : Renders files settings before text notes)
    (file : settings.output = some path)
    (failed : files.write before path text = .error fault)
    : Fails (notes ++ ("Error: Failed to write " ++ path ++ ": " ++ fault.message ++ "\n"))

end Steps

-----------------------------------------------------------------------------------------
-- What a run does
-----------------------------------------------------------------------------------------

section Runs

variable {σ : Type} {files : FileSystem σ} {settings : Settings} {before after : σ}
  {text notes message : String}

theorem Notes.eq {program : Program} (noted : Notes settings program notes)
    : settings.notes program = notes := by
  cases noted with
  | quiet quiet => simp [Settings.notes, quiet]
  | verbose verbose => simp [Settings.notes, verbose]

theorem Finds.run_bind {α : Type} {template : Option Template}
    (found : Finds files settings before template)
    (next : Except FileFault (Option Template) → StateM σ α)
    : (settings.loadTemplate files.storage >>= next).run before
      = (next (.ok template)).run before := by
  cases found with
  | raw raw =>
      rw [Settings.loadTemplate, if_pos raw]
      rfl
  | template full read =>
      rw [Settings.loadTemplate, if_neg (by simp [full]), bind_assoc, run_readText_bind, read]
      rfl

theorem run_loadTemplate_bind {α : Type} {fault : FileFault}
    (full : settings.rawOutput = false)
    (unread : files.readText before settings.template = .error fault)
    (next : Except FileFault (Option Template) → StateM σ α)
    : (settings.loadTemplate files.storage >>= next).run before
      = (next (.error fault)).run before := by
  rw [Settings.loadTemplate, if_neg (by simp [full]), bind_assoc, run_readText_bind, unread]
  rfl

/-- A run that gets as far as its result only has to deliver it. -/
theorem Renders.run (rendered : Renders files settings before text notes)
    : (settings.run files.storage).run before
      = (settings.deliver files.storage text notes).run before := by
  cases rendered with
  | intro read parsed noted converted found =>
      rw [convertSource_of_ofSource parsed] at converted
      rw [Settings.run, run_readText_bind, read]
      simp only [parsed, noted.eq, converted]
      rw [found.run_bind]

theorem Fails.run (fails : Fails files settings before message)
    : (settings.run files.storage).run before = (.failed message, before) := by
  cases fails with
  | input unread =>
      rw [Settings.run, run_readText_bind, unread]
      rfl
  | scanning read failed =>
      rw [Settings.run, run_readText_bind, read]
      simp only [Program.ofSource_eq_error_iff.mpr (.inl failed)]
      rfl
  | parsing read cut failed =>
      rw [Settings.run, run_readText_bind, read]
      simp only [Program.ofSource_of_scan cut, failed]
      rfl
  | converting read parsed noted failed =>
      rw [Settings.run, run_readText_bind, read]
      simp only [parsed, noted.eq, failed]
      rfl
  | template read parsed noted converted full unread =>
      rw [Settings.run, run_readText_bind, read]
      simp only [parsed, noted.eq, converted]
      rw [run_loadTemplate_bind full unread]
      rfl
  | output rendered file failed =>
      rw [rendered.run, Settings.deliver, file]
      exact run_write_bind_error failed _

/-- A run that fails has one thing to say. -/
theorem Fails.unique {other : String} (fails : Fails files settings before message)
    (again : Fails files settings before other)
    : message = other := by
  have same := fails.run.symm.trans again.run
  cases same
  rfl

end Runs

end CommandLine

end PiCalculus
