import Mathlib.Data.List.Induction
import PiCalculus.Proofs.Emission

/-! Conversion is resolution followed by writing: a program has a text exactly if its names
are distinct, it has an entry point and its bodies can be resolved, and the text is that of
the resolved program.
-/

namespace PiCalculus

-----------------------------------------------------------------------------------------
-- Tables in which the last entry of a name counts
-----------------------------------------------------------------------------------------

/-- The last place of `name` in `names` is `index`. -/
def LastAt (names : List String) (name : String) (index : Nat) : Prop :=
  names[index]? = some name ∧ ∀ later, index < later → names[later]? ≠ some name

/-- A new last name hides the earlier ones of the same text and no others. -/
theorem lastAt_append_singleton {names : List String} {name added : String} {index : Nat}
    : LastAt (names ++ [added]) name index
      ↔ if name = added then index = names.length else LastAt names name index := by
  split
  next h =>
    subst h
    constructor
    · intro hm
      obtain ⟨hi, hl⟩ := hm
      by_contra hne
      have hlt : index < names.length := by grind
      exact hl names.length hlt (by simp)
    · intro hi
      subst hi
      exact ⟨by simp, by grind⟩
  next h =>
    have hm (place : Nat)
        : (names ++ [added])[place]? = some name ↔ names[place]? = some name := by
      grind
    simp only [LastAt, ne_eq, hm]

theorem lastAt_iff_getElem? {names : List String} {name : String} {index : Nat}
    (distinct : names.Nodup)
    : LastAt names name index ↔ names[index]? = some name := by
  refine ⟨And.left, fun found => ⟨found, ?_⟩⟩
  intro later behind again
  have bound := (List.getElem?_eq_some_iff.mp found).1
  have same := (List.getElem?_inj bound distinct).mp (found.trans again.symm)
  omega

namespace Program

/-- Induction that adds one declaration behind the others, as the tables are filled. -/
theorem append_induction {motive : Program → Prop} (nil : motive ⟨[]⟩)
    (append : ∀ declarations declaration,
      motive ⟨declarations⟩ → motive ⟨declarations ++ [declaration]⟩)
    (program : Program)
    : motive program := by
  obtain ⟨declarations⟩ := program
  induction declarations using List.reverseRecOn with
  | nil => exact nil
  | append_singleton declarations declaration ih => exact append declarations declaration ih

/-- One diagnostic for each declaration whose name is declared before it. -/
def duplicates (program : Program) : List Diagnostic :=
  program.declarations.zipIdx.filterMap fun (declaration, index) =>
    if declaration.name ∈ program.names.take index
    then some ⟨.duplicateAgent, declaration.loc⟩
    else none

section Append

variable (declarations : List Declaration) (declaration : Declaration)

@[simp]
theorem length_names : (⟨declarations⟩ : Program).names.length = declarations.length := by
  simp [names]

@[simp]
theorem names_append
    : (⟨declarations ++ [declaration]⟩ : Program).names
      = (⟨declarations⟩ : Program).names ++ [declaration.name] := by
  simp [names]

@[simp]
theorem indices_append
    : (⟨declarations ++ [declaration]⟩ : Program).indices
      = (⟨declarations⟩ : Program).indices.insert declaration.name declarations.length := by
  simp [indices, List.zipIdx_append]

theorem duplicates_append
    : (⟨declarations ++ [declaration]⟩ : Program).duplicates
      = (⟨declarations⟩ : Program).duplicates
        ++ if declaration.name ∈ (⟨declarations⟩ : Program).names
          then [⟨.duplicateAgent, declaration.loc⟩]
          else [] := by
  simp only [duplicates, List.zipIdx_append, List.filterMap_append, names_append]
  congr 1
  · apply List.filterMap_congr
    intro place hm
    have hi := List.mem_zipIdx hm
    rw [List.take_append_of_le_length (by rw [length_names]; omega)]
  · simp only [List.zipIdx_singleton, Nat.zero_add, ← length_names, List.take_left,
      List.filterMap_cons, List.filterMap_nil]
    split <;> simp_all

theorem entry?_append
    : Program.entry? ⟨declarations ++ [declaration]⟩
      = if declaration.name = entryPoint then some (declaration, declarations.length)
        else Program.entry? ⟨declarations⟩ := by
  simp only [ entry?, List.findRev?_eq_findRev?TR, List.findRev?TR, List.zipIdx_append]
  by_cases h : declaration.name = entryPoint <;> simp [h]

end Append

variable {program : Program}

theorem getElem?_indices_eq_some_iff {name : String} {index : Nat}
    : program.indices[name]? = some index ↔ LastAt program.names name index := by
  induction program using append_induction with
  | nil => simp [indices, names, LastAt]
  | append declarations declaration ih =>
      rw [names_append, lastAt_append_singleton, ← ih]
      simp only [indices_append, Std.ExtTreeMap.getElem?_insert, length_names]
      grind

theorem mem_indices_iff {name : String}
    : name ∈ program.indices ↔ name ∈ program.names := by
  induction program using append_induction with
  | nil => simp [indices, names]
  | append declarations declaration ih =>
      rw [indices_append, names_append, Std.ExtTreeMap.mem_insert,
        Std.LawfulEqCmp.compare_eq_iff_eq, ih]
      simp [or_comm, eq_comm]

theorem duplicates_eq_nil_iff : program.duplicates = [] ↔ program.names.Nodup := by
  induction program using append_induction with
  | nil => simp [duplicates, names]
  | append declarations declaration ih =>
      simp only [duplicates_append, List.append_eq_nil_iff, ih, names_append]
      grind

/-- The entry point is the last declaration of its name. -/
theorem entry?_eq_some_iff {declaration : Declaration} {index : Nat}
    : program.entry? = some (declaration, index)
      ↔ program.declarations[index]? = some declaration
        ∧ LastAt program.names entryPoint index := by
  induction program using append_induction generalizing declaration index with
  | nil => simp [ entry?, names, LastAt]
  | append declarations added ih =>
      rw [entry?_append, names_append, lastAt_append_singleton, length_names]
      by_cases h : added.name = entryPoint
      · simp only [h, ↓reduceIte]
        grind
      · simp only [h, Ne.symm h, ↓reduceIte, ih]
        refine and_congr_left fun hl => ?_
        have hi : index < declarations.length := by
          simpa using (List.getElem?_eq_some_iff.mp hl.1).1
        rw [List.getElem?_append_left hi]

/-- Declaring all agents fills the table of indices and reports the duplicates. -/
theorem declareAll_eq (program : Program) {emission : Emission} (h : emission.agents = ∅)
    : program.declareAll emission
      = { emission.extended "" program.duplicates with agents := program.indices } := by
  induction program using append_induction with
  | nil => simp [declareAll, duplicates, indices, ← h]
  | append declarations declaration ih =>
      have hs : (⟨declarations ++ [declaration]⟩ : Program).declareAll emission
          = (if ((⟨declarations⟩ : Program).declareAll emission).agents.contains
                declaration.name then
              ((⟨declarations⟩ : Program).declareAll emission).report
                ⟨.duplicateAgent, declaration.loc⟩
            else (⟨declarations⟩ : Program).declareAll emission).declare declaration.name
              declarations.length := by
        simp [declareAll, List.zipIdx_append]
      rw [hs, ih, duplicates_append, indices_append]
      by_cases hm : declaration.name ∈ (⟨declarations⟩ : Program).names <;>
        simp [hm, mem_indices_iff, Emission.declare, Emission.extended]

end Program

namespace Declaration

open Emission

variable {declaration : Declaration} {emission : Emission} {definition : Definition}

theorem resolve?_eq_some_iff {agents : Indices}
    : declaration.resolve? agents = some definition
      ↔ definition.arity = declaration.parameters.length
        ∧ declaration.body.resolve? agents declaration.scope = some definition.body := by
  obtain ⟨arity, body⟩ := definition
  simp only [resolve?, Option.pure_def, Option.bind_eq_bind, Option.bind_eq_some_iff,
    Option.some.injEq, Definition.mk.injEq]
  grind

theorem emit_adds_faults (hs : emission.scope = .empty)
    : ∃ text, Adds declaration.emit emission text
        (declaration.body.faults emission.agents declaration.scope) := by
  have he : emission.scope.bindAll declaration.parameters = declaration.scope := by
    rw [hs, scope]
  obtain ⟨text, h⟩ := declaration.body.emit_adds_faults
    ({ emission with scope := emission.scope.bindAll declaration.parameters }).deeper
  rw [← he]
  exact ⟨_, Adds.withinAll h.application⟩

theorem emit_adds_text (hs : emission.scope = .empty) (hd : emission.depth = 0)
    (hr : declaration.resolve? emission.agents = some definition)
    : Adds declaration.emit emission (definition.text emission.layout) [] := by
  obtain ⟨ha, ht⟩ := resolve?_eq_some_iff.mp hr
  rw [scope, ← hs] at ht
  have hb : Adds declaration.body.emit
      { emission with scope := emission.scope.bindAll declaration.parameters }.deeper
      (definition.body.text emission.layout (emission.depth + 1)) [] :=
    Agent.emit_adds_text ht
  have hw : Adds declaration.emit emission
      (emission.layout.application emission.depth "pi_definition"
        [declaration.parameters.length]
        (definition.body.text emission.layout (emission.depth + 1)))
      [] :=
    Adds.withinAll hb.application
  simpa [Definition.text, ha, hd] using hw

end Declaration

namespace Program

open Emission

variable {program : Program} {emission : Emission}

/-- What is wrong with the bodies of a program, in the order of its declarations. -/
def faults (program : Program) : List Diagnostic :=
  program.declarations.flatMap fun declaration =>
    declaration.body.faults program.indices declaration.scope

/-- The table collects what the declarations add, by the fold that writes it. -/
theorem emitDefinitions_adds {texts : Declaration → String}
    {reports : Declaration → List Diagnostic}
    (h : ∀ declaration ∈ program.declarations,
      Adds declaration.emit emission (texts declaration) (reports declaration))
    : Adds program.emitDefinitions emission
        (blankTable
          ++ String.join (program.declarations.zipIdx.map fun item =>
              "[" ++ toString item.2 ++ " -> " ++ texts item.1 ++ "]"))
        (program.declarations.flatMap reports) := by
  have he : ∀ item ∈ program.declarations.zipIdx,
      Adds
        (fun emission : Emission =>
          (item.1.emit (emission.write ("[" ++ toString item.2 ++ " -> "))).write "]")
        emission ("[" ++ toString item.2 ++ " -> " ++ texts item.1 ++ "]")
        (reports item.1) := by
    intro item hi opening earlier
    have hm : item.1 ∈ program.declarations := (List.mem_zipIdx' hi).2 ▸ List.getElem_mem _
    simp [h item.1 hm _ earlier, String.append_assoc]
  have hr : program.declarations.zipIdx.flatMap (fun item => reports item.1)
      = program.declarations.flatMap reports := by
    rw [← List.flatMap_map, List.zipIdx_map_fst]
  intro opening earlier
  have hb := Adds.foldl he (opening ++ blankTable) earlier
  rw [hr] at hb
  simpa [emitDefinitions, blankTable, String.append_assoc] using hb

theorem emitDefinitions_adds_faults (hs : emission.scope = .empty)
    (ha : emission.agents = program.indices)
    : ∃ text, Adds program.emitDefinitions emission text program.faults := by
  have hd (declaration : Declaration) := @declaration.emit_adds_faults _ hs
  choose texts h using hd
  rw [ha] at h
  exact ⟨_, emitDefinitions_adds fun declaration _ => h declaration⟩

theorem emitDefinitions_adds_text {definitions : List Definition}
    (hs : emission.scope = .empty) (hd : emission.depth = 0)
    (hr : program.declarations.mapM (·.resolve? emission.agents) = some definitions)
    : Adds program.emitDefinitions emission (definitionTable emission.layout definitions)
        [] := by
  let texts (declaration : Declaration) : String :=
    ((declaration.resolve? emission.agents).map (·.text emission.layout)).getD ""
  have ht : ∀ declaration ∈ program.declarations,
      Adds declaration.emit emission (texts declaration) [] := by
    intro declaration hm
    obtain ⟨definition, hf⟩ := exists_mapM_eq_some_iff.mp ⟨_, hr⟩ declaration hm
    simpa [texts, hf] using declaration.emit_adds_text hs hd hf
  -- Declarations and definitions run in step, whatever index they start at.
  have he (start : Nat)
      : (program.declarations.zipIdx start).map (fun item =>
            "[" ++ toString item.2 ++ " -> " ++ texts item.1 ++ "]")
        = (definitions.zipIdx start).map fun item =>
            item.1.entryText emission.layout item.2 := by
    have hf := mapM_eq_some_iff.mp hr
    clear ht hr
    generalize program.declarations = declarations at hf
    induction hf generalizing start with
    | nil => rfl
    | cons hf _ ih =>
        simp only [List.zipIdx_cons, List.map_cons, ih]
        simp [texts, hf, Definition.entryText]
  have hl : program.declarations.flatMap (fun _ => ([] : List Diagnostic)) = [] := by simp
  rw [definitionTable, ← he, ← hl]
  exact emitDefinitions_adds ht

theorem exists_definitions_iff
    : (∃ definitions,
        program.declarations.mapM (·.resolve? program.indices) = some definitions)
      ↔ program.faults = [] := by
  simp only [exists_mapM_eq_some_iff, faults, List.flatMap_eq_nil_iff,
    ← Agent.exists_resolve?_iff]
  refine forall₂_congr fun declaration _ => ?_
  constructor
  · intro hr
    obtain ⟨definition, h⟩ := hr
    exact ⟨_, (Declaration.resolve?_eq_some_iff.mp h).2⟩
  · intro hr
    obtain ⟨term, h⟩ := hr
    exact ⟨⟨_, term⟩, Declaration.resolve?_eq_some_iff.mpr ⟨rfl, h⟩⟩

-----------------------------------------------------------------------------------------
-- Whole programs
-----------------------------------------------------------------------------------------

/-- The emission in which the bodies of a program are written. -/
def stage (program : Program) (layout : Layout) : Emission :=
  { blank layout with agents := program.indices }

@[simp]
theorem layout_stage (layout : Layout) : (program.stage layout).layout = layout := rfl

@[simp]
theorem diagnostics_stage (layout : Layout) (text : String) (faults : List Diagnostic)
    : ((program.stage layout).extended text faults).diagnostics = faults.toArray := by
  simp [extended, stage, blank]

@[simp]
theorem result_stage (layout : Layout) (text : String) (faults : List Diagnostic)
    : ((program.stage layout).extended text faults).result = settle faults text := by
  simp [result, stage, blank, extended]

theorem declareAll_blank (layout : Layout)
    : program.declareAll (blank layout)
      = (program.stage layout).extended "" program.duplicates := by
  rw [declareAll_eq program rfl]
  rfl

theorem emit_of_entry {layout : Layout} {entry : Declaration} {index : Nat} {text : String}
    {faults : List Diagnostic} (he : program.entry? = some (entry, index))
    (hn : program.duplicates = [])
    (ha : Adds program.emitDefinitions (program.stage layout) text faults)
    : program.emit (blank layout)
      = (program.stage layout).extended
          (text ++ ",\n" ++ invocationText index (List.range entry.parameters.length))
          faults := by
  have hd : program.emitDefinitions (program.stage layout)
      = (program.stage layout).extended text faults := by
    simpa using ha "" []
  simp only [emit, declareAll_blank, he, hn, extended_nothing, hd]
  simp [stage, blank, invocation, invocationText, String.append_assoc]

theorem resolve?_eq_some_iff {system : System}
    : program.resolve? = some system
      ↔ program.names.Nodup
        ∧ program.declarations.mapM (·.resolve? program.indices) = some system.definitions
        ∧ ∃ entry,
            program.entry? = some (entry, system.entry)
            ∧ system.slots = List.range entry.parameters.length := by
  obtain ⟨definitions, index, slots⟩ := system
  by_cases hn : program.names.Nodup
  · simp [resolve?, hn, Option.bind_eq_some_iff]
    grind
  · simp [resolve?, hn]

theorem convert_of_resolve? {system : System} (h : program.resolve? = some system)
    (layout : Layout)
    : program.convert layout = .ok (system.text layout) := by
  obtain ⟨hn, hr, entry, he, hs⟩ := resolve?_eq_some_iff.mp h
  have ha := @emitDefinitions_adds_text program (program.stage layout) _ rfl rfl hr
  rw [convert, emit_of_entry he (duplicates_eq_nil_iff.mpr hn) ha, result_stage,
    settle_eq_ok_iff]
  refine ⟨rfl, ?_⟩
  rw [System.text, hs, layout_stage]

/-- A program converts to a text exactly if it can be resolved, and to the text of its
resolved form.
-/
theorem convert_eq_ok_iff {layout : Layout} {text : String}
    : program.convert layout = .ok text
      ↔ ∃ system, program.resolve? = some system ∧ system.text layout = text := by
  constructor
  · intro h
    suffices hs : ∃ system, program.resolve? = some system by
      obtain ⟨system, hs⟩ := hs
      have ht := program.convert_of_resolve? hs layout
      exact ⟨system, hs, Except.ok.inj (ht.symm.trans h)⟩
    cases he : program.entry? with
    | none => simp [convert, emit, declareAll_blank, he] at h
    | some entry =>
        have hn : program.duplicates = [] := by
          by_contra hn
          simp [convert, emit, declareAll_blank, he, hn] at h
        obtain ⟨written, ha⟩ :=
          @emitDefinitions_adds_faults program (program.stage layout) rfl rfl
        rw [convert, emit_of_entry he hn ha, result_stage, settle_eq_ok_iff] at h
        obtain ⟨definitions, hr⟩ := exists_definitions_iff.mpr h.1
        exact ⟨⟨definitions, entry.2, List.range entry.1.parameters.length⟩,
          resolve?_eq_some_iff.mpr ⟨duplicates_eq_nil_iff.mp hn, hr, entry.1, he, rfl⟩⟩
  · intro h
    obtain ⟨system, hs, rfl⟩ := h
    exact program.convert_of_resolve? hs layout

-----------------------------------------------------------------------------------------
-- What is reported
-----------------------------------------------------------------------------------------

theorem exists_entry?_iff
    : (∃ entry, program.entry? = some entry) ↔ entryPoint ∈ program.names := by
  induction program using append_induction with
  | nil => simp [ entry?, names]
  | append declarations declaration ih =>
      rw [entry?_append, names_append, List.mem_append, ← ih]
      split <;> simp_all [eq_comm]

/-- What is wrong with the declared names of a program. -/
def misdeclared (program : Program) : List Diagnostic :=
  program.duplicates
    ++ if entryPoint ∈ program.names then [] else [⟨.noEntryPoint, .start⟩]

variable {diagnostic : Diagnostic}

theorem problem_of_mem_duplicates (member : diagnostic ∈ program.duplicates)
    : diagnostic.problem = .duplicateAgent := by
  obtain ⟨_, _, found⟩ := List.mem_filterMap.mp member
  obtain ⟨_, same⟩ := Option.ite_none_right_eq_some.mp found
  cases same
  rfl

theorem cases_of_mem_misdeclared (member : diagnostic ∈ program.misdeclared)
    : diagnostic.problem = .duplicateAgent ∨ diagnostic = ⟨.noEntryPoint, .start⟩ := by
  rcases List.mem_append.mp member with member | member
  · exact .inl (problem_of_mem_duplicates member)
  · split at member
    · cases member
    · exact .inr (List.mem_singleton.mp member)

/-- Everything that is reported about a program. The bodies are looked at only if nothing is
wrong with the declared names.
-/
def problems (program : Program) : List Diagnostic :=
  match program.misdeclared with
  | [] => program.faults
  | found => found

theorem exists_convert_eq (layout : Layout)
    : ∃ text, program.convert layout = settle program.problems text := by
  by_cases he : entryPoint ∈ program.names
  · obtain ⟨⟨entry, index⟩, hs⟩ := exists_entry?_iff.mpr he
    by_cases hn : program.duplicates = []
    · obtain ⟨text, ha⟩ := @emitDefinitions_adds_faults program (program.stage layout) rfl rfl
      refine ⟨text ++ ",\n" ++ invocationText index (List.range entry.parameters.length), ?_⟩
      simp [convert, emit_of_entry hs hn ha, problems, misdeclared, hn, he]
    · refine ⟨"", ?_⟩
      simp [convert, emit, declareAll_blank, hs, hn, problems, misdeclared, he]
  · have hs : program.entry? = none := by
      simpa [← exists_entry?_iff, Option.eq_none_iff_forall_ne_some] using he
    refine ⟨"", ?_⟩
    simp [convert, emit, declareAll_blank, hs, problems, misdeclared, he]

/-- A program that has no text is reported with exactly its problems. -/
theorem convert_eq_error_iff {layout : Layout} {report : Report}
    : program.convert layout = .error report ↔ program.problems = report.toList := by
  obtain ⟨text, h⟩ := program.exists_convert_eq layout
  rw [h, settle_eq_error_iff]

/-- Programs with the same resolved form and the same problems convert alike. -/
theorem convert_congr {other : Program} (hr : program.resolve? = other.resolve?)
    (hp : program.problems = other.problems) (layout : Layout)
    : program.convert layout = other.convert layout := by
  cases h : other.convert layout with
  | ok text =>
      rw [convert_eq_ok_iff] at h ⊢
      rwa [hr]
  | error report =>
      rw [convert_eq_error_iff] at h ⊢
      rwa [hp]

end Program

end PiCalculus
