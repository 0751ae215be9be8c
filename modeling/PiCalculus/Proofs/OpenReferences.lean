import PiCalculus.Proofs.Closedness

/-! What is wrong with the bodies of a program, read off with a set of names in scope that is
handed down and never changed. Conversion keeps one table of names, in which it binds and
unbinds, and reports the same diagnostics in the same order, whatever fails on the way.
-/

namespace PiCalculus

/-- One diagnostic at `loc` for each of `names` that is not among `known`. -/
def outOfScope (known : Finset String) (names : List String) (loc : Location)
    : List Diagnostic :=
  (names.filter (· ∉ known)).map fun name => ⟨.unboundName name, loc⟩

namespace Agent

/-- The references of an agent that lead nowhere, where `known` are the names in scope and
`declared` the agents that can be called. An open reference in front of a continuation hides
the continuation; the two sides of an operator are looked at in any case.
-/
def openReferences (declared : List String) : Agent → Finset String → List Diagnostic
  | inert _, _ => []
  | silent next _, known => next.openReferences declared known
  | receive subject object next loc, known =>
      if subject ∈ known then next.openReferences declared (insert object known)
      else [⟨.unboundName subject, loc⟩]
  | send subject object next loc, known =>
      if subject ∈ known ∧ object ∈ known then next.openReferences declared known
      else outOfScope known [subject, object] loc
  | compare left right next loc, known =>
      if left ∈ known ∧ right ∈ known then next.openReferences declared known
      else outOfScope known [left, right] loc
  | restrict name next _, known => next.openReferences declared (insert name known)
  | choice left right _, known =>
      left.openReferences declared known ++ right.openReferences declared known
  | parallel left right _, known =>
      left.openReferences declared known ++ right.openReferences declared known
  | call name arguments loc, known =>
      if name ∈ declared then outOfScope known arguments loc
      else [⟨.unknownAgent name, loc⟩]

end Agent

/-- The open references of all bodies, in the order of the declarations. -/
def Program.openReferences (program : Program) : List Diagnostic :=
  program.declarations.flatMap fun declaration =>
    declaration.body.openReferences program.names declaration.parameters.toFinset

-----------------------------------------------------------------------------------------
-- Sets of names and tables of names
-----------------------------------------------------------------------------------------

namespace Scope

variable {scope : Scope} {known : Finset String}

/-- The names that have an id are those in `known`. -/
def Knows (scope : Scope) (known : Finset String) : Prop :=
  ∀ name, (∃ id, scope.resolve? name = some id) ↔ name ∈ known

theorem Knows.bind (knows : scope.Knows known) (name : String)
    : (scope.bind name).Knows (insert name known) := by
  intro other
  rw [resolve?_bind, Finset.mem_insert, ← knows other]
  split <;> simp_all

theorem Knows.unbound (knows : scope.Knows known) (names : List String) (loc : Location)
    : scope.unbound names loc = outOfScope known names loc := by
  have missing (name : String)
      : (scope.resolve? name).isNone = decide (name ∉ known) := by
    have found := knows name
    cases resolved : scope.resolve? name <;> simp_all
  simp only [Scope.unbound, outOfScope, missing]

theorem knows_parameters (declaration : Declaration)
    : declaration.scope.Knows declaration.parameters.toFinset := by
  intro name
  simp [Declaration.scope, exists_resolve?_bindAll_iff]

end Scope

theorem outOfScope_eq_nil_iff {known : Finset String} {names : List String} {loc : Location}
    : outOfScope known names loc = [] ↔ ∀ name ∈ names, name ∈ known := by
  simp [outOfScope]

theorem exists_of_mem_outOfScope {known : Finset String} {names : List String}
    {loc : Location} {diagnostic : Diagnostic}
    (member : diagnostic ∈ outOfScope known names loc)
    : ∃ name ∈ names, name ∉ known ∧ diagnostic.problem = .unboundName name := by
  obtain ⟨name, missing, rfl⟩ := List.mem_map.mp member
  obtain ⟨listed, unknown⟩ := List.mem_filter.mp missing
  exact ⟨name, listed, by simpa using unknown, rfl⟩

namespace Agent

/-- A table of names finds the faults that the set of its names finds. -/
theorem faults_eq_openReferences {agents : Indices} {declared : List String} {agent : Agent}
    {scope : Scope} {known : Finset String}
    (callable : ∀ name, (∃ index, agents[name]? = some index) ↔ name ∈ declared)
    (knows : scope.Knows known)
    : agent.faults agents scope = agent.openReferences declared known := by
  induction agent generalizing scope known with
  | inert loc => rfl
  | silent next loc ih => exact ih knows
  | receive subject object next loc ih =>
      simp only [faults, openReferences, knows.unbound]
      by_cases found : subject ∈ known
      · simpa [outOfScope, found] using ih (knows.bind object)
      · simp [outOfScope, found]
  | send left right next loc ih | compare left right next loc ih =>
      simp only [faults, openReferences, knows.unbound]
      split
      next closed =>
        have found : left ∈ known ∧ right ∈ known := by
          simpa using outOfScope_eq_nil_iff.mp closed
        rw [if_pos found]
        exact ih knows
      next missing =>
        have missing : ¬ (left ∈ known ∧ right ∈ known) := by
          simpa [outOfScope_eq_nil_iff] using missing
        rw [if_neg missing]
  | restrict name next loc ih => exact ih (knows.bind name)
  | choice left right loc hl hr | parallel left right loc hl hr =>
      simp only [faults, openReferences, hl knows, hr knows]
  | call name arguments loc =>
      simp only [faults, openReferences, knows.unbound]
      cases found : agents[name]? with
      | none =>
          have unknown : name ∉ declared := by simp [← callable, found]
          rw [if_neg unknown]
      | some index =>
          have known : name ∈ declared := (callable name).mp ⟨index, found⟩
          rw [if_pos known]

/-- What an open reference is about: a free name that is not in scope, or a called agent that
is not declared.
-/
inductive Dangling (declared : List String) (known : Finset String) (agent : Agent)
    : Problem → Prop
  | name {name : String} (free : name ∈ agent.freeNames) (unknown : name ∉ known)
    : Dangling declared known agent (.unboundName name)
  | agent {name : String} (called : name ∈ agent.called) (undeclared : name ∉ declared)
    : Dangling declared known agent (.unknownAgent name)

/-- A reference that dangles in a part of an agent dangles in the agent, if what the part knows
beyond the agent is bound in front of it.
-/
theorem Dangling.outer {declared : List String} {known inner : Finset String}
    {agent part : Agent} {problem : Problem} (dangling : part.Dangling declared inner problem)
    (names : ∀ name ∈ part.freeNames, name ∉ inner → name ∈ agent.freeNames ∧ name ∉ known)
    (agents : part.called ⊆ agent.called)
    : agent.Dangling declared known problem := by
  cases dangling with
  | name free unknown =>
      obtain ⟨free, unknown⟩ := names _ free unknown
      exact .name free unknown
  | agent called undeclared => exact .agent (agents called) undeclared

theorem dangling_of_mem_outOfScope {declared names : List String} {known : Finset String}
    {agent : Agent} {loc : Location} {diagnostic : Diagnostic}
    (free : ∀ name ∈ names, name ∈ agent.freeNames)
    (member : diagnostic ∈ outOfScope known names loc)
    : agent.Dangling declared known diagnostic.problem := by
  obtain ⟨name, member, unknown, about⟩ := exists_of_mem_outOfScope member
  rw [about]
  exact .name (free name member) unknown

theorem dangling_of_mem_openReferences {declared : List String} {agent : Agent}
    {known : Finset String} {diagnostic : Diagnostic}
    (member : diagnostic ∈ agent.openReferences declared known)
    : agent.Dangling declared known diagnostic.problem := by
  induction agent generalizing known with
  | inert loc => cases member
  | silent next loc ih => exact (ih member).outer (by grind [freeNames]) (by simp [called])
  | receive subject object next loc ih =>
      simp only [openReferences] at member
      split at member
      next => exact (ih member).outer (by grind [freeNames]) (by simp [called])
      next unknown =>
        cases List.mem_singleton.mp member
        exact .name (by simp [freeNames]) unknown
  | send left right next loc ih | compare left right next loc ih =>
      simp only [openReferences] at member
      split at member
      next => exact (ih member).outer (by grind [freeNames]) (by simp [called])
      next => exact dangling_of_mem_outOfScope (by simp [freeNames]) member
  | restrict name next loc ih =>
      exact (ih member).outer (by grind [freeNames]) (by simp [called])
  | choice left right loc hl hr | parallel left right loc hl hr =>
      rcases List.mem_append.mp member with member | member
      · exact (hl member).outer (by grind [freeNames]) (by grind [called])
      · exact (hr member).outer (by grind [freeNames]) (by grind [called])
  | call name arguments loc =>
      simp only [openReferences] at member
      split at member
      next => exact dangling_of_mem_outOfScope (by simp [freeNames]) member
      next undeclared =>
        cases List.mem_singleton.mp member
        exact .agent (by simp [called]) undeclared

theorem exists_openReferences_problem {declared : List String} {agent : Agent}
    {known : Finset String} {diagnostic : Diagnostic}
    (member : diagnostic ∈ agent.openReferences declared known)
    : ∃ name,
        diagnostic.problem = .unboundName name ∨ diagnostic.problem = .unknownAgent name := by
  obtain ⟨problem, loc⟩ := diagnostic
  cases dangling_of_mem_openReferences member with
  | name => exact ⟨_, .inl rfl⟩
  | agent => exact ⟨_, .inr rfl⟩

end Agent

namespace Program

variable {program : Program}

theorem faults_eq (program : Program) : program.faults = program.openReferences := by
  have same (declaration : Declaration)
      : declaration.body.faults program.indices declaration.scope
        = declaration.body.openReferences program.names declaration.parameters.toFinset :=
    Agent.faults_eq_openReferences (fun _ => exists_index_iff)
      (Scope.knows_parameters declaration)
  simp only [faults, openReferences, same]

/-- In a program with distinct names and an entry point, exactly the open references are
reported, and without any there is a text.
-/
theorem convert_reports_open_references (distinct : program.names.Nodup)
    (entry : entryPoint ∈ program.names) (layout : Layout)
    : (program.openReferences = [] → ∃ text, program.convert layout = .ok text)
      ∧ (program.openReferences ≠ []
        → ∃ report, program.convert layout = .error report
            ∧ report.toList = program.openReferences)
      ∧ ∀ diagnostic ∈ program.openReferences,
          diagnostic.kind = .naming
          ∧ ∃ name,
              diagnostic.problem = .unboundName name
                ∧ diagnostic.message = "Unbound name `" ++ name ++ "`"
              ∨ diagnostic.problem = .unknownAgent name
                ∧ diagnostic.message = "Unknown recursion variable `" ++ name ++ "`" := by
  have problems : program.problems = program.openReferences := by
    simp [problems, misdeclared, duplicates_eq_nil_iff.mpr distinct, entry, faults_eq]
  obtain ⟨text, settled⟩ := program.exists_convert_eq layout
  rw [problems] at settled
  refine ⟨?_, ?_, ?_⟩
  · intro none
    refine ⟨text, ?_⟩
    rw [settled, none]
    rfl
  · intro some
    obtain ⟨first, others, found⟩ := List.exists_cons_of_ne_nil some
    refine ⟨⟨first, others⟩, ?_, found.symm⟩
    rw [settled, settle_eq_error_iff]
    exact found
  · intro diagnostic member
    obtain ⟨declaration, _, member⟩ := List.mem_flatMap.mp member
    obtain ⟨problem, loc⟩ := diagnostic
    obtain ⟨name, rfl | rfl⟩ := Agent.exists_openReferences_problem member
    · exact ⟨rfl, name, .inl ⟨rfl, rfl⟩⟩
    · exact ⟨rfl, name, .inr ⟨rfl, rfl⟩⟩

/-- Open references on both sides of operators, behind binders of the same name, and behind
other open references.
-/
def loose : Program :=
  ⟨[⟨"Main", ["a"],
      .parallel
        (.choice
          (.receive "a" "b" (.send "b" "c" (.send "u" "u" (.inert ⟨0, 3⟩) ⟨0, 2⟩) ⟨0, 1⟩) ⟨0, 0⟩)
          (.restrict "c" (.compare "b" "b" (.inert ⟨1, 2⟩) ⟨1, 1⟩) ⟨1, 0⟩) ⟨0, 9⟩)
        (.silent (.call "Main" ["b", "a", "c"] ⟨2, 1⟩) ⟨2, 0⟩) ⟨1, 9⟩,
      .start⟩,
    ⟨"Other", [], .call "Missing" ["b"] ⟨3, 0⟩, ⟨3, 0⟩⟩]⟩

theorem loose_reported
    : loose.names.Nodup
      ∧ entryPoint ∈ loose.names
      ∧ ∃ report, loose.convert .standard = .error report
          ∧ report.toList
            = [⟨.unboundName "c", ⟨0, 1⟩⟩, ⟨.unboundName "b", ⟨1, 1⟩⟩,
                ⟨.unboundName "b", ⟨1, 1⟩⟩, ⟨.unboundName "b", ⟨2, 1⟩⟩,
                ⟨.unboundName "c", ⟨2, 1⟩⟩, ⟨.unknownAgent "Missing", ⟨3, 0⟩⟩] := by
  have distinct : loose.names.Nodup := by decide
  have entry : entryPoint ∈ loose.names := by decide
  obtain ⟨report, result, reported⟩ :=
    (convert_reports_open_references distinct entry .standard).2.1 (by decide +kernel)
  exact ⟨distinct, entry, report, result, reported.trans (by decide +kernel)⟩

end Program

end PiCalculus
