import PiCalculus.Conversion
import PiCalculus.Proofs.LexicalLanguage
import PiCalculus.Proofs.OpenReferences
import PiCalculus.Proofs.ReadingFaults
import PiCalculus.Proofs.RoundTrip

/-! Diagnostics follow the source. Those of one report are of one kind, point at characters
of the source, and come in the order of these characters. The places of tokens run through
the text in order, so do those of the nodes of a program, and every stage keeps to its input.
-/

namespace PiCalculus

namespace Location

/-- On an earlier line, or further left on the same one. -/
def Before (loc other : Location) : Prop :=
  loc.line < other.line ∨ loc.line = other.line ∧ loc.column < other.column

def AtOrBefore (loc other : Location) : Prop := loc = other ∨ loc.Before other

/-- A character of `text` stands at `loc`. -/
def IsIn (loc : Location) (text : List Char) : Prop :=
  ∃ before c rest, text = before ++ c :: rest ∧ loc = .behind before

/-- The places of the characters of `text`, the first of which stands at `loc`. -/
def places (loc : Location) : List Char → List Location
  | [] => []
  | c :: rest => loc :: (loc.next c).places rest

theorem Before.trans {first second third : Location} (h : first.Before second)
    (next : second.Before third)
    : first.Before third := by
  unfold Before at *
  omega

theorem before_next (loc : Location) (c : Char) : loc.Before (loc.next c) := by
  unfold Before next
  split <;> simp

theorem atOrBefore_of_mem_places {loc place : Location} {text : List Char}
    (member : place ∈ loc.places text)
    : loc.AtOrBefore place := by
  induction text generalizing loc with
  | nil => cases member
  | cons c rest ih =>
      rcases List.mem_cons.mp member with rfl | member
      · exact .inl rfl
      · right
        rcases ih member with rfl | later
        · exact loc.before_next c
        · exact (loc.before_next c).trans later

theorem pairwise_places (loc : Location) (text : List Char)
    : (loc.places text).Pairwise Before := by
  induction text generalizing loc with
  | nil => exact .nil
  | cons c rest ih =>
      refine .cons ?_ (ih (loc.next c))
      intro place member
      rcases atOrBefore_of_mem_places member with rfl | later
      · exact loc.before_next c
      · exact (loc.before_next c).trans later

theorem places_append (loc : Location) (text rest : List Char)
    : loc.places (text ++ rest) = loc.places text ++ (loc.after text).places rest := by
  induction text generalizing loc with
  | nil => rfl
  | cons c text ih => simp [places, ih]

theorem exists_of_mem_places {loc place : Location} {text : List Char}
    (member : place ∈ loc.places text)
    : ∃ before c rest, text = before ++ c :: rest ∧ place = loc.after before := by
  induction text generalizing loc with
  | nil => cases member
  | cons c text ih =>
      rcases List.mem_cons.mp member with rfl | member
      · exact ⟨[], c, text, rfl, rfl⟩
      · obtain ⟨before, d, rest, rfl, rfl⟩ := ih member
        exact ⟨c :: before, d, rest, rfl, rfl⟩

theorem isIn_of_mem_places {place : Location} {text : List Char}
    (member : place ∈ Location.start.places text)
    : place.IsIn text := by
  obtain ⟨before, c, rest, split, rfl⟩ := exists_of_mem_places member
  exact ⟨before, c, rest, split, after_start before⟩

end Location

-----------------------------------------------------------------------------------------
-- Cutting into tokens
-----------------------------------------------------------------------------------------

namespace Scanner

/-- Reading a character reports at most that character. -/
theorem faults_read (scanner : Scanner) (c : Char)
    : (scanner.read c).faults = scanner.faults
      ∨ ∃ problem, problem.kind = .malformed
          ∧ (scanner.read c).faults = scanner.faults.push ⟨problem, scanner.loc⟩ := by
  unfold read enter close fault
  repeat' split
  all_goals first
    | exact .inl rfl
    | exact .inr ⟨_, rfl, rfl⟩

/-- A run reports characters of the text, in their order. -/
theorem exists_faults_run (scanner : Scanner) (text : List Char)
    : ∃ found,
        (scanner.run text).faults.toList = scanner.faults.toList ++ found
        ∧ (∀ diagnostic ∈ found, diagnostic.kind = .malformed)
        ∧ (found.map Diagnostic.loc).Sublist (scanner.loc.places text) := by
  induction text generalizing scanner with
  | nil => exact ⟨[], by simp [run, faults_close], by simp, by simp⟩
  | cons c rest ih =>
      obtain ⟨found, result, kind, placed⟩ := ih (scanner.step c)
      rw [loc_step] at placed
      rw [run_cons, result]
      have faults : (scanner.step c).faults = (scanner.read c).faults := rfl
      rw [faults]
      rcases scanner.faults_read c with same | ⟨problem, malformed, added⟩
      · rw [same]
        exact ⟨found, rfl, kind, placed.cons _⟩
      · rw [added]
        refine ⟨⟨problem, scanner.loc⟩ :: found, by simp, ?_, ?_⟩
        · exact List.forall_mem_cons.mpr ⟨malformed, kind⟩
        · exact placed.cons_cons _

end Scanner

theorem Lexed.sublist_places {loc : Location} {text : List Char} {tokens : List Token}
    (lexed : Lexed loc text tokens)
    : (tokens.map Token.loc).Sublist (loc.places text) := by
  induction lexed with
  | nil => exact .slnil
  | blank _ _ ih => exact ih.cons _
  | comment _ _ _ ih =>
      refine .cons _ ?_
      rw [Location.places_append]
      exact ih.trans (List.sublist_append_right _ _)
  | symbol _ _ ih => exact ih.cons_cons _
  | word _ _ _ _ ih | number _ _ _ _ ih =>
      refine .cons_cons _ ?_
      rw [Location.places_append]
      exact ih.trans (List.sublist_append_right _ _)

-----------------------------------------------------------------------------------------
-- Converting programs
-----------------------------------------------------------------------------------------

/-- The places of an agent's nodes, in the order in which they are written. -/
def Agent.places : Agent → List Location
  | inert loc | call _ _ loc => [loc]
  | silent next loc | receive _ _ next loc | send _ _ next loc | compare _ _ next loc
  | restrict _ next loc => loc :: next.places
  | choice left right loc | parallel left right loc => left.places ++ loc :: right.places

def Declaration.places (declaration : Declaration) : List Location :=
  declaration.loc :: declaration.body.places

def Program.places (program : Program) : List Location :=
  program.declarations.flatMap Declaration.places

theorem Agent.Derives.places_sublist {level : Level} {tokens : List Token} {agent : Agent}
    (derived : Derives level tokens agent)
    : agent.places.Sublist (tokens.map Token.loc) := by
  induction derived with
  | name | inert => exact .refl _
  | emptyCall | call =>
      rw [places, List.singleton_sublist]
      exact List.mem_cons_self
  | silent _ ih => exact (ih.cons _).cons_cons _
  | receive _ _ ih =>
      simp only [List.map_cons, List.map_append]
      refine .cons_cons _ (.cons _ ?_)
      exact ((ih.cons _).cons _).trans (List.sublist_append_right _ _)
  | send _ ih => exact (((ih.cons _).cons _).cons _).cons_cons _
  | compare _ ih => exact ((((ih.cons _).cons _).cons _).cons _).cons_cons _
  | restrict _ ih => exact (((ih.cons _).cons _).cons _).cons_cons _
  | group _ ih =>
      rw [List.map_cons, List.map_append]
      exact (ih.trans (List.sublist_append_left _ _)).cons _
  | product _ ih | total _ ih => exact ih
  | parallel _ _ left right | choice _ _ left right =>
      rw [List.map_append]
      exact left.append (right.cons_cons _)

theorem Declaration.Derives.places_sublist {tokens : List Token} {declaration : Declaration}
    (derived : Derives tokens declaration)
    : declaration.places.Sublist (tokens.map Token.loc) := by
  cases derived with
  | intro _ body =>
      simp only [List.map_cons, List.map_append]
      refine .cons_cons _ (.cons _ ?_)
      refine .trans (.cons _ ?_) (List.sublist_append_right _ _)
      exact body.places_sublist.trans (List.sublist_append_left _ _)

theorem Program.Derives.places_sublist {tokens : List Token} {program : Program}
    (derived : Derives tokens program)
    : program.places.Sublist (tokens.map Token.loc) := by
  induction derived with
  | nil => exact .slnil
  | cons first _ ih =>
      rw [List.map_append]
      exact first.places_sublist.append ih

/-- The diagnostics stand at some of the places, in their order; several may share one. -/
inductive Along : List Location → List Diagnostic → Prop
  | nil {places} : Along places []
  | skip {loc places diagnostics} (rest : Along places diagnostics)
    : Along (loc :: places) diagnostics
  | here {loc places problem diagnostics} (rest : Along (loc :: places) diagnostics)
    : Along (loc :: places) (⟨problem, loc⟩ :: diagnostics)

namespace Along

variable {places more : List Location} {diagnostics others : List Diagnostic}

theorem prepend (along : Along places diagnostics) (before : List Location)
    : Along (before ++ places) diagnostics := by
  induction before with
  | nil => exact along
  | cons loc before ih => exact ih.skip

theorem append (along : Along places diagnostics) (rest : Along more others)
    : Along (places ++ more) (diagnostics ++ others) := by
  induction along with
  | @nil places => exact rest.prepend places
  | skip _ ih => exact ih.skip
  | here _ ih => exact ih.here

theorem mem (along : Along places diagnostics)
    : ∀ diagnostic ∈ diagnostics, diagnostic.loc ∈ places := by
  induction along with
  | nil => simp
  | skip _ ih => exact fun diagnostic member => List.mem_cons_of_mem _ (ih diagnostic member)
  | here _ ih => exact List.forall_mem_cons.mpr ⟨List.mem_cons_self, ih⟩

/-- Places in order put the diagnostics in order. -/
theorem pairwise (along : Along places diagnostics)
    (ordered : places.Pairwise Location.Before)
    : (diagnostics.map Diagnostic.loc).Pairwise Location.AtOrBefore := by
  induction along with
  | nil => exact .nil
  | skip _ ih => exact ih ordered.of_cons
  | @here loc places problem diagnostics rest ih =>
      refine .cons ?_ (ih ordered)
      intro place member
      obtain ⟨diagnostic, inside, rfl⟩ := List.mem_map.mp member
      rcases List.mem_cons.mp (rest.mem diagnostic inside) with same | behind
      · exact .inl same.symm
      · exact .inr (List.rel_of_pairwise_cons ordered behind)

theorem outOfScope (known : Finset String) (names : List String) (loc : Location)
    : Along (loc :: places) (outOfScope known names loc) := by
  unfold PiCalculus.outOfScope
  induction names.filter (· ∉ known) with
  | nil => exact .nil
  | cons name names ih => exact ih.here

end Along

theorem Agent.along_openReferences (declared : List String) (agent : Agent)
    (known : Finset String)
    : Along agent.places (agent.openReferences declared known) := by
  induction agent generalizing known with
  | inert loc => exact .nil
  | silent next loc ih => exact (ih known).skip
  | receive subject object next loc ih =>
      simp only [openReferences]
      split
      next => exact (ih _).skip
      next => exact Along.nil.here
  | send left right next loc ih | compare left right next loc ih =>
      simp only [openReferences]
      split
      next => exact (ih known).skip
      next => exact .outOfScope known _ loc
  | restrict name next loc ih => exact (ih _).skip
  | choice left right loc hl hr | parallel left right loc hl hr =>
      exact (hl known).append (hr known).skip
  | call name arguments loc =>
      simp only [openReferences]
      split
      next => exact .outOfScope known arguments loc
      next => exact Along.nil.here

namespace Program

theorem along_openReferences (program : Program)
    : Along program.places program.openReferences := by
  obtain ⟨declarations⟩ := program
  unfold places openReferences
  generalize (⟨declarations⟩ : Program).names = declared
  induction declarations with
  | nil => exact .nil
  | cons declaration declarations ih =>
      have first := declaration.body.along_openReferences declared
        declaration.parameters.toFinset
      exact first.skip.append ih

theorem along_duplicates (program : Program) : Along program.places program.duplicates := by
  induction program using append_induction with
  | nil => exact .nil
  | append declarations declaration ih =>
      have added : (⟨declarations ++ [declaration]⟩ : Program).places
          = (⟨declarations⟩ : Program).places ++ declaration.places := by
        simp [places]
      rw [duplicates_append, added]
      refine ih.append ?_
      split
      next => exact Along.nil.here
      next => exact .nil

end Program

-----------------------------------------------------------------------------------------
-- Reports
-----------------------------------------------------------------------------------------

/-- Diagnostics at characters of the source, each in the given order to those behind it. -/
structure Placed (source : String) (order : Location → Location → Prop)
    (diagnostics : List Diagnostic) : Prop where
  inside : ∀ diagnostic ∈ diagnostics, diagnostic.loc.IsIn source.toList
  ordered : (diagnostics.map Diagnostic.loc).Pairwise order

/-- Each diagnostic stands where a token starts. -/
def AtTokens (tokens : List Token) (diagnostics : List Diagnostic) : Prop :=
  ∀ diagnostic ∈ diagnostics, ∃ token ∈ tokens, diagnostic.loc = token.loc

/-- How a report lies in its source, by the stage that fails. A missing entry point has no
place in the source; it is reported last and at the start.
-/
inductive Report.FollowsSource (source : String) (layout : Layout) (report : Report) : Prop
  | scanning (failed : scan source = .error report)
    (kind : ∀ diagnostic ∈ report.toList, diagnostic.kind = .malformed)
    (placed : Placed source Location.Before report.toList)
  | reading {tokens} (cut : scan source = .ok tokens)
    (failed : Program.ofTokens tokens = .error report)
    (kind : ∀ diagnostic ∈ report.toList, diagnostic.kind = .malformed)
    (placed : Placed source Location.Before report.toList)
    (starts : AtTokens tokens report.toList)
  | converting {tokens program located} (cut : scan source = .ok tokens)
    (read : Program.ofTokens tokens = .ok program)
    (failed : program.convert layout = .error report)
    (kind : ∀ diagnostic ∈ report.toList, diagnostic.kind = .naming)
    (split : report.toList = located ∨ report.toList = located ++ [⟨.noEntryPoint, .start⟩])
    (other : ∀ diagnostic ∈ located, diagnostic.problem ≠ .noEntryPoint)
    (placed : Placed source Location.AtOrBefore located) (starts : AtTokens tokens located)

theorem placed_of_sublist {source : String} {diagnostics : List Diagnostic}
    (within : (diagnostics.map Diagnostic.loc).Sublist (Location.start.places source.toList))
    : Placed source Location.Before diagnostics := by
  refine ⟨?_, (Location.pairwise_places _ _).sublist within⟩
  intro diagnostic member
  exact Location.isIn_of_mem_places (within.subset (List.mem_map_of_mem member))

theorem Along.placed {source : String} {places : List Location}
    {diagnostics : List Diagnostic} (along : Along places diagnostics)
    (within : places.Sublist (Location.start.places source.toList))
    : Placed source Location.AtOrBefore diagnostics := by
  refine ⟨?_, along.pairwise ((Location.pairwise_places _ _).sublist within)⟩
  intro diagnostic member
  exact Location.isIn_of_mem_places (within.subset (along.mem diagnostic member))

theorem atTokens_of_subset {tokens : List Token} {diagnostics : List Diagnostic}
    (contained : ∀ diagnostic ∈ diagnostics, diagnostic.loc ∈ tokens.map Token.loc)
    : AtTokens tokens diagnostics := by
  intro diagnostic member
  obtain ⟨token, found, place⟩ := List.mem_map.mp (contained diagnostic member)
  exact ⟨token, found, place.symm⟩

theorem report_of_scan {source : String} {report : Report}
    (failed : scan source = .error report)
    : (∀ diagnostic ∈ report.toList, diagnostic.kind = .malformed)
      ∧ (report.toList.map Diagnostic.loc).Sublist
          (Location.start.places source.toList) := by
  obtain ⟨found, faults, kind, placed⟩ :=
    (Scanner.fresh .start).exists_faults_run source.toList
  rw [scan_eq_run, Scanner.result, settle_eq_error_iff, faults] at failed
  have same : found = report.toList := failed
  rw [← same]
  exact ⟨kind, placed⟩

namespace Program

variable {program : Program}

theorem naming_of_mem_openReferences {diagnostic : Diagnostic}
    (member : diagnostic ∈ program.openReferences)
    : diagnostic.kind = .naming ∧ diagnostic.problem ≠ .noEntryPoint := by
  obtain ⟨declaration, _, member⟩ := List.mem_flatMap.mp member
  obtain ⟨problem, loc⟩ := diagnostic
  obtain ⟨name, rfl | rfl⟩ := Agent.exists_openReferences_problem member
  · exact ⟨rfl, nofun⟩
  · exact ⟨rfl, nofun⟩

theorem naming_of_mem_duplicates {diagnostic : Diagnostic}
    (member : diagnostic ∈ program.duplicates)
    : diagnostic.kind = .naming ∧ diagnostic.problem ≠ .noEntryPoint := by
  obtain ⟨problem, loc⟩ := diagnostic
  cases problem_of_mem_duplicates member
  exact ⟨rfl, nofun⟩

/-- The problems of a program stand along its nodes, all but a missing entry point. -/
theorem exists_located (program : Program)
    : ∃ located, Along program.places located
        ∧ (∀ diagnostic ∈ located,
            diagnostic.kind = .naming ∧ diagnostic.problem ≠ .noEntryPoint)
        ∧ (program.problems = located
          ∨ program.problems = located ++ [⟨.noEntryPoint, .start⟩]) := by
  unfold problems
  split
  next =>
    rw [faults_eq]
    exact ⟨_, along_openReferences program, fun _ => naming_of_mem_openReferences, .inl rfl⟩
  next =>
    refine ⟨_, along_duplicates program, fun _ => naming_of_mem_duplicates, ?_⟩
    unfold misdeclared
    split
    next => exact .inl (List.append_nil _)
    next => exact .inr rfl

end Program

/-- Diagnostics follow the source, whichever stage fails. -/
theorem convertSource_reports_in_source_order {source : String} {layout : Layout}
    {report : Report} (failed : convertSource source layout = .error report)
    : report.toList ≠ [] ∧ report.FollowsSource source layout := by
  refine ⟨report.toList_ne_nil, ?_⟩
  rcases convertSource_eq_error_iff.mp failed with failed | ⟨program, read, failed⟩
  · rcases Program.ofSource_eq_error_iff.mp failed with failed | ⟨tokens, cut, failed⟩
    · obtain ⟨kind, within⟩ := report_of_scan failed
      exact .scanning failed kind (placed_of_sublist within)
    · have within := (scan_eq_ok_iff_lexed.mp cut).sublist_places
      obtain ⟨kind, starts⟩ := Program.report_of_ofTokens failed
      exact .reading cut failed kind (placed_of_sublist (starts.trans within))
        (atTokens_of_subset fun _ member => starts.subset (List.mem_map_of_mem member))
  · obtain ⟨tokens, lexed, derived⟩ := Program.ofSource_eq_ok_iff.mp read
    have cut := scan_eq_ok_iff_lexed.mpr lexed
    have nodes := derived.places_sublist
    obtain ⟨located, along, naming, split⟩ := program.exists_located
    rw [Program.convert_eq_error_iff.mp failed] at split
    refine .converting cut derived.ofTokens failed ?_ split
      (fun _ member => (naming _ member).2) (along.placed (nodes.trans lexed.sublist_places))
      (atTokens_of_subset fun _ member => nodes.subset (along.mem _ member))
    intro diagnostic member
    rcases split with same | same
    · rw [same] at member
      exact (naming diagnostic member).1
    · rw [same] at member
      rcases List.mem_append.mp member with member | member
      · exact (naming diagnostic member).1
      · cases List.mem_singleton.mp member
        rfl

/-- Two names without a meaning in one node, and an undeclared agent on the next line. -/
def strayNames : String := "agent Main = a'b.0\n| Gone(x);"

theorem strayNames_in_source_order
    : ∃ report, convertSource strayNames .standard = .error report
        ∧ report.toList
          = [⟨.unboundName "a", ⟨0, 13⟩⟩, ⟨.unboundName "b", ⟨0, 13⟩⟩,
              ⟨.unknownAgent "Gone", ⟨1, 2⟩⟩]
        ∧ report.FollowsSource strayNames .standard := by
  have failed : convertSource strayNames .standard
      = .error ⟨⟨.unboundName "a", ⟨0, 13⟩⟩,
          [⟨.unboundName "b", ⟨0, 13⟩⟩, ⟨.unknownAgent "Gone", ⟨1, 2⟩⟩]⟩ := by
    decide +kernel
  exact ⟨_, failed, rfl, (convertSource_reports_in_source_order failed).2⟩

end PiCalculus
