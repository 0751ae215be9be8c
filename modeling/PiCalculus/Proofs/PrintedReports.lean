import PiCalculus.Conversion
import PiCalculus.Proofs.Decoding
import PiCalculus.Proofs.Lines
import PiCalculus.Proofs.OffendingCharacters
import PiCalculus.Proofs.OpenReferences
import PiCalculus.Proofs.ReadingFaults
import PiCalculus.Proofs.RoundTrip

/-! A report about a source is printed with one line for each diagnostic. Messages quote nothing
but lexemes of the source, and these hold no line break, so the printed lines can be told apart
and read back.
-/

namespace PiCalculus

/-- The texts that stand in the message of a problem but come from elsewhere. -/
def Problem.quoted : Problem → List String
  | unexpected _ found => [found.spelling]
  | unboundName name | unknownAgent name => [name]
  | remark _ text => [text]
  | _ => []

/-- What a diagnostic quotes is spelled by some of these tokens. -/
def Diagnostic.QuotesFrom (tokens : List Token) (diagnostic : Diagnostic) : Prop :=
  ∀ text ∈ diagnostic.problem.quoted, ∃ token ∈ tokens, token.lexeme.spelling = text

/-- Reads a printed place, up to where the message starts. -/
def Location.decode : Decoder Location := do
  Decoder.expect "("
  let line ← Decoder.number ", "
  let column ← Decoder.number "): "
  return ⟨line - 1, column - 1⟩

/-- The place and the message on a printed line. -/
def readLine? (line : List Char) : Option (Location × String) :=
  (Location.decode.run line).map fun (loc, message) => (loc, String.ofList message)

/-- The places and messages of a printed report, line by line. -/
def readReport? (text : String) : Option (List (Location × String)) :=
  (text.toList.splitOn '\n').mapM readLine?

-----------------------------------------------------------------------------------------
-- Messages and what they quote
-----------------------------------------------------------------------------------------

theorem Solid.quoting {lead text : String} (solid : Solid lead) (unbroken : '\n' ∉ text.toList)
    : Solid (lead ++ text ++ "`") :=
  (solid.append text unbroken).append "`" (by simp)

theorem Expectation.newline_not_mem_describe (wanted : Expectation)
    : '\n' ∉ wanted.describe.toList := by
  cases wanted <;> simp [describe]

namespace Lexeme

theorem newline_not_mem_describe {lexeme : Lexeme}
    (unbroken : '\n' ∉ lexeme.spelling.toList)
    : '\n' ∉ lexeme.describe.toList := by
  cases lexeme with
  | name text =>
      have lead : Solid "identifier `" := by simp [Solid]
      exact (lead.quoting unbroken).2
  | number text =>
      have lead : Solid "number `" := by simp [Solid]
      exact (lead.quoting unbroken).2
  | _ => decide

theorem Proper.newline_not_mem_spelling {lexeme : Lexeme} (proper : lexeme.Proper)
    : '\n' ∉ lexeme.spelling.toList := by
  cases lexeme with
  | name text =>
      intro member
      exact absurd (List.all_eq_true.mp proper.2.1 _ member) (by decide)
  | number text =>
      intro member
      exact absurd (proper.2 _ member) (by decide)
  | _ => decide

end Lexeme

theorem Problem.newline_not_mem_message {problem : Problem}
    (unbroken : ∀ text ∈ problem.quoted, '\n' ∉ text.toList)
    : '\n' ∉ problem.message.toList := by
  cases problem with
  | unexpected wanted found =>
      have spelled : '\n' ∉ found.spelling.toList := unbroken _ (List.mem_singleton_self _)
      have lead : Solid "Expected " := by simp [Solid]
      have middle := (lead.append _ wanted.newline_not_mem_describe).append ", found " (by simp)
      exact (middle.append _ (Lexeme.newline_not_mem_describe spelled)).2
  | unboundName text =>
      have lead : Solid "Unbound name `" := by simp [Solid]
      exact (lead.quoting (unbroken _ (List.mem_singleton_self _))).2
  | unknownAgent text =>
      have lead : Solid "Unknown recursion variable `" := by simp [Solid]
      exact (lead.quoting (unbroken _ (List.mem_singleton_self _))).2
  | remark kind text => exact unbroken text (List.mem_singleton_self _)
  | _ => decide

namespace Diagnostic.QuotesFrom

variable {tokens others : List Token} {diagnostic : Diagnostic}

theorem mono (quotes : diagnostic.QuotesFrom tokens) (sub : tokens ⊆ others)
    : diagnostic.QuotesFrom others := by
  intro text quoted
  obtain ⟨token, member, spelled⟩ := quotes text quoted
  exact ⟨token, sub member, spelled⟩

theorem of_quoted_eq_nil (nothing : diagnostic.problem.quoted = [])
    : diagnostic.QuotesFrom tokens := by
  simp [QuotesFrom, nothing]

theorem newline_not_mem_message (quotes : diagnostic.QuotesFrom tokens)
    (proper : ∀ token ∈ tokens, token.lexeme.Proper)
    : '\n' ∉ diagnostic.message.toList := by
  apply Problem.newline_not_mem_message
  intro text quoted
  obtain ⟨token, member, rfl⟩ := quotes text quoted
  exact (proper token member).newline_not_mem_spelling

end Diagnostic.QuotesFrom

-----------------------------------------------------------------------------------------
-- Cutting
-----------------------------------------------------------------------------------------

/-- Wrong characters are not quoted. -/
theorem quoted_of_scan {source : String} {report : Report}
    (failed : scan source = .error report)
    : ∀ diagnostic ∈ report.toList, diagnostic.problem.quoted = [] := by
  rw [scan_eq, settle_eq_error_iff] at failed
  intro diagnostic member
  rw [← failed, faultsIn_eq] at member
  obtain ⟨⟨index, problem⟩, offense, rfl⟩ := List.mem_map.mp member
  cases mem_offenses_iff.mp offense with
  | unknown | letter => rfl

-----------------------------------------------------------------------------------------
-- Reading
-----------------------------------------------------------------------------------------

theorem Blamed.quotesFrom {before : List Token} {token : Token} {diagnostic : Diagnostic}
    (blamed : Blamed before token diagnostic)
    : diagnostic.QuotesFrom [token] := by
  cases blamed with
  | unexpected => simp [Diagnostic.QuotesFrom, Problem.quoted]
  | nonzero | arity => exact .of_quoted_eq_nil rfl

namespace Declaration

variable {last : Location} {tokens rest : List Token} {diagnostic : Diagnostic}

theorem quotesFrom_of_read (result : read last tokens = (.error diagnostic, rest))
    : diagnostic.QuotesFrom tokens := by
  unfold read at result
  split at result
  next => cases result
  next failed =>
    cases result
    obtain ⟨used, stop, run, ⟨_, _, rfl⟩ | ⟨token, tail, rfl, _, fault⟩⟩ :=
      Draft.exists_runs_of_read_error failed
    · exact .of_quoted_eq_nil rfl
    -- Everything but an early end is blamed on one token, and only that token is quoted.
    · have blamed := (Draft.Reads.blank.runs run).feed_fault fault
      exact blamed.quotesFrom.mono (by simp)

/-- Each round of reading quotes tokens that were left for it. -/
theorem quotesFrom_of_mem_readAll (last : Location) (tokens : List Token)
    : ∀ diagnostic ∈ (readAll last tokens).2.1, diagnostic.QuotesFrom tokens := by
  fun_induction readAll last tokens with
  | case1 => simp
  | case2 token tokens round declarations diagnostics _ later declaration _ ih =>
      intro diagnostic member
      rw [later] at ih
      exact (ih diagnostic member).mono
        (List.subset_cons_of_subset token (read_cons_suffix last token tokens).subset)
  | case3 token tokens round declarations diagnostics _ later first failed ih =>
      intro diagnostic member
      rw [later] at ih
      rcases List.mem_cons.mp member with rfl | member
      · exact quotesFrom_of_read (Prod.ext failed rfl)
      · exact (ih diagnostic member).mono
          (List.subset_cons_of_subset token (read_cons_suffix last token tokens).subset)

end Declaration

theorem Program.quotesFrom_of_ofTokens {tokens : List Token} {report : Report}
    (failed : ofTokens tokens = .error report)
    : ∀ diagnostic ∈ report.toList, diagnostic.QuotesFrom tokens := by
  rw [ofTokens_eq, settle_eq_error_iff] at failed
  rw [← failed]
  exact Declaration.quotesFrom_of_mem_readAll _ tokens

-----------------------------------------------------------------------------------------
-- Converting
-----------------------------------------------------------------------------------------

namespace Agent

theorem mem_allNames_of_free {agent : Agent} {name : String} (free : name ∈ agent.freeNames)
    : name ∈ agent.allNames := by
  induction agent with
  | call => simp_all [freeNames, allNames]
  | _ => grind [freeNames, allNames]

theorem mem_allNames_of_called {agent : Agent} {name : String} (called : name ∈ agent.called)
    : name ∈ agent.allNames := by
  induction agent with
  | call => simp_all [Agent.called, allNames]
  | _ => grind [Agent.called, allNames]

theorem Dangling.quoted_subset {declared : List String} {known : Finset String} {agent : Agent}
    {problem : Problem} (dangling : agent.Dangling declared known problem)
    : problem.quoted ⊆ agent.allNames := by
  cases dangling with
  | name free => simpa [Problem.quoted] using mem_allNames_of_free free
  | agent called => simpa [Problem.quoted] using mem_allNames_of_called called

end Agent

namespace Program

variable {program : Program} {diagnostic : Diagnostic}

/-- What is reported about a program quotes names of that program. -/
theorem quoted_subset_of_mem_problems (member : diagnostic ∈ program.problems)
    : diagnostic.problem.quoted ⊆ program.allNames := by
  unfold problems at member
  split at member
  next =>
    rw [faults_eq] at member
    obtain ⟨declaration, listed, member⟩ := List.mem_flatMap.mp member
    intro text quoted
    have mentioned := (Agent.dangling_of_mem_openReferences member).quoted_subset quoted
    refine List.mem_flatMap.mpr ⟨declaration, listed, ?_⟩
    exact List.mem_cons_of_mem _ (List.mem_append_right _ mentioned)
  next =>
    obtain ⟨problem, loc⟩ := diagnostic
    rcases cases_of_mem_misdeclared member with duplicate | missing
    · cases duplicate
      exact List.nil_subset _
    · cases missing
      exact List.nil_subset _

theorem Derives.quotesFrom {tokens : List Token} (derived : Derives tokens program)
    (member : diagnostic ∈ program.problems)
    : diagnostic.QuotesFrom tokens := by
  intro text quoted
  have named := quoted_subset_of_mem_problems member quoted
  rw [← derived.namesIn_eq] at named
  obtain ⟨token, listed, lexeme⟩ := mem_namesIn named
  exact ⟨token, listed, by rw [lexeme]; rfl⟩

end Program

/-- Whichever stage fails, messages quote lexemes that can be spelled. -/
theorem exists_quotesFrom {source : String} {layout : Layout} {report : Report}
    (failed : convertSource source layout = .error report)
    : ∃ tokens,
        (∀ token ∈ tokens, token.lexeme.Proper)
        ∧ ∀ diagnostic ∈ report.toList, diagnostic.QuotesFrom tokens := by
  rcases convertSource_eq_error_iff.mp failed with failed | ⟨program, read, failed⟩
  · rcases Program.ofSource_eq_error_iff.mp failed with failed | ⟨tokens, cut, failed⟩
    -- Without tokens there is nothing to quote, and wrong characters are not quoted.
    · refine ⟨[], nofun, ?_⟩
      intro diagnostic member
      exact .of_quoted_eq_nil (quoted_of_scan failed diagnostic member)
    · have lexed := scan_eq_ok_iff_lexed.mp cut
      exact ⟨tokens, lexed.proper, Program.quotesFrom_of_ofTokens failed⟩
  · obtain ⟨tokens, lexed, derived⟩ := Program.ofSource_eq_ok_iff.mp read
    refine ⟨tokens, lexed.proper, ?_⟩
    intro diagnostic member
    rw [← Program.convert_eq_error_iff.mp failed] at member
    exact derived.quotesFrom member

-----------------------------------------------------------------------------------------
-- Printed lines
-----------------------------------------------------------------------------------------

theorem Location.newline_not_mem_display (loc : Location) : '\n' ∉ loc.display.toList := by
  have opening : Solid "(" := by simp [Solid]
  have line := (opening.append _ (newline_not_mem_toString (loc.line + 1))).append ", " (by simp)
  exact ((line.append _ (newline_not_mem_toString (loc.column + 1))).append ")" (by simp)).2

theorem Location.reads_decode (loc : Location) : decode.Reads (loc.display ++ ": ") loc := by
  have text : loc.display ++ ": "
      = "("
        ++ (toString (loc.line + 1) ++ ", "
          ++ (toString (loc.column + 1) ++ "): ")) := by
    simp [display, String.append_assoc]
  rw [text]
  exact (Decoder.reads_expect "(").bind ((Decoder.reads_number (by decide) _).bind
    ((Decoder.reads_number (by decide) _).bind_pure _))

theorem readLine?_display (diagnostic : Diagnostic)
    : readLine? diagnostic.display.toList = some (diagnostic.loc, diagnostic.message) := by
  have read := diagnostic.loc.reads_decode diagnostic.message.toList
  rw [← String.toList_append] at read
  rw [readLine?, Diagnostic.display, read]
  simp

namespace Report

variable {report : Report}

theorem splitOn_display
    (unbroken : ∀ diagnostic ∈ report.toList, '\n' ∉ diagnostic.message.toList)
    : report.display.toList.splitOn '\n' = report.toList.map (·.display.toList) := by
  have lines : ∀ line ∈ report.toList.map (·.display.toList), '\n' ∉ line := by
    intro line member
    obtain ⟨diagnostic, listed, rfl⟩ := List.mem_map.mp member
    have place := diagnostic.loc.newline_not_mem_display
    have message := unbroken diagnostic listed
    simp only [Diagnostic.display, String.toList_append, List.mem_append, not_or]
    exact ⟨⟨place, by simp⟩, message⟩
  have split := List.splitOn_intercalate '\n' lines (by simp)
  simpa [display, String.toList_intercalate, Function.comp_def] using split

theorem readReport?_display
    (unbroken : ∀ diagnostic ∈ report.toList, '\n' ∉ diagnostic.message.toList)
    : readReport? report.display
      = some (report.toList.map fun diagnostic => (diagnostic.loc, diagnostic.message)) := by
  rw [readReport?, splitOn_display unbroken, mapM_eq_some_iff, List.forall₂_map_left_iff,
    List.forall₂_map_right_iff, List.forall₂_same]
  exact fun diagnostic _ => readLine?_display diagnostic

end Report

/-- Each diagnostic about a source is printed on one line: its place, counted from one, and its
message. From the printed report all places and messages can be read back.
-/
theorem convertSource_prints_line_by_line {source : String} {layout : Layout} {report : Report}
    (failed : convertSource source layout = .error report)
    : (∀ diagnostic ∈ report.toList, '\n' ∉ diagnostic.message.toList)
      ∧ (report.display.toList.splitOn '\n').length = report.size
      ∧ report.display.toList.splitOn '\n'
        = report.toList.map (fun diagnostic =>
            ("(" ++ toString (diagnostic.loc.line + 1) ++ ", "
              ++ toString (diagnostic.loc.column + 1) ++ "): " ++ diagnostic.message).toList)
      ∧ readReport? report.display
        = some (report.toList.map fun diagnostic => (diagnostic.loc, diagnostic.message)) := by
  obtain ⟨tokens, proper, quotes⟩ := exists_quotesFrom failed
  have unbroken : ∀ diagnostic ∈ report.toList, '\n' ∉ diagnostic.message.toList := by
    intro diagnostic member
    exact (quotes diagnostic member).newline_not_mem_message proper
  have lines := Report.splitOn_display unbroken
  refine ⟨unbroken, ?_, ?_, Report.readReport?_display unbroken⟩
  · rw [lines, List.length_map, Report.size]
  · rw [lines]
    refine List.map_congr_left fun diagnostic _ => ?_
    simp [Diagnostic.display, Location.display]

/-- Three malformed declarations, two of which are reported with a lexeme. -/
def misplaced : String := "agent A = 1;\nagent 42;agent B = x(y\nz;"

theorem misplaced_printed_line_by_line
    : ∃ report, convertSource misplaced .standard = .error report
        ∧ (report.display.toList.splitOn '\n').length = 3
        ∧ readReport? report.display
          = some
              [(⟨0, 10⟩, "The only number that can be used as a process is 0"),
                (⟨1, 6⟩, "Expected an identifier, found number `42`"),
                (⟨2, 0⟩, "Expected `)` as closing delimiter for recursive call, "
                  ++ "found identifier `z`")] := by
  have failed : convertSource misplaced .standard
      = .error ⟨⟨.nonzeroAgent, ⟨0, 10⟩⟩,
          [⟨.unexpected .identifier (.number "42"), ⟨1, 6⟩⟩,
            ⟨.unexpected .endOfCall (.name "z"), ⟨2, 0⟩⟩]⟩ := by
    decide +kernel
  obtain ⟨_, lines, _, back⟩ := convertSource_prints_line_by_line failed
  exact ⟨_, failed, lines, back⟩

end PiCalculus
