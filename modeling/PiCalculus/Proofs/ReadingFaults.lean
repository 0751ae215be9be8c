import PiCalculus.Proofs.Segments

/-! What reading reports. A malformed declaration is reported at one of the tokens of its
segment, so the diagnostics of a program stand at tokens, in the order of the tokens and at
most one in each segment.
-/

namespace PiCalculus

/-- A fault of the text that is reported at `loc`. -/
def Diagnostic.MalformedAt (diagnostic : Diagnostic) (loc : Location) : Prop :=
  diagnostic.kind = .malformed ∧ diagnostic.loc = loc

/-- What is wrong with a token behind the tokens `before` it. The names of an input prefix are
blamed on the place where the prefix starts, and everything else on the token.
-/
inductive Blamed : List Token → Token → Diagnostic → Prop
  | unexpected {before token wanted}
    : Blamed before token ⟨.unexpected wanted token.lexeme, token.loc⟩
  | nonzero {before text loc} (other : text ≠ "0")
    : Blamed before ⟨.number text, loc⟩ ⟨.nonzeroAgent, loc⟩
  | arity {before subject loc opening list arguments closing dot}
    (names : NameList list arguments) (several : arguments.length ≠ 1)
    : Blamed
        (before ++ ⟨.name subject, loc⟩ :: ⟨.openParen, opening⟩
          :: (list ++ [⟨.closeParen, closing⟩]))
        ⟨.dot, dot⟩ ⟨.inputArity, loc⟩

namespace Blamed

variable {before : List Token} {token : Token} {diagnostic : Diagnostic}

theorem prepend (blamed : Blamed before token diagnostic) (front : List Token)
    : Blamed (front ++ before) token diagnostic := by
  cases blamed with
  | unexpected => exact .unexpected
  | nonzero other => exact .nonzero other
  | arity names several =>
      rw [← List.append_assoc]
      exact .arity names several

theorem exists_malformedAt (blamed : Blamed before token diagnostic)
    : ∃ other ∈ before ++ [token], diagnostic.MalformedAt other.loc := by
  cases blamed with
  | unexpected => exact ⟨token, by simp, rfl, rfl⟩
  | @nonzero _ text loc => exact ⟨⟨.number text, loc⟩, by simp, rfl, rfl⟩
  | @arity _ subject loc => exact ⟨⟨.name subject, loc⟩, by simp, rfl, rfl⟩

end Blamed

namespace Agent.Draft

variable {draft : Draft} {token : Token} {diagnostic : Diagnostic} {tokens : List Token}

theorem blamed_of_unexpected {wanted : Expectation}
    (step : Advance.unexpected wanted token = .fault diagnostic)
    : Blamed tokens token diagnostic := by
  cases step
  exact .unexpected

theorem startOperand_eq_fault (step : draft.startOperand token = .fault diagnostic)
    : Blamed tokens token diagnostic := by
  obtain ⟨lexeme, loc⟩ := token
  unfold startOperand at step
  split at step
  case h_5 lexeme =>
    cases lexeme
    split at step
    next => cases step
    next other =>
      cases step
      exact .nonzero other
  case h_6 => exact blamed_of_unexpected step
  all_goals cases step

theorem endOperand_eq_fault {operand : Agent}
    (step : draft.endOperand operand token = .fault diagnostic)
    : Blamed tokens token diagnostic := by
  unfold endOperand at step
  split at step
  next => cases step
  next => cases step
  next =>
    split at step
    next => cases step
    next =>
      split at step
      next => cases step
      next => exact blamed_of_unexpected step

theorem takeName_eq_fault {point : String → Point}
    (step : draft.takeName token point = .fault diagnostic)
    : Blamed tokens token diagnostic := by
  unfold takeName at step
  split at step
  next => cases step
  next => exact blamed_of_unexpected step

/-- A fault is blamed on the token that shows it, or on the start of an input prefix. -/
theorem Reads.feed_fault (reads : Reads tokens draft)
    (step : draft.feed token = .fault diagnostic)
    : Blamed tokens token diagnostic := by
  obtain ⟨outer, chain, point⟩ := draft
  cases point with
  | start => exact startOperand_eq_fault step
  | operand operand => exact endOperand_eq_fault step
  | name subject loc =>
      simp only [Draft.feed] at step
      split at step
      next => cases step
      next => cases step
      next => exact endOperand_eq_fault step
  | arguments subject arguments loc =>
      simp only [Draft.feed] at step
      split at step
      next dot =>
        split at step
        next => cases step
        next several =>
          cases step
          obtain ⟨lexeme, place⟩ := token
          cases dot
          obtain ⟨_, _, point⟩ := reads
          cases point with
          | inside _ inside =>
              cases inside with
              | arguments names =>
                  rw [← List.append_assoc]
                  exact .arity names (by simpa [List.length_eq_one_iff] using several)
      next => exact endOperand_eq_fault step
  | paren loc =>
      simp only [Draft.feed] at step
      split at step
      next => cases step
      next => exact startOperand_eq_fault step
  | output | bracket | matchEquals | caret => exact takeName_eq_fault step
  | _ =>
      simp only [Draft.feed] at step
      split at step
      all_goals first
        | exact blamed_of_unexpected step
        | cases step

end Agent.Draft

namespace Declaration

/-- Tokens that all belong to the declaration, from one draft to another. -/
inductive Draft.Runs : Draft → List Token → Draft → Prop
  | nil {draft} : Runs draft [] draft
  | cons {draft token next tokens final} (step : draft.feed token = .more next)
    (rest : Runs next tokens final)
    : Runs draft (token :: tokens) final

namespace Draft

variable {draft : Draft} {token : Token} {diagnostic : Diagnostic} {tokens : List Token}

theorem blamed_of_unexpected {wanted : Expectation}
    (step : Advance.unexpected wanted token = .fault diagnostic)
    : Blamed tokens token diagnostic := by
  cases step
  exact .unexpected

theorem startBody_eq_fault {name : String} {parameters : List String} {loc : Location}
    (step : startBody name parameters loc token = .fault diagnostic)
    : Blamed tokens token diagnostic := by
  unfold startBody at step
  split at step
  next => cases step
  next => exact blamed_of_unexpected step

theorem Reads.feed_fault (reads : Reads tokens draft)
    (step : draft.feed token = .fault diagnostic)
    : Blamed tokens token diagnostic := by
  cases draft with
  | named name loc =>
      simp only [Draft.feed] at step
      split at step
      next => cases step
      next => exact startBody_eq_fault step
  | headed name parameters loc => exact startBody_eq_fault step
  | body name parameters loc draft =>
      simp only [Draft.feed] at step
      split at step
      next => cases step
      next fault =>
        cases step
        cases reads with
        | @body loc name place head _ equals _ _ _ reads =>
            have blamed := (reads.feed_fault fault).prepend
              (⟨.agent, loc⟩ :: ⟨.name name, place⟩ :: (head ++ [⟨.equals, equals⟩]))
            simpa using blamed
      next =>
        split at step
        next => cases step
        next => exact blamed_of_unexpected step
  | _ =>
      simp only [Draft.feed] at step
      split at step
      all_goals first
        | exact blamed_of_unexpected step
        | cases step

theorem Reads.runs {before : List Token} {stop : Draft} (reads : Reads before draft)
    (run : Runs draft tokens stop)
    : Reads (before ++ tokens) stop := by
  induction run generalizing before with
  | nil => simpa using reads
  | cons step _ ih => simpa using ih (reads.feed step)

/-- Reading that fails stops where the tokens end or where one of them is a fault. -/
theorem exists_runs_of_read_error {last : Location} {rest : List Token}
    (result : draft.read last tokens = (.error diagnostic, rest))
    : ∃ used stop,
        Runs draft used stop
        ∧ (tokens = used ∧ rest = [] ∧ diagnostic = ⟨.unexpectedEnd, last⟩
          ∨ ∃ token tail,
              tokens = used ++ token :: tail
              ∧ rest = leftAt diagnostic.problem token tail
              ∧ stop.feed token = .fault diagnostic) := by
  induction tokens generalizing draft with
  | nil =>
      cases result
      exact ⟨[], draft, .nil, .inl ⟨rfl, rfl, rfl⟩⟩
  | cons token tokens ih =>
      simp only [Draft.read] at result
      split at result
      next next step =>
        obtain ⟨used, stop, run, ⟨rfl, ended⟩ | ⟨misfit, tail, rfl, stopped⟩⟩ := ih result
        · exact ⟨token :: tokens, stop, .cons step run, .inl ⟨rfl, ended⟩⟩
        · exact ⟨token :: used, stop, .cons step run, .inr ⟨misfit, tail, rfl, stopped⟩⟩
      next => cases result
      next fault =>
        cases result
        exact ⟨[], draft, .nil, .inr ⟨token, tokens, rfl, rfl, fault⟩⟩

/-- A declaration that is not read in full is reported at one of its tokens, or at `last`. -/
theorem Reads.read_error {last : Location} {rest : List Token} (before : List Token)
    (reads : Reads before draft)
    (result : draft.read last tokens = (.error diagnostic, rest))
    : diagnostic.MalformedAt last
      ∨ ∃ token ∈ before ++ tokens, diagnostic.MalformedAt token.loc := by
  obtain ⟨used, stop, run, ⟨_, _, rfl⟩ | ⟨token, tail, rfl, _, fault⟩⟩ :=
    exists_runs_of_read_error result
  · exact .inl ⟨rfl, rfl⟩
  · obtain ⟨other, member, placed⟩ := ((reads.runs run).feed_fault fault).exists_malformedAt
    refine .inr ⟨other, ?_, placed⟩
    simp only [List.mem_append, List.mem_cons, List.not_mem_nil, or_false] at member ⊢
    tauto

end Draft

theorem exists_malformedAt_of_read {last : Location} {tokens rest : List Token}
    {diagnostic : Diagnostic}
    (result : Declaration.read last tokens = (.error diagnostic, rest))
    : diagnostic.MalformedAt last ∨ ∃ token ∈ tokens, diagnostic.MalformedAt token.loc := by
  unfold Declaration.read at result
  split at result
  next => cases result
  next failed =>
    cases result
    exact Draft.Reads.read_error [] .blank failed

end Declaration

-----------------------------------------------------------------------------------------
-- Reading all segments
-----------------------------------------------------------------------------------------

/-- A segment is read in one round. -/
theorem Segmented.exists_read {split : List (List Token)} {segment : List Token}
    (segmented : Segmented split) (member : segment ∈ split) (last : Location)
    : ∃ outcome, Declaration.read last segment = (outcome, []) := by
  rcases segmented.cases_of_mem member with
    ⟨_, clear⟩ | ⟨body, token, rfl, clear, semicolon⟩
  · obtain ⟨diagnostic, result⟩ := @Declaration.read_clear _ last clear
    exact ⟨.error diagnostic, result⟩
  · obtain ⟨outcome, result⟩ := Declaration.read_segment clear semicolon
    exact ⟨outcome, result last []⟩

theorem Supply.exists_last {tokens : List Token} (nonempty : tokens ≠ [])
    : ∃ token ∈ tokens, (Supply.ofList tokens).last = token.loc :=
  ⟨tokens.getLast nonempty, List.getLast_mem nonempty,
    by simp [Supply.ofList, List.getLast?_eq_some_getLast nonempty]⟩

namespace Program

/-- What is wrong with a segment is reported once, at one of its tokens. -/
theorem diagnosticsOf_segment {split : List (List Token)} {segment : List Token}
    (segmented : Segmented split) (member : segment ∈ split)
    : diagnosticsOf (ofTokens segment) = []
      ∨ ∃ diagnostic, diagnosticsOf (ofTokens segment) = [diagnostic]
          ∧ ∃ token ∈ segment, diagnostic.MalformedAt token.loc := by
  have nonempty := segmented.segmentation.nonempty segment member
  obtain ⟨outcome, result⟩ := segmented.exists_read member (Supply.ofList segment).last
  cases outcome with
  | ok declaration =>
      left
      rw [ofTokens_eq, Declaration.readAll_of_read_ok nonempty result, Declaration.readAll]
      rfl
  | error diagnostic =>
      right
      refine ⟨diagnostic, ?_, ?_⟩
      · rw [ofTokens_eq, Declaration.readAll_of_read_error nonempty result,
          Declaration.readAll]
        rfl
      · rcases Declaration.exists_malformedAt_of_read result with ended | inside
        · obtain ⟨token, last, placed⟩ := Supply.exists_last nonempty
          exact ⟨token, last, placed ▸ ended⟩
        · exact inside

/-- The diagnostics of all segments are malformed tokens, in the order of the tokens. -/
theorem sublist_of_segments {split : List (List Token)} (segmented : Segmented split)
    {part : List (List Token)} (contained : part ⊆ split)
    : (∀ diagnostic ∈ part.flatMap fun segment => diagnosticsOf (ofTokens segment),
        diagnostic.kind = .malformed)
      ∧ ((part.flatMap fun segment => diagnosticsOf (ofTokens segment)).map
          Diagnostic.loc).Sublist (part.flatten.map Token.loc) := by
  induction part with
  | nil => simp
  | cons segment part ih =>
      obtain ⟨kind, placed⟩ := ih fun _ member => contained (List.mem_cons_of_mem _ member)
      rw [List.flatMap_cons, List.map_append, List.flatten_cons, List.map_append]
      rcases diagnosticsOf_segment segmented (contained List.mem_cons_self) with
        none | ⟨diagnostic, one, token, member, malformed, place⟩
      · rw [none]
        exact ⟨kind, placed.trans (List.sublist_append_right _ _)⟩
      · rw [one]
        refine ⟨List.forall_mem_cons.mpr ⟨malformed, kind⟩, .append ?_ placed⟩
        rw [List.map_singleton, place, List.singleton_sublist]
        exact List.mem_map_of_mem member

theorem report_of_ofTokens {tokens : List Token} {report : Report}
    (failed : ofTokens tokens = .error report)
    : (∀ diagnostic ∈ report.toList, diagnostic.kind = .malformed)
      ∧ (report.toList.map Diagnostic.loc).Sublist (tokens.map Token.loc) := by
  have segmented := segmented_segments tokens
  have ends segment (member : segment ∈ (segments tokens).getLast?) :=
    last_flatten
      (segmented.segmentation.nonempty segment (List.mem_of_getLast? member)) member
  have all := readAll_flatten segmented ends
  rw [flatten_segments] at all
  rw [ofTokens_eq, settle_eq_error_iff, all] at failed
  have result := sublist_of_segments segmented (List.Subset.refl _)
  rw [flatten_segments] at result
  simp only at failed
  rwa [failed] at result

end Program

end PiCalculus
