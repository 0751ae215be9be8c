import Mathlib.Data.List.Basic
import PiCalculus.Proofs.ProgramGrammar

/-! Recovery at semicolons. A semicolon never leads from one draft to another, so reading a
declaration, well formed or not, stays within one segment of the tokens, and a program is
judged segment by segment.
-/

namespace PiCalculus

-----------------------------------------------------------------------------------------
-- Splitting a list of tokens behind its semicolons
-----------------------------------------------------------------------------------------

def Token.IsSemicolon (token : Token) : Prop := token.lexeme = .semicolon

instance (token : Token) : Decidable token.IsSemicolon :=
  inferInstanceAs (Decidable (token.lexeme = .semicolon))

/-- No token of the list is a semicolon. -/
def Clear (tokens : List Token) : Prop := ∀ token ∈ tokens, ¬ token.IsSemicolon

/-- The last token of the list is a semicolon. -/
def Terminated (tokens : List Token) : Prop := ∃ token ∈ tokens.getLast?, token.IsSemicolon

/-- A split into non-empty segments with a semicolon nowhere but at their ends, where only
the last segment may lack one.
-/
structure Segmentation (tokens : List Token) (split : List (List Token)) : Prop where
  joined : split.flatten = tokens
  nonempty : ∀ segment ∈ split, segment ≠ []
  clear : ∀ segment ∈ split, Clear segment.dropLast
  terminated : ∀ segment ∈ split.dropLast, Terminated segment

/-- The tokens cut behind each semicolon. -/
def segments : List Token → List (List Token)
  | [] => []
  | token :: tokens =>
      if token.IsSemicolon then [token] :: segments tokens
      else
        match segments tokens with
        | [] => [[token]]
        | segment :: split => (token :: segment) :: split

/-- A segmentation from front to back. -/
inductive Segmented : List (List Token) → Prop
  | nil : Segmented []
  | unterminated {tokens} (nonempty : tokens ≠ []) (clear : Clear tokens) : Segmented [tokens]
  | cons {body token split} (clear : Clear body) (semicolon : token.IsSemicolon)
    (rest : Segmented split)
    : Segmented ((body ++ [token]) :: split)

theorem Clear.nil : Clear [] := by simp [Clear]

theorem Clear.cons {token : Token} {tokens : List Token} (first : ¬ token.IsSemicolon)
    (clear : Clear tokens)
    : Clear (token :: tokens) := by
  intro other member
  rcases List.mem_cons.mp member with rfl | member
  · exact first
  · exact clear other member

theorem Clear.suffix {tokens rest : List Token} (clear : Clear tokens) (left : rest <:+ tokens)
    : Clear rest :=
  fun other member => clear other (left.subset member)

theorem Clear.tail {token : Token} {tokens : List Token} (clear : Clear (token :: tokens))
    : Clear tokens :=
  clear.suffix (List.suffix_cons token tokens)

theorem Clear.head {token : Token} {tokens : List Token} (clear : Clear (token :: tokens))
    : ¬ token.IsSemicolon :=
  clear token List.mem_cons_self

theorem segments_of_clear {tokens : List Token} (nonempty : tokens ≠ [])
    (clear : Clear tokens)
    : segments tokens = [tokens] := by
  induction tokens with
  | nil => exact absurd rfl nonempty
  | cons token tokens ih =>
      rw [segments, if_neg clear.head]
      cases tokens with
      | nil => rfl
      | cons next tokens => rw [ih (by simp) clear.tail]

theorem segments_append {body rest : List Token} {token : Token} (clear : Clear body)
    (semicolon : token.IsSemicolon)
    : segments (body ++ token :: rest) = (body ++ [token]) :: segments rest := by
  induction body with
  | nil => rw [List.nil_append, segments, if_pos semicolon, List.nil_append]
  | cons first body ih =>
      rw [List.cons_append, segments, if_neg clear.head, ih clear.tail]
      rfl

theorem segmented_segments (tokens : List Token) : Segmented (segments tokens) := by
  induction tokens with
  | nil => exact .nil
  | cons token tokens ih =>
      rw [segments]
      split
      next semicolon => exact .cons .nil semicolon ih
      next clear =>
        generalize segments tokens = split at ih ⊢
        cases ih with
        | nil => exact .unterminated (by simp) (.cons clear .nil)
        | unterminated _ rest => exact .unterminated (by simp) (.cons clear rest)
        | cons body semicolon rest => exact .cons (.cons clear body) semicolon rest

theorem flatten_segments (tokens : List Token) : (segments tokens).flatten = tokens := by
  induction tokens with
  | nil => rfl
  | cons token tokens ih =>
      rw [segments]
      split
      next => simp [ih]
      next =>
        cases found : segments tokens with
        | nil => simp_all
        | cons segment split => simp_all

theorem Segmented.eq_segments {split : List (List Token)} (segmented : Segmented split)
    : split = segments split.flatten := by
  induction segmented with
  | nil => rfl
  | unterminated nonempty clear =>
      rw [List.flatten_singleton, segments_of_clear nonempty clear]
  | cons clear semicolon rest ih =>
      rw [List.flatten_cons, List.append_assoc, List.singleton_append,
        segments_append clear semicolon, ← ih]

@[simp]
theorem terminated_append {body : List Token} {token : Token}
    : Terminated (body ++ [token]) ↔ token.IsSemicolon := by
  simp [Terminated]

/-- A segment holds no semicolon, or one at its end. -/
theorem Segmented.cases_of_mem {split : List (List Token)} {segment : List Token}
    (segmented : Segmented split) (member : segment ∈ split)
    : segment ≠ [] ∧ Clear segment
      ∨ ∃ body token, segment = body ++ [token] ∧ Clear body ∧ token.IsSemicolon := by
  induction segmented with
  | nil => cases member
  | unterminated nonempty clear =>
      obtain rfl := List.mem_singleton.mp member
      exact .inl ⟨nonempty, clear⟩
  | @cons body token _ clear semicolon _ ih =>
      rcases List.mem_cons.mp member with rfl | member
      · exact .inr ⟨body, token, rfl, clear, semicolon⟩
      · exact ih member

theorem Segmented.segmentation {split : List (List Token)} (segmented : Segmented split)
    : Segmentation split.flatten split := by
  refine ⟨rfl, ?_, ?_, ?_⟩
  · intro segment member
    rcases segmented.cases_of_mem member with ⟨nonempty, _⟩ | ⟨body, token, rfl, _⟩
    · exact nonempty
    · simp
  · intro segment member token inside
    rcases segmented.cases_of_mem member with ⟨_, clear⟩ | ⟨body, last, rfl, clear, _⟩
    · exact clear token (List.dropLast_subset _ inside)
    · rw [List.dropLast_concat] at inside
      exact clear token inside
  · induction segmented with
    | nil => simp
    | unterminated => simp
    | @cons _ _ split _ semicolon _ ih =>
        intro segment member
        cases split with
        | nil => simp at member
        | cons next split =>
            rcases List.mem_cons.mp member with rfl | member
            · exact terminated_append.mpr semicolon
            · exact ih segment member

theorem Segmentation.tail {tokens segment : List Token} {split : List (List Token)}
    (segmentation : Segmentation tokens (segment :: split))
    : Segmentation split.flatten split := by
  refine ⟨rfl, ?_, ?_, ?_⟩
  · exact fun other member => segmentation.nonempty other (List.mem_cons_of_mem _ member)
  · exact fun other member => segmentation.clear other (List.mem_cons_of_mem _ member)
  · intro other member
    cases split with
    | nil => simp at member
    | cons next split => exact segmentation.terminated other (List.mem_cons_of_mem _ member)

theorem Segmentation.segmented {tokens : List Token} {split : List (List Token)}
    (segmentation : Segmentation tokens split)
    : Segmented split := by
  induction split generalizing tokens with
  | nil => exact .nil
  | cons segment split ih =>
      have nonempty := segmentation.nonempty segment List.mem_cons_self
      obtain ⟨body, token, rfl⟩ : ∃ body token, segment = body ++ [token] :=
        ⟨_, _, (List.dropLast_concat_getLast nonempty).symm⟩
      have clear := segmentation.clear _ List.mem_cons_self
      rw [List.dropLast_concat] at clear
      by_cases semicolon : token.IsSemicolon
      · exact .cons clear semicolon (ih segmentation.tail)
      · cases split with
        | nil =>
            refine .unterminated nonempty ?_
            intro other member
            rcases List.mem_append.mp member with member | member
            · exact clear other member
            · rwa [List.mem_singleton.mp member]
        | cons next split =>
            have terminated := segmentation.terminated _ List.mem_cons_self
            exact absurd (terminated_append.mp terminated) semicolon

theorem segmentation_iff {tokens : List Token} {split : List (List Token)}
    : Segmentation tokens split ↔ split = segments tokens := by
  constructor
  · intro segmentation
    rw [← segmentation.joined]
    exact segmentation.segmented.eq_segments
  · intro cut
    subst cut
    have segmentation := (segmented_segments tokens).segmentation
    rwa [flatten_segments] at segmentation

theorem Agent.Draft.not_semicolon_of_feed {draft next : Agent.Draft} {token : Token}
    (step : draft.feed token = .more next)
    : ¬ token.IsSemicolon := by
  intro semicolon
  obtain ⟨lexeme, loc⟩ := token
  cases semicolon
  obtain ⟨outer, chain, point⟩ := draft
  cases point with
  | operand | name =>
      cases outer <;> cases step
  | arguments =>
      cases outer <;> cases step
  | _ => cases step

theorem Agent.Draft.problem_ne_inputArity {draft : Agent.Draft} {token : Token}
    {diagnostic : Diagnostic} (semicolon : token.IsSemicolon)
    (step : draft.feed token = .fault diagnostic)
    : diagnostic.problem ≠ .inputArity := by
  obtain ⟨lexeme, loc⟩ := token
  cases semicolon
  obtain ⟨outer, chain, point⟩ := draft
  cases point with
  | operand | name | arguments =>
      cases outer with
      | nil => cases step
      | cons =>
          cases step
          simp
  | _ =>
      cases step
      simp

namespace Declaration

theorem Draft.not_semicolon_of_feed {draft next : Draft} {token : Token}
    (step : draft.feed token = .more next)
    : ¬ token.IsSemicolon := by
  intro semicolon
  cases draft with
  | body name parameters loc draft =>
      simp only [Draft.feed] at step
      split at step
      next more => exact Agent.Draft.not_semicolon_of_feed more semicolon
      next => cases step
      next => split at step <;> cases step
  | _ =>
      obtain ⟨lexeme, loc⟩ := token
      cases semicolon
      cases step

/-- The names of an input prefix are never counted at a semicolon. -/
theorem Draft.problem_ne_inputArity {draft : Draft} {token : Token} {diagnostic : Diagnostic}
    (semicolon : token.IsSemicolon) (step : draft.feed token = .fault diagnostic)
    : diagnostic.problem ≠ .inputArity := by
  cases draft with
  | body name parameters loc draft =>
      simp only [Draft.feed] at step
      split at step
      next => cases step
      next fault =>
        cases step
        exact Agent.Draft.problem_ne_inputArity semicolon fault
      next =>
        split at step
        next => cases step
        next other => exact absurd semicolon other
  | _ =>
      obtain ⟨lexeme, loc⟩ := token
      cases semicolon
      cases step
      simp

theorem Draft.semicolon_of_feed {draft : Draft} {token : Token} {declaration : Declaration}
    (step : draft.feed token = .done declaration)
    : token.IsSemicolon := by
  obtain ⟨_, _, _, _, _, _, _, semicolon, _⟩ := feed_eq_done step
  exact semicolon

-----------------------------------------------------------------------------------------
-- Reading one segment
-----------------------------------------------------------------------------------------

section Segment

variable {body tokens : List Token} {token : Token}

theorem afterSemicolon_of_clear (clear : Clear tokens) : afterSemicolon tokens = [] := by
  induction tokens with
  | nil => rfl
  | cons first tokens ih => exact (if_neg clear.head).trans (ih clear.tail)

theorem afterSemicolon_append {rest : List Token} (clear : Clear body)
    (semicolon : token.IsSemicolon)
    : afterSemicolon (body ++ token :: rest) = rest := by
  induction body with
  | nil => exact if_pos semicolon
  | cons first body ih => exact (if_neg clear.head).trans (ih clear.tail)

theorem Draft.leftAt_append (problem : Problem) (token : Token) (tokens rest : List Token)
    : leftAt problem token (tokens ++ rest) = leftAt problem token tokens ++ rest := by
  unfold leftAt
  split <;> rfl

/-- Reading stops inside a segment that has no semicolon. -/
theorem Draft.read_clear {last : Location} (draft : Draft) (clear : Clear tokens)
    : ∃ diagnostic left, Clear left ∧ draft.read last tokens = (.error diagnostic, left) := by
  induction tokens generalizing draft with
  | nil => exact ⟨_, [], .nil, rfl⟩
  | cons token tokens ih =>
      cases step : draft.feed token with
      | more next =>
          obtain ⟨diagnostic, left, rest, result⟩ := ih next clear.tail
          refine ⟨diagnostic, left, rest, ?_⟩
          simpa only [Draft.read, step] using result
      | done declaration => exact absurd (semicolon_of_feed step) clear.head
      | fault diagnostic =>
          refine ⟨diagnostic, leftAt diagnostic.problem token tokens, ?_, ?_⟩
          · exact clear.suffix (leftAt_suffix _ token tokens)
          · simp only [Draft.read, step]

/-- Reading stops at the semicolon of a segment at the latest, whatever comes behind it. -/
theorem Draft.read_segment (draft : Draft) (clear : Clear body)
    (semicolon : token.IsSemicolon)
    : (∃ declaration, ∀ last rest,
        draft.read last (body ++ token :: rest) = (.ok declaration, rest))
      ∨ ∃ diagnostic left, Clear left ∧ ∀ last rest,
          draft.read last (body ++ token :: rest)
          = (.error diagnostic, left ++ token :: rest) := by
  induction body generalizing draft with
  | nil =>
      cases step : draft.feed token with
      | more next => exact absurd semicolon (not_semicolon_of_feed step)
      | done declaration =>
          left
          refine ⟨declaration, fun last rest => ?_⟩
          simp only [List.nil_append, Draft.read, step]
      | fault diagnostic =>
          right
          refine ⟨diagnostic, [], .nil, fun last rest => ?_⟩
          simp only [List.nil_append, Draft.read, step, leftAt,
            if_neg (problem_ne_inputArity semicolon step)]
  | cons first body ih =>
      cases step : draft.feed first with
      | more next => simpa only [List.cons_append, Draft.read, step] using ih next clear.tail
      | done declaration => exact absurd (semicolon_of_feed step) clear.head
      | fault diagnostic =>
          right
          refine ⟨diagnostic, leftAt diagnostic.problem first body, ?_, fun last rest => ?_⟩
          · exact clear.suffix (leftAt_suffix _ first body)
          · simp only [List.cons_append, Draft.read, step, leftAt_append]

theorem read_clear {last : Location} (clear : Clear tokens)
    : ∃ diagnostic, Declaration.read last tokens = (.error diagnostic, []) := by
  obtain ⟨diagnostic, left, rest, result⟩ := @Draft.read_clear _ last .blank clear
  refine ⟨diagnostic, ?_⟩
  rw [Declaration.read, result]
  simp only [afterSemicolon_of_clear rest]

theorem read_segment (clear : Clear body) (semicolon : token.IsSemicolon)
    : ∃ outcome, ∀ last rest,
        Declaration.read last (body ++ token :: rest) = (outcome, rest) := by
  rcases Draft.read_segment .blank clear semicolon with
    ⟨declaration, result⟩ | ⟨diagnostic, left, before, result⟩
  · refine ⟨.ok declaration, fun last rest => ?_⟩
    rw [Declaration.read, result]
  · refine ⟨.error diagnostic, fun last rest => ?_⟩
    rw [Declaration.read, result]
    simp only [afterSemicolon_append before semicolon]

end Segment

end Declaration

-----------------------------------------------------------------------------------------
-- Reading all segments
-----------------------------------------------------------------------------------------

namespace Program

/-- The declarations of a program, if one was read. -/
def declarationsOf : Except Report Program → List Declaration
  | .ok program => program.declarations
  | .error _ => []

/-- What was found wrong, if anything was. -/
def diagnosticsOf : Except Report Program → List Diagnostic
  | .ok _ => []
  | .error report => report.toList

/-- One declaration was read, or one thing was found wrong. -/
def Single (outcome : Except Report Program) : Prop :=
  (∃ declaration, outcome = .ok ⟨[declaration]⟩)
  ∨ ∃ diagnostic, outcome = .error ⟨diagnostic, []⟩

/-- A segment without a semicolon is reported. -/
theorem ofTokens_of_clear {tokens : List Token} (nonempty : tokens ≠ [])
    (clear : Clear tokens)
    : ∃ diagnostic, ofTokens tokens = .error ⟨diagnostic, []⟩
        ∧ Declaration.readAll (Supply.ofList tokens).last tokens = ([], [diagnostic], []) := by
  obtain ⟨diagnostic, result⟩ := @Declaration.read_clear _ (Supply.ofList tokens).last clear
  have all : Declaration.readAll (Supply.ofList tokens).last tokens
      = ([], [diagnostic], []) := by
    rw [Declaration.readAll_of_read_error nonempty result, Declaration.readAll]
  refine ⟨diagnostic, ?_, all⟩
  rw [ofTokens_eq, all]
  rfl

/-- A segment with a semicolon has the same outcome alone as before other tokens. -/
theorem ofTokens_segment {body : List Token} {token : Token} (clear : Clear body)
    (semicolon : token.IsSemicolon)
    : Single (ofTokens (body ++ [token]))
      ∧ ∀ last rest,
          Declaration.readAll last (body ++ token :: rest)
          = (declarationsOf (ofTokens (body ++ [token])) ++ (Declaration.readAll last rest).1,
              diagnosticsOf (ofTokens (body ++ [token]))
                ++ (Declaration.readAll last rest).2.1,
              (Declaration.readAll last rest).2.2) := by
  obtain ⟨outcome, result⟩ := Declaration.read_segment clear semicolon
  have nonempty rest : body ++ token :: rest ≠ [] := by simp
  cases outcome with
  | ok declaration =>
      have all last rest := Declaration.readAll_of_read_ok (nonempty rest) (result last rest)
      have alone : ofTokens (body ++ [token]) = .ok ⟨[declaration]⟩ := by
        rw [ofTokens_eq, all, Declaration.readAll]
        rfl
      rw [alone]
      exact ⟨.inl ⟨declaration, rfl⟩, all⟩
  | error diagnostic =>
      have all last rest :=
        Declaration.readAll_of_read_error (nonempty rest) (result last rest)
      have alone : ofTokens (body ++ [token]) = .error ⟨diagnostic, []⟩ := by
        rw [ofTokens_eq, all, Declaration.readAll]
        rfl
      rw [alone]
      exact ⟨.inr ⟨diagnostic, rfl⟩, all⟩

theorem single_of_mem {split : List (List Token)} {segment : List Token}
    (segmented : Segmented split) (member : segment ∈ split)
    : Single (ofTokens segment) := by
  rcases segmented.cases_of_mem member with
    ⟨nonempty, clear⟩ | ⟨body, token, rfl, clear, semicolon⟩
  · obtain ⟨diagnostic, result, _⟩ := ofTokens_of_clear nonempty clear
    exact .inr ⟨diagnostic, result⟩
  · exact (ofTokens_segment clear semicolon).1

theorem error_of_unterminated {split : List (List Token)} {segment : List Token}
    (segmented : Segmented split) (member : segment ∈ split)
    (unterminated : ¬ Terminated segment)
    : ∃ diagnostic, ofTokens segment = .error ⟨diagnostic, []⟩ := by
  rcases segmented.cases_of_mem member with
    ⟨nonempty, clear⟩ | ⟨body, token, rfl, _, semicolon⟩
  · obtain ⟨diagnostic, result, _⟩ := ofTokens_of_clear nonempty clear
    exact ⟨diagnostic, result⟩
  · exact absurd (terminated_append.mpr semicolon) unterminated

/-- The end of all tokens is the end of the last segment. -/
theorem last_flatten {split : List (List Token)} {segment : List Token}
    (nonempty : segment ≠ []) (last : segment ∈ split.getLast?)
    : (Supply.ofList segment).last = (Supply.ofList split.flatten).last := by
  obtain ⟨before, rfl⟩ := List.getLast?_eq_some_iff.mp last
  have found := List.getLast?_eq_some_getLast nonempty
  simp [Supply.ofList, List.getLast?_append, found]

theorem readAll_flatten {split : List (List Token)} {last : Location}
    (segmented : Segmented split)
    (ends : ∀ segment ∈ split.getLast?, (Supply.ofList segment).last = last)
    : Declaration.readAll last split.flatten
      = (split.flatMap fun segment => declarationsOf (ofTokens segment),
          split.flatMap fun segment => diagnosticsOf (ofTokens segment), []) := by
  induction segmented with
  | nil =>
      rw [List.flatten_nil, Declaration.readAll]
      rfl
  | @unterminated tokens nonempty clear =>
      obtain ⟨diagnostic, result, all⟩ := ofTokens_of_clear nonempty clear
      obtain rfl := ends tokens rfl
      simp [all, result, declarationsOf, diagnosticsOf, Report.toList]
  | @cons body token split clear semicolon _ ih =>
      -- The place where the tokens end matters to the last segment alone.
      have first := (ofTokens_segment clear semicolon).2 last split.flatten
      have rest := ih fun segment member => ends segment (List.mem_getLast?_cons member)
      rw [List.flatten_cons, List.append_assoc, List.singleton_append, first, rest]
      rfl

/-- A program is read segment by segment: each segment alone gives one declaration or one
diagnostic, and together they give what all tokens give.
-/
theorem ofTokens_by_segment (tokens : List Token)
    : (∃! split, Segmentation tokens split)
      ∧ ∀ split, Segmentation tokens split
        → (∀ segment ∈ split, Single (ofTokens segment))
          ∧ (∀ segment ∈ split, ¬ Terminated segment
              → ∃ diagnostic, ofTokens segment = .error ⟨diagnostic, []⟩)
          ∧ ((∀ segment ∈ split, ∃ program, ofTokens segment = .ok program)
              → ofTokens tokens
                = .ok ⟨split.flatMap fun segment => declarationsOf (ofTokens segment)⟩)
          ∧ ((∃ segment ∈ split, ∃ report, ofTokens segment = .error report)
              → ∃ report, ofTokens tokens = .error report
                  ∧ report.toList
                    = split.flatMap fun segment => diagnosticsOf (ofTokens segment)) := by
  refine ⟨⟨segments tokens, segmentation_iff.mpr rfl, fun _ => segmentation_iff.mp⟩, ?_⟩
  intro split segmentation
  have segmented := segmentation.segmented
  have all : ofTokens tokens
      = settle (split.flatMap fun segment => diagnosticsOf (ofTokens segment))
          ⟨split.flatMap fun segment => declarationsOf (ofTokens segment)⟩ := by
    have ends segment (member : segment ∈ split.getLast?) :=
      last_flatten (segmentation.nonempty segment (List.mem_of_getLast? member)) member
    rw [ofTokens_eq, ← segmentation.joined, readAll_flatten segmented ends]
  refine ⟨fun _ => single_of_mem segmented, fun _ => error_of_unterminated segmented, ?_, ?_⟩
  · intro fine
    rw [all, settle_eq_ok_iff]
    refine ⟨?_, rfl⟩
    rw [List.flatMap_eq_nil_iff]
    intro segment member
    obtain ⟨program, result⟩ := fine segment member
    rw [result]
    rfl
  · intro failing
    obtain ⟨segment, member, report, result⟩ := failing
    have found
        : report.first ∈ split.flatMap fun segment => diagnosticsOf (ofTokens segment) := by
      refine List.mem_flatMap.mpr ⟨segment, member, ?_⟩
      simp [result, diagnosticsOf, Report.toList]
    rw [all]
    generalize split.flatMap (fun segment => diagnosticsOf (ofTokens segment)) = diagnostics
      at found ⊢
    cases diagnostics with
    | nil => simp at found
    | cons first others => exact ⟨⟨first, others⟩, rfl, rfl⟩

/-- A well-formed segment, a malformed one and an unterminated one. -/
def mixedSegments : List (List Token) :=
  [[⟨.agent, ⟨0, 0⟩⟩, ⟨.name "A", ⟨0, 6⟩⟩, ⟨.equals, ⟨0, 8⟩⟩, ⟨.number "0", ⟨0, 10⟩⟩,
      ⟨.semicolon, ⟨0, 11⟩⟩],
    [⟨.name "A", ⟨1, 0⟩⟩, ⟨.semicolon, ⟨1, 1⟩⟩],
    [⟨.agent, ⟨2, 0⟩⟩]]

theorem mixedSegments_reported
    : Segmentation mixedSegments.flatten mixedSegments
      ∧ ∃ report, ofTokens mixedSegments.flatten = .error report
          ∧ report.toList
            = [⟨.unexpected .declaration (.name "A"), ⟨1, 0⟩⟩, ⟨.unexpectedEnd, ⟨2, 0⟩⟩] := by
  have segmentation : Segmentation mixedSegments.flatten mixedSegments :=
    segmentation_iff.mpr (by decide)
  obtain ⟨report, result, reported⟩ :=
    ((ofTokens_by_segment _).2 _ segmentation).2.2.2
      ⟨[⟨.agent, ⟨2, 0⟩⟩], by decide, ⟨⟨.unexpectedEnd, ⟨2, 0⟩⟩, []⟩, by decide +kernel⟩
  exact ⟨segmentation, report, result, reported.trans (by decide +kernel)⟩

end Program

end PiCalculus
