import PiCalculus.Proofs.AgentCompleteness
import PiCalculus.Proofs.AgentSoundness

/-! Reading an agent of one level off the front of the tokens: an operand, a product or a total
that ends where the next token does not go on with it. What is read is derived from the tokens
that are used up, and every derived agent is read.
-/

namespace PiCalculus

namespace Agent

/-- The agent of a level that ends with `operand` behind `chain` and in front of `next`, unless
an operator of that level comes next.
-/
def Level.agent? (chain : Chain) (operand : Agent) (next : Option Lexeme)
    : Level → Option Agent
  | .operand => if chain.summand = none ∧ chain.factor = none then some operand else none
  | .product =>
      if chain.summand = none ∧ next ≠ some .pipe then some (chain.product operand) else none
  | .total =>
      if next ≠ some .pipe ∧ next ≠ some .plus then some (chain.total operand) else none

namespace Draft

/-- The operand that ends in front of `next`, unless `next` goes on with it. -/
def operand? (draft : Draft) (next : Option Lexeme) : Option Agent :=
  match draft.point with
  | .operand operand => some operand
  | .name subject loc =>
      if next = some .openParen ∨ next = some .apostrophe then none
      else some (draft.chain.wrap (.call subject [] loc))
  | .arguments subject arguments loc =>
      if next = some .dot then none
      else some (draft.chain.wrap (.call subject arguments loc))
  | _ => none

/-- The agent of a level that ends in front of `next`, if it is all that has been read. -/
def agent? (level : Level) (draft : Draft) (next : Option Lexeme) : Option Agent :=
  (draft.operand? next).bind fun operand =>
    if draft.outer = [] then level.agent? draft.chain operand next else none

/-- Reads on to the end of an agent of this level, and also gives the tokens that are left. -/
def read? (level : Level) (draft : Draft) : List Token → Option (Agent × List Token)
  | [] => (draft.agent? level none).map fun agent => (agent, [])
  | token :: tokens =>
      match draft.agent? level (some token.lexeme) with
      | some agent => some (agent, token :: tokens)
      | none =>
          match draft.feed token with
          | .more draft => draft.read? level tokens
          | .ended _ | .fault _ => none

end Draft

/-- The agent of a level at the front of `tokens` and the tokens behind it. -/
def read? (level : Level) (tokens : List Token) : Option (Agent × List Token) :=
  Draft.blank.read? level tokens

-----------------------------------------------------------------------------------------
-- Soundness
-----------------------------------------------------------------------------------------

/-- An operand makes an agent of a level with what stands on its left. -/
theorem Chain.Opened.agent? {level : Level} {opened tokens : List Token} {chain : Chain}
    {operand agent : Agent} {next : Option Lexeme} (opening : Chain.Opened opened chain)
    (derived : Derives .operand tokens operand)
    (whole : level.agent? chain operand next = some agent)
    : Derives level (opened ++ tokens) agent := by
  cases level with
  | operand =>
      obtain ⟨⟨summand, factor⟩, same⟩ := Option.ite_none_right_eq_some.mp whole
      cases same
      obtain ⟨left, right⟩ := opening
      rw [summand] at left
      rw [factor] at right
      cases left
      cases right
      exact derived
  | product =>
      obtain ⟨⟨summand, _⟩, same⟩ := Option.ite_none_right_eq_some.mp whole
      cases same
      obtain ⟨left, right⟩ := opening
      rw [summand] at left
      cases left
      exact right.product derived
  | total =>
      obtain ⟨_, same⟩ := Option.ite_none_right_eq_some.mp whole
      cases same
      exact opening.total derived

namespace Draft

variable {draft : Draft} {level : Level} {next : Option Lexeme} {agent operand : Agent}
  {token : Token} {tokens before rest : List Token}

theorem settled_of_operand? (found : draft.operand? next = some operand)
    : draft.Settled operand := by
  obtain ⟨outer, chain, point⟩ := draft
  unfold operand? at found
  split at found
  next reached =>
    cases reached
    cases found
    exact .operand
  next reached =>
    cases reached
    split at found
    next => cases found
    next =>
      cases found
      exact .name
  next reached =>
    cases reached
    split at found
    next => cases found
    next =>
      cases found
      exact .arguments
  next => cases found

/-- What a draft has read is what its chains have read and the operand. -/
theorem Reads.settled (reads : Reads tokens draft) (settled : draft.Settled operand)
    : ∃ outer opened used,
        tokens = outer ++ opened ++ used
        ∧ OuterRead outer draft.outer
        ∧ Chain.Opened opened draft.chain
        ∧ Derives .operand used operand := by
  obtain ⟨waiting, opening, reached⟩ := reads
  refine ⟨_, _, _, rfl, waiting, opening, ?_⟩
  cases settled with
  | operand =>
      cases reached with
      | operand derived => exact derived
      | inside _ inside => cases inside
  | name =>
      cases reached with
      | inside guards inside =>
          cases inside
          exact guards.wrap .name
  | arguments =>
      cases reached with
      | inside guards inside =>
          cases inside with
          | arguments names => exact guards.wrap (.call names)

/-- An agent that has ended is derived from all tokens that were read. -/
theorem Reads.agent? (reads : Reads tokens draft)
    (found : draft.agent? level next = some agent)
    : Derives level tokens agent := by
  obtain ⟨operand, ended, found⟩ := Option.bind_eq_some_iff.mp found
  obtain ⟨alone, whole⟩ := Option.ite_none_right_eq_some.mp found
  obtain ⟨outer, opened, used, rfl, waiting, opening, derived⟩ :=
    reads.settled (settled_of_operand? ended)
  rw [alone] at waiting
  cases waiting
  exact opening.agent? derived whole

/-- What is read of a level is derived from the tokens that are used up. -/
theorem Reads.read? (reads : Reads before draft)
    (result : draft.read? level tokens = some (agent, rest))
    : ∃ used, tokens = used ++ rest ∧ Derives level (before ++ used) agent := by
  induction tokens generalizing before draft with
  | nil =>
      obtain ⟨whole, ended, same⟩ := Option.map_eq_some_iff.mp result
      cases same
      exact ⟨[], rfl, by simpa using reads.agent? ended⟩
  | cons token tokens ih =>
      rw [Draft.read?] at result
      split at result
      next ended =>
        cases result
        exact ⟨[], rfl, by simpa using reads.agent? ended⟩
      next =>
        split at result
        next step =>
          obtain ⟨used, rfl, derived⟩ := ih (reads.feed step) result
          exact ⟨token :: used, rfl, by simpa using derived⟩
        next => cases result
        next => cases result

end Draft

theorem derives_of_read? {level : Level} {tokens rest : List Token} {agent : Agent}
    (result : read? level tokens = some (agent, rest))
    : ∃ used, tokens = used ++ rest ∧ Derives level used agent :=
  Draft.Reads.blank.read? result

-----------------------------------------------------------------------------------------
-- Where an agent ends
-----------------------------------------------------------------------------------------

namespace Draft

variable {draft : Draft} {token : Token} {agent operand : Agent}

theorem endOperand_eq_ended_iff
    : draft.endOperand operand token = .ended agent
      ↔ draft.outer = []
        ∧ Level.total.agent? draft.chain operand (some token.lexeme) = some agent := by
  obtain ⟨outer, chain, point⟩ := draft
  unfold endOperand Level.agent?
  split
  next pipe => simp [pipe]
  next plus => simp [plus]
  next pipe plus =>
    cases outer with
    | nil => simp_all
    | cons waiting outer =>
        simp only [reduceCtorEq, false_and, iff_false]
        split <;> exact nofun

/-- Behind an operand that has ended, a token is taken as an operator or an end. -/
theorem feed_of_operand? (found : draft.operand? (some token.lexeme) = some operand)
    : draft.feed token = draft.endOperand operand token := by
  obtain ⟨outer, chain, point⟩ := draft
  cases point with
  | operand agent =>
      cases found
      rfl
  | name subject loc =>
      obtain ⟨other, same⟩ := Option.ite_none_left_eq_some.mp found
      cases same
      simp only [feed]
      split
      next opening => simp [opening] at other
      next apostrophe => simp [apostrophe] at other
      next => rfl
  | arguments subject arguments loc =>
      obtain ⟨other, same⟩ := Option.ite_none_left_eq_some.mp found
      cases same
      simp only [feed]
      split
      next dot => simp [dot] at other
      next => rfl
  | _ => cases found

theorem exists_operand?_of_feed (step : draft.feed token = .ended agent)
    : ∃ operand, draft.operand? (some token.lexeme) = some operand := by
  obtain ⟨operand, settled, _⟩ := feed_eq_ended step
  cases settled with
  | operand => exact ⟨_, rfl⟩
  | name =>
      refine ⟨_, if_neg ?_⟩
      rintro (opening | apostrophe)
      · simp [feed, Option.some.inj opening, moved] at step
      · simp [feed, Option.some.inj apostrophe, moved] at step
  | arguments =>
      refine ⟨_, if_neg ?_⟩
      intro dot
      simp only [feed, Option.some.inj dot, if_true] at step
      split at step <;> cases step

/-- A token ends an agent just when a total has ended in front of it. -/
theorem feed_eq_ended_iff
    : draft.feed token = .ended agent
      ↔ draft.agent? .total (some token.lexeme) = some agent := by
  by_cases settled : ∃ operand, draft.operand? (some token.lexeme) = some operand
  · obtain ⟨operand, found⟩ := settled
    rw [feed_of_operand? found, endOperand_eq_ended_iff, agent?, found]
    simp
  · refine iff_of_false (fun step => settled (exists_operand?_of_feed step)) ?_
    intro found
    obtain ⟨operand, ended, _⟩ := Option.bind_eq_some_iff.mp found
    exact settled ⟨operand, ended⟩

/-- A total is read on as long as the tokens belong to the agent. -/
theorem read?_total_cons (tokens : List Token)
    : draft.read? .total (token :: tokens)
      = match draft.feed token with
        | .more next => next.read? .total tokens
        | .ended agent => some (agent, token :: tokens)
        | .fault _ => none := by
  rw [read?]
  cases found : draft.agent? .total (some token.lexeme) with
  | some agent => rw [feed_eq_ended_iff.mpr found]
  | none =>
      cases step : draft.feed token with
      | more | fault => rfl
      | ended agent =>
          rw [feed_eq_ended_iff, found] at step
          cases step

end Draft

-----------------------------------------------------------------------------------------
-- Completeness
-----------------------------------------------------------------------------------------

section Completeness

variable {level inner : Level} {outer : List Chain} {chain : Chain} {tokens rest : List Token}
  {agent : Agent}

namespace Draft

/-- Drafts that end alike in front of what is left are read on alike. -/
theorem read?_congr {first second : Draft}
    (ends : first.agent? level (rest.head?.map Token.lexeme)
      = second.agent? level (rest.head?.map Token.lexeme))
    (step : ∀ token ∈ rest.head?, first.feed token = second.feed token)
    : first.read? level rest = second.read? level rest := by
  cases rest with
  | nil =>
      have same : first.agent? level none = second.agent? level none := ends
      rw [read?, read?, same]
  | cons token tokens =>
      have same
          : first.agent? level (some token.lexeme) = second.agent? level (some token.lexeme) :=
        ends
      rw [read?, read?, same, step token rfl]

theorem read?_of_agent? {draft : Draft}
    (ended : draft.agent? level (rest.head?.map Token.lexeme) = some agent)
    : draft.read? level rest = some (agent, rest) := by
  cases rest with
  | nil =>
      have ended : draft.agent? level none = some agent := ended
      rw [read?, ended]
      rfl
  | cons token tokens =>
      have ended : draft.agent? level (some token.lexeme) = some agent := ended
      rw [read?, ended]

theorem agent?_operand {operand : Agent} {next : Option Lexeme}
    : Draft.agent? level ⟨outer, chain, .operand operand⟩ next
      = if outer = [] then level.agent? chain operand next else none :=
  rfl

/-- Chains that an operand ends alike are read on alike, within a group or of their own. -/
theorem read?_operand_congr {first second : Chain} {operand agent : Agent}
    (ends : outer ≠ []
      ∨ ∀ next, level.agent? first operand next = level.agent? second agent next)
    (step : ∀ token ∈ rest.head?,
      Draft.endOperand ⟨outer, first, .start⟩ operand token
      = Draft.endOperand ⟨outer, second, .start⟩ agent token)
    : Draft.read? level ⟨outer, first, .operand operand⟩ rest
      = Draft.read? level ⟨outer, second, .operand agent⟩ rest := by
  refine read?_congr ?_ step
  rw [agent?_operand, agent?_operand]
  rcases ends with waiting | same
  · rw [if_neg waiting, if_neg waiting]
  · rw [same]

/-- It does not matter how an operand has ended. -/
theorem read?_of_operand? {draft : Draft} {operand : Agent}
    (found : draft.operand? (rest.head?.map Token.lexeme) = some operand)
    : draft.read? level rest
      = Draft.read? level { draft with point := .operand operand } rest := by
  refine read?_congr ?_ ?_
  · rw [agent?, found]
    rfl
  · intro token first
    rw [Option.mem_def.mp first] at found
    exact feed_of_operand? found

/-- An operator that no agent of the level ends in front of is read. -/
theorem read?_operator {operand : Agent} {token : Token} {next : Draft}
    (inside : outer ≠ [] ∨ level.agent? chain operand (some token.lexeme) = none)
    (step : Draft.endOperand ⟨outer, chain, .operand operand⟩ operand token = .more next)
    : Draft.read? level ⟨outer, chain, .operand operand⟩ (token :: rest)
      = next.read? level rest := by
  have unended
      : Draft.agent? level ⟨outer, chain, .operand operand⟩ (some token.lexeme) = none := by
    rw [agent?_operand]
    rcases inside with waiting | unended
    · exact if_neg waiting
    · simp [unended]
  rw [read?, unended, show feed ⟨outer, chain, .operand operand⟩ token = .more next from step]

theorem read?_paren {loc : Location} (caret : ∀ token ∈ rest.head?, token.lexeme ≠ .caret)
    : Draft.read? level ⟨outer, chain, .paren loc⟩ rest
      = Draft.read? level ⟨chain :: outer, .empty, .start⟩ rest := by
  refine read?_congr rfl ?_
  intro token first
  exact if_neg (caret token first)

section Arguments

variable {subject : String} {arguments : List String} {loc closing : Location}

theorem read?_names (names : Names tokens arguments)
    : Draft.read? level ⟨outer, chain, .firstArgument subject loc⟩ (tokens ++ rest)
      = Draft.read? level ⟨outer, chain, .argument subject arguments loc⟩ rest := by
  induction names generalizing rest with
  | one => rfl
  | more _ ih =>
      rw [List.append_assoc, ih]
      rfl

theorem read?_nameList (names : NameList tokens arguments)
    : Draft.read? level ⟨outer, chain, .firstArgument subject loc⟩
        (tokens ++ ⟨.closeParen, closing⟩ :: rest)
      = Draft.read? level ⟨outer, chain, .arguments subject arguments loc⟩ rest := by
  cases names with
  | plain names =>
      rw [read?_names names]
      rfl
  | trailing names =>
      rw [List.append_assoc, read?_names names]
      rfl

end Arguments

end Draft

/-- The levels whose agents are read through where an agent of this level is read. -/
def Level.Spans (level : Level) : Level → Prop
  | .operand => True
  | .product => level ≠ .operand
  | .total => level = .total

theorem Level.Spans.product (spans : level.Spans .total) : level.Spans .product := by
  cases spans
  exact nofun

theorem Level.Closes.product {lexeme : Lexeme} (closes : Level.total.Closes lexeme)
    : Level.product.Closes lexeme :=
  ⟨closes.1, closes.2.1, closes.2.2.1⟩

theorem Level.agent?_pipe {operand : Agent} (spans : level.Spans .product)
    : level.agent? chain operand (some .pipe) = none := by
  cases level with
  | operand => exact absurd rfl spans
  | product | total => simp [Level.agent?]

theorem Level.agent?_plus {operand : Agent} (spans : level.Spans .total)
    : level.agent? chain operand (some .plus) = none := by
  cases spans
  rfl

/-- The tokens of an agent lead to its end behind every fitting chain. The exception is an
agent with no parenthesis around it whose first part is already all that is read, as a product
is that stops at a `+`.
-/
def Skipped (level inner : Level) (tokens : List Token) (agent : Agent) : Prop :=
  ∀ outer chain rest,
    inner.Opens chain
    → outer ≠ [] ∨ level.Spans inner
    → (∀ token ∈ rest.head?, inner.Closes token.lexeme)
    → Draft.read? level ⟨outer, chain, .start⟩ (tokens ++ rest)
      = Draft.read? level ⟨outer, chain, .operand (chain.wrap agent)⟩ rest

namespace Skipped

variable {guard : Guard} {next : Agent} {more : List Token}

theorem guarded (skipped : Skipped level .operand tokens next)
    (opened : ∀ outer chain rest,
      Draft.read? level ⟨outer, chain, .start⟩ (more ++ rest)
      = Draft.read? level ⟨outer, chain.guarded guard, .start⟩ rest)
    : Skipped level .operand (more ++ tokens) (guard.apply next) := by
  intro outer chain rest _ spans closes
  rw [List.append_assoc, opened, skipped outer (chain.guarded guard) rest trivial spans closes]
  exact Draft.read?_operand_congr (.inr fun _ => rfl) fun _ _ => rfl

theorem name {subject : String} {loc : Location}
    : Skipped level .operand [⟨.name subject, loc⟩] (.call subject [] loc) := by
  intro outer chain rest _ _ closes
  refine @Draft.read?_of_operand? _ _ ⟨outer, chain, .name subject loc⟩ _ (if_neg ?_)
  cases rest with
  | nil => simp
  | cons token tokens => simpa using ⟨(closes token rfl).1, (closes token rfl).2.1⟩

theorem call {subject : String} {loc opening closing : Location} {list : List Token}
    {arguments : List String} (names : NameList list arguments)
    : Skipped level .operand
        (⟨.name subject, loc⟩ :: ⟨.openParen, opening⟩ :: (list ++ [⟨.closeParen, closing⟩]))
        (.call subject arguments loc) := by
  intro outer chain rest _ _ closes
  have read
      : Draft.read? level ⟨outer, chain, .start⟩
          (⟨.name subject, loc⟩ :: ⟨.openParen, opening⟩
            :: (list ++ [⟨.closeParen, closing⟩]) ++ rest)
        = Draft.read? level ⟨outer, chain, .arguments subject arguments loc⟩ rest := by
    simp only [List.cons_append, List.append_assoc, List.nil_append]
    exact Draft.read?_nameList names
  rw [read]
  refine Draft.read?_of_operand? (if_neg ?_)
  cases rest with
  | nil => simp
  | cons token tokens => simpa using (closes token rfl).2.2

theorem group {opening closing : Location} (skipped : Skipped level .total tokens agent)
    (starts : ∃ first others, tokens = first :: others ∧ first.lexeme ≠ .caret)
    : Skipped level .operand (⟨.openParen, opening⟩ :: (tokens ++ [⟨.closeParen, closing⟩]))
        agent := by
  intro outer chain rest _ _ _
  obtain ⟨first, others, rfl, caret⟩ := starts
  have opened
      : Draft.read? level ⟨outer, chain, .paren opening⟩
          (first :: others ++ ⟨.closeParen, closing⟩ :: rest)
        = Draft.read? level ⟨chain :: outer, .empty, .start⟩
          (first :: others ++ ⟨.closeParen, closing⟩ :: rest) :=
    Draft.read?_paren (by simpa using caret)
  have inside := skipped (chain :: outer) .empty (⟨.closeParen, closing⟩ :: rest) rfl
    (.inl (by simp)) (by simp [Level.Closes])
  rw [List.cons_append, List.append_assoc]
  exact opened.trans inside

theorem product (skipped : Skipped level .operand tokens agent)
    : Skipped level .product tokens agent :=
  fun outer chain rest _ _ closes => skipped outer chain rest trivial (.inr trivial) closes

theorem parallel {first second : List Token} {left right : Agent} {loc : Location}
    (product : Skipped level .product first left)
    (operand : Skipped level .operand second right)
    : Skipped level .product (first ++ ⟨.pipe, loc⟩ :: second) (.parallel left right loc) := by
  intro outer chain rest opens spans closes
  obtain ⟨summand, factor, guards⟩ := chain
  obtain ⟨rfl, rfl⟩ := opens
  have before := product outer ⟨summand, none, []⟩ (⟨.pipe, loc⟩ :: (second ++ rest))
    ⟨rfl, rfl⟩ spans (by simp [Level.Closes])
  have pipe
      : Draft.read? level ⟨outer, ⟨summand, none, []⟩, .operand left⟩
          (⟨.pipe, loc⟩ :: (second ++ rest))
        = Draft.read? level ⟨outer, ⟨summand, some (left, loc), []⟩, .start⟩
            (second ++ rest) :=
    Draft.read?_operator (spans.imp_right Level.agent?_pipe) rfl
  have after := operand outer ⟨summand, some (left, loc), []⟩ rest trivial (.inr trivial)
    closes
  rw [List.append_assoc, List.cons_append]
  refine (before.trans (pipe.trans after)).trans (Draft.read?_operand_congr ?_ ?_)
  · refine spans.imp_right fun wider next => ?_
    cases level with
    | operand => exact absurd rfl wider
    | product | total => rfl
  · intro token _
    rfl

theorem total (skipped : Skipped level .product tokens agent)
    : Skipped level .total tokens agent := by
  intro outer chain rest opens spans closes
  obtain rfl := opens
  exact skipped outer .empty rest ⟨rfl, rfl⟩ (spans.imp_right Level.Spans.product)
    fun token first => (closes token first).product

theorem choice {first second : List Token} {left right : Agent} {loc : Location}
    (total : Skipped level .total first left) (product : Skipped level .product second right)
    : Skipped level .total (first ++ ⟨.plus, loc⟩ :: second) (.choice left right loc) := by
  intro outer chain rest opens spans closes
  obtain rfl := opens
  have before := total outer .empty (⟨.plus, loc⟩ :: (second ++ rest)) rfl spans
    (by simp [Level.Closes])
  have plus
      : Draft.read? level ⟨outer, .empty, .operand left⟩ (⟨.plus, loc⟩ :: (second ++ rest))
        = Draft.read? level ⟨outer, ⟨some (left, loc), none, []⟩, .start⟩ (second ++ rest) :=
    Draft.read?_operator (spans.imp_right Level.agent?_plus) rfl
  have after := product outer ⟨some (left, loc), none, []⟩ rest ⟨rfl, rfl⟩
    (spans.imp_right Level.Spans.product) fun token first => (closes token first).product
  rw [List.append_assoc, List.cons_append]
  refine (before.trans (plus.trans after)).trans (Draft.read?_operand_congr ?_ ?_)
  · refine spans.imp_right fun widest next => ?_
    cases widest
    rfl
  · intro token first
    exact endOperand_choice (closes token first).2.2.2

end Skipped

theorem Derives.starts (derived : Derives inner tokens agent)
    : ∃ first others, tokens = first :: others ∧ first.lexeme ≠ .caret := by
  induction derived with
  | product _ ih | total _ ih => exact ih
  | parallel _ _ ih _ | choice _ _ ih _ =>
      obtain ⟨first, others, rfl, caret⟩ := ih
      exact ⟨first, _, rfl, caret⟩
  | _ => exact ⟨_, _, rfl, nofun⟩

/-- Every derived agent is skipped as the derivation has it. -/
theorem Derives.skipped (level : Level) (derived : Derives inner tokens agent)
    : Skipped level inner tokens agent := by
  induction derived with
  | silent _ ih => exact @Skipped.guarded _ _ (.silent _) _ [_, _] ih fun _ _ _ => rfl
  | name => exact .name
  | emptyCall => exact fun _ _ _ _ _ _ => rfl
  | call names => exact .call names
  | @receive subject loc opening list object closing dot _ _ names _ ih =>
      have opened outer chain rest
          : Draft.read? level ⟨outer, chain, .start⟩
              (⟨.name subject, loc⟩ :: ⟨.openParen, opening⟩
                :: (list ++ [⟨.closeParen, closing⟩, ⟨.dot, dot⟩]) ++ rest)
            = Draft.read? level
                ⟨outer, chain.guarded (.receive subject object loc), .start⟩ rest := by
        simp only [List.cons_append, List.append_assoc, List.nil_append]
        exact Draft.read?_nameList names
      simpa [Guard.apply] using ih.guarded opened
  | send _ ih => exact @Skipped.guarded _ _ (.send _ _ _) _ [_, _, _, _] ih fun _ _ _ => rfl
  | compare _ ih =>
      exact @Skipped.guarded _ _ (.compare _ _ _) _ [_, _, _, _, _] ih fun _ _ _ => rfl
  | inert => exact fun _ _ _ _ _ _ => rfl
  | restrict _ ih =>
      exact @Skipped.guarded _ _ (.restrict _ _) _ [_, _, _, _] ih fun _ _ _ => rfl
  | group derived ih => exact ih.group derived.starts
  | product _ ih => exact ih.product
  | parallel _ _ hl hr => exact hl.parallel hr
  | total _ ih => exact ih.total
  | choice _ _ hl hr => exact hl.choice hr

/-- The lexemes that go on with an agent of a level: its operators, and what turns a name or a
call at its end into something else.
-/
def Level.continuations : Level → List Lexeme
  | operand => [.openParen, .apostrophe, .dot]
  | product => [.openParen, .apostrophe, .dot, .pipe]
  | total => [.openParen, .apostrophe, .dot, .pipe, .plus]

theorem Level.agent?_empty {next : Option Lexeme}
    (ends : ∀ lexeme ∈ next, lexeme ∉ level.continuations)
    : level.agent? .empty agent next = some agent := by
  unfold Level.agent?
  cases level with
  | operand => rfl
  | product =>
      have pipe : next ≠ some .pipe := fun found => ends .pipe found (by decide)
      exact if_pos ⟨rfl, pipe⟩
  | total =>
      have pipe : next ≠ some .pipe := fun found => ends .pipe found (by decide)
      have plus : next ≠ some .plus := fun found => ends .plus found (by decide)
      exact if_pos ⟨pipe, plus⟩

theorem Level.closes_of_not_mem {lexeme : Lexeme} (ends : lexeme ∉ level.continuations)
    : level.Closes lexeme := by
  cases level <;> simp_all [continuations, Closes]

/-- Every derived agent is read off the front of tokens that do not go on with it. -/
theorem Derives.read? (derived : Derives level tokens agent)
    (ends : ∀ lexeme ∈ rest.head?.map Token.lexeme, lexeme ∉ level.continuations)
    : Agent.read? level (tokens ++ rest) = some (agent, rest) := by
  have opens : level.Opens .empty := by
    cases level <;> simp [Level.Opens, Chain.empty]
  have spans : level.Spans level := by
    cases level <;> simp [Level.Spans]
  have closes : ∀ token ∈ rest.head?, level.Closes token.lexeme := by
    intro token first
    exact Level.closes_of_not_mem (ends _ (Option.mem_map_of_mem Token.lexeme first))
  have skipped := derived.skipped level [] .empty rest opens (.inr spans) closes
  exact skipped.trans (Draft.read?_of_agent? (Level.agent?_empty ends))

-- The three levels of `P | Q + R` stop in three places.
example
    : let loc := Location.start
      let call name := Agent.call name [] loc
      let tokens : List Token :=
        [⟨.name "P", loc⟩, ⟨.pipe, loc⟩, ⟨.name "Q", loc⟩, ⟨.plus, loc⟩, ⟨.name "R", loc⟩]
      Agent.read? .operand tokens = some (call "P", tokens.drop 1)
      ∧ Agent.read? .product tokens
        = some (.parallel (call "P") (call "Q") loc, tokens.drop 3)
      ∧ Agent.read? .total tokens
        = some (.choice (.parallel (call "P") (call "Q") loc) (call "R") loc, []) := by
  decide

end Completeness

end Agent

end PiCalculus
