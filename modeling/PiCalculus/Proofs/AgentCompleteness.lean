import PiCalculus.Agent.Draft
import PiCalculus.Proofs.Grammar

/-! Completeness of reading an agent. The tokens of a derivation lead a draft on from the
place where its operand starts, whatever was read before, to one that takes the next token
as the draft would that has just read the whole operand.
-/

namespace PiCalculus

namespace Agent

namespace Draft

/-- Tokens that all belong to the agent, from one draft to another. -/
inductive Runs : Draft → List Token → Draft → Prop
  | nil {draft} : Runs draft [] draft
  | cons {draft token next tokens final} (step : draft.feed token = .more next)
    (rest : Runs next tokens final)
    : Runs draft (token :: tokens) final

section Runs

variable {first second third : Draft} {before after : List Token} {token : Token}

theorem Runs.append (run : Runs first before second) (rest : Runs second after third)
    : Runs first (before ++ after) third := by
  induction run with
  | nil => exact rest
  | cons step _ ih => exact .cons step (ih rest)

theorem Runs.single (step : first.feed token = .more second) : Runs first [token] second :=
  .cons step .nil

theorem Runs.snoc (run : Runs first before second) (step : second.feed token = .more third)
    : Runs first (before ++ [token]) third :=
  run.append (.single step)

end Runs

end Draft

open Draft (Runs)

section Arguments

variable {outer : List Chain} {chain : Chain} {subject : String} {loc closing : Location}
  {list : List Token} {arguments : List String}

theorem runs_names (names : Names list arguments)
    : Runs ⟨outer, chain, .firstArgument subject loc⟩ list
        ⟨outer, chain, .argument subject arguments loc⟩ := by
  induction names with
  | one => exact .single rfl
  | more _ ih => exact ih.append (.cons rfl (.single rfl))

theorem runs_nameList (names : NameList list arguments)
    : Runs ⟨outer, chain, .firstArgument subject loc⟩ (list ++ [⟨.closeParen, closing⟩])
        ⟨outer, chain, .arguments subject arguments loc⟩ := by
  cases names with
  | plain names => exact (runs_names names).snoc rfl
  | trailing names => exact ((runs_names names).snoc rfl).snoc rfl

end Arguments

/-- The chains that an agent of a level can stand behind: an operand behind any, a product
only where no `|` and no guard is left open, and a total at the start.
-/
def Level.Opens : Level → Chain → Prop
  | operand, _ => True
  | product, chain => chain.factor = none ∧ chain.guards = []
  | total, chain => chain = .empty

/-- The lexemes that end an agent of a level. A `(`, an apostrophe or a dot would turn a name
or a call into something else, and a `|` would take the last product of a total for itself.
-/
def Level.Closes : Level → Lexeme → Prop
  | total, lexeme =>
      lexeme ≠ .openParen ∧ lexeme ≠ .apostrophe ∧ lexeme ≠ .dot ∧ lexeme ≠ .pipe
  | _, lexeme => lexeme ≠ .openParen ∧ lexeme ≠ .apostrophe ∧ lexeme ≠ .dot

/-- The draft takes a token as one would that has just read `operand` behind `chain`. -/
def Draft.EndsAs (level : Level) (outer : List Chain) (chain : Chain) (operand : Agent)
    (draft : Draft)
    : Prop :=
  ∀ token, level.Closes token.lexeme
    → draft.feed token = Draft.endOperand ⟨outer, chain, .start⟩ operand token

/-- The tokens lead from the start of an operand to its end, behind every fitting chain. -/
def Readable (level : Level) (tokens : List Token) (agent : Agent) : Prop :=
  ∀ outer chain, level.Opens chain
    → ∃ draft, Runs ⟨outer, chain, .start⟩ tokens draft
        ∧ draft.EndsAs level outer chain (chain.wrap agent)

theorem Derives.ne_nil {level : Level} {tokens : List Token} {agent : Agent}
    (derived : Derives level tokens agent)
    : tokens ≠ [] := by
  induction derived with
  | product _ ih | total _ ih => exact ih
  | _ => simp

section Readable

variable {tokens more : List Token} {agent next : Agent} {guard : Guard}

/-- Any token but a `|` takes the right side of a `+` and the whole sum alike. -/
theorem endOperand_choice {outer : List Chain} {left right : Agent} {loc : Location}
    {token : Token} (pipe : token.lexeme ≠ .pipe)
    : Draft.endOperand ⟨outer, ⟨some (left, loc), none, []⟩, .start⟩ right token
      = Draft.endOperand ⟨outer, .empty, .start⟩ (.choice left right loc) token := by
  unfold Draft.endOperand
  split
  next lexeme => exact absurd lexeme pipe
  next => rfl
  next => rfl

/-- A guard is read in front of its operand. -/
theorem Readable.guarded (readable : Readable .operand tokens next)
    (run : ∀ outer chain,
      Runs ⟨outer, chain, .start⟩ more ⟨outer, chain.guarded guard, .start⟩)
    : Readable .operand (more ++ tokens) (guard.apply next) := by
  intro outer chain _
  obtain ⟨draft, rest, ends⟩ := readable outer (chain.guarded guard) trivial
  exact ⟨draft, (run outer chain).append rest, ends⟩

/-- A group is read on a chain of its own. -/
theorem Readable.group {opening closing : Location} (readable : Readable .total tokens agent)
    (nonempty : tokens ≠ [])
    : Readable .operand (⟨.openParen, opening⟩ :: (tokens ++ [⟨.closeParen, closing⟩]))
        agent := by
  intro outer chain _
  obtain ⟨draft, run, ends⟩ := readable (chain :: outer) .empty rfl
  have inner : Runs ⟨outer, chain, .paren opening⟩ tokens draft := by
    cases run with
    | nil => exact absurd rfl nonempty
    | @cons _ token next _ _ step rest =>
        -- Only a caret is taken differently behind a parenthesis, and no agent starts with one.
        refine .cons ?_ rest
        have caret : token.lexeme ≠ .caret := by
          intro lexeme
          simp [Draft.feed, Draft.startOperand, lexeme, Advance.unexpected] at step
        simpa [Draft.feed, caret] using step
  have closed := ends ⟨.closeParen, closing⟩ (by simp [Level.Closes])
  refine ⟨⟨outer, chain, .operand (chain.wrap agent)⟩, .cons rfl (inner.snoc closed), ?_⟩
  intro token _
  rfl

theorem Readable.parallel {first second : List Token} {left right : Agent} {loc : Location}
    (product : Readable .product first left) (operand : Readable .operand second right)
    : Readable .product (first ++ ⟨.pipe, loc⟩ :: second) (.parallel left right loc) := by
  intro outer chain opens
  obtain ⟨summand, factor, guards⟩ := chain
  obtain ⟨rfl, rfl⟩ := opens
  obtain ⟨middle, before, ends⟩ := product outer ⟨summand, none, []⟩ ⟨rfl, rfl⟩
  have pipe := ends ⟨.pipe, loc⟩ (by simp [Level.Closes])
  obtain ⟨draft, after, last⟩ := operand outer ⟨summand, some (left, loc), []⟩ trivial
  exact ⟨draft, before.append (.cons pipe after), last⟩

/-- A product is read to the same effect as an operand. -/
theorem Readable.product (readable : Readable .operand tokens agent)
    : Readable .product tokens agent :=
  fun outer chain _ => readable outer chain trivial

theorem Readable.total (readable : Readable .product tokens agent)
    : Readable .total tokens agent := by
  intro outer chain opens
  obtain rfl := opens
  obtain ⟨draft, run, ends⟩ := readable outer .empty ⟨rfl, rfl⟩
  exact ⟨draft, run, fun token closes => ends token ⟨closes.1, closes.2.1, closes.2.2.1⟩⟩

theorem Readable.choice {first second : List Token} {left right : Agent} {loc : Location}
    (total : Readable .total first left) (product : Readable .product second right)
    : Readable .total (first ++ ⟨.plus, loc⟩ :: second) (.choice left right loc) := by
  intro outer chain opens
  obtain rfl := opens
  obtain ⟨middle, before, ends⟩ := total outer .empty rfl
  have plus := ends ⟨.plus, loc⟩ (by simp [Level.Closes])
  obtain ⟨draft, after, last⟩ := product outer ⟨some (left, loc), none, []⟩ ⟨rfl, rfl⟩
  refine ⟨draft, before.append (.cons plus after), ?_⟩
  -- The sum is still open on the left, which only a `|` could tell from a sum read in full.
  intro token closes
  have ended := last token ⟨closes.1, closes.2.1, closes.2.2.1⟩
  exact ended.trans (endOperand_choice closes.2.2.2)

end Readable

theorem endsAs_name {outer : List Chain} {chain : Chain} {subject : String} {loc : Location}
    : Draft.EndsAs .operand outer chain (chain.wrap (.call subject [] loc))
        ⟨outer, chain, .name subject loc⟩ := by
  intro token closes
  simp only [Draft.feed]
  split
  next lexeme => exact absurd lexeme closes.1
  next lexeme => exact absurd lexeme closes.2.1
  next => rfl

theorem endsAs_arguments {outer : List Chain} {chain : Chain} {subject : String}
    {arguments : List String} {loc : Location}
    : Draft.EndsAs .operand outer chain (chain.wrap (.call subject arguments loc))
        ⟨outer, chain, .arguments subject arguments loc⟩ := by
  intro token closes
  simp only [Draft.feed]
  rw [if_neg closes.2.2]
  rfl

/-- Every derived agent is read as the derivation has it. -/
theorem Derives.readable {level : Level} {tokens : List Token} {agent : Agent}
    (derived : Derives level tokens agent)
    : Readable level tokens agent := by
  induction derived with
  | silent _ ih =>
      exact @Readable.guarded _ [_, _] _ (.silent _) ih fun _ _ => .cons rfl (.single rfl)
  | name =>
      intro outer chain _
      exact ⟨_, .single rfl, endsAs_name⟩
  | emptyCall =>
      intro outer chain _
      exact ⟨_, .cons rfl (.cons rfl (.single rfl)), fun _ _ => rfl⟩
  | call names =>
      intro outer chain _
      exact ⟨_, .cons rfl (.cons rfl (runs_nameList names)), endsAs_arguments⟩
  | @receive subject loc opening list object closing dot _ _ names _ ih =>
      have run outer chain
          : Runs ⟨outer, chain, .start⟩
              (⟨.name subject, loc⟩ :: ⟨.openParen, opening⟩
                :: (list ++ [⟨.closeParen, closing⟩] ++ [⟨.dot, dot⟩]))
              ⟨outer, chain.guarded (.receive subject object loc), .start⟩ :=
        .cons rfl (.cons rfl ((runs_nameList names).snoc rfl))
      simpa [Guard.apply] using ih.guarded run
  | send _ ih =>
      exact @Readable.guarded _ [_, _, _, _] _ (.send _ _ _) ih
        fun _ _ => .cons rfl (.cons rfl (.cons rfl (.single rfl)))
  | compare _ ih =>
      exact @Readable.guarded _ [_, _, _, _, _] _ (.compare _ _ _) ih
        fun _ _ => .cons rfl (.cons rfl (.cons rfl (.cons rfl (.single rfl))))
  | inert =>
      intro outer chain _
      exact ⟨_, .single rfl, fun _ _ => rfl⟩
  | restrict _ ih =>
      exact @Readable.guarded _ [_, _, _, _] _ (.restrict _ _) ih
        fun _ _ => .cons rfl (.cons rfl (.cons rfl (.single rfl)))
  | group derived ih => exact ih.group derived.ne_nil
  | product _ ih => exact ih.product
  | parallel _ _ hl hr => exact hl.parallel hr
  | total _ ih => exact ih.total
  | choice _ _ hl hr => exact hl.choice hr

end Agent

end PiCalculus
