import PiCalculus.Agent.Draft
import PiCalculus.Proofs.Grammar

/-! Soundness of reading an agent. A draft stands for the tokens read so far: those of the
chains that wait for a parenthesis, then those of the innermost chain, each split into
derived parts. Every token that belongs to the agent keeps this reading, and the token
behind the agent turns it into a derivation.
-/

namespace PiCalculus

namespace Agent

inductive Guard.Derives : List Token → Guard → Prop
  | silent {loc dot} : Derives [⟨.tau, loc⟩, ⟨.dot, dot⟩] (.silent loc)
  | receive {subject loc opening list object closing dot} (h : NameList list [object])
    : Derives
        (⟨.name subject, loc⟩ :: ⟨.openParen, opening⟩
          :: (list ++ [⟨.closeParen, closing⟩, ⟨.dot, dot⟩]))
        (.receive subject object loc)
  | send {subject loc apostrophe object place dot}
    : Derives
        [⟨.name subject, loc⟩, ⟨.apostrophe, apostrophe⟩, ⟨.name object, place⟩, ⟨.dot, dot⟩]
        (.send subject object loc)
  | compare {loc left first equals right second closing}
    : Derives
        [⟨.openBracket, loc⟩, ⟨.name left, first⟩, ⟨.equals, equals⟩, ⟨.name right, second⟩,
          ⟨.closeBracket, closing⟩]
        (.compare left right loc)
  | restrict {loc caret name place closing}
    : Derives
        [⟨.openParen, loc⟩, ⟨.caret, caret⟩, ⟨.name name, place⟩, ⟨.closeParen, closing⟩]
        (.restrict name loc)

theorem Guard.Derives.apply {tokens rest : List Token} {guard : Guard} {next : Agent}
    (hg : guard.Derives tokens) (h : Agent.Derives .operand rest next)
    : Agent.Derives .operand (tokens ++ rest) (guard.apply next) := by
  cases hg with
  | silent => exact .silent h
  | receive ho => simpa [Guard.apply] using Agent.Derives.receive ho h
  | send => exact .send h
  | compare => exact .compare h
  | restrict => exact .restrict h

/-- The tokens of the guards in front of an operand; the last guard read comes first. -/
inductive GuardsRead : List Token → List Guard → Prop
  | nil : GuardsRead [] []
  | cons {tokens guards more guard} (h : GuardsRead tokens guards)
    (hg : Guard.Derives more guard)
    : GuardsRead (tokens ++ more) (guard :: guards)

/-- The tokens on the left of an operand up to an operator, if there is one. -/
inductive LeftRead (level : Level) (operator : Lexeme)
    : List Token → Option (Agent × Location) → Prop
  | none : LeftRead level operator [] none
  | some {tokens agent loc} (h : Derives level tokens agent)
    : LeftRead level operator (tokens ++ [⟨operator, loc⟩]) (some (agent, loc))

/-- The tokens of a chain in front of its guards. -/
inductive Chain.Opened : List Token → Chain → Prop
  | intro {summand factor chain} (hs : LeftRead .total .plus summand chain.summand)
    (hf : LeftRead .product .pipe factor chain.factor)
    : Opened (summand ++ factor) chain

/-- The tokens of an operand up to a point strictly inside of it, without its guards. -/
inductive Point.Inside : List Token → Point → Prop
  | start : Inside [] .start
  | tau {loc} : Inside [⟨.tau, loc⟩] (.tau loc)
  | name {subject loc} : Inside [⟨.name subject, loc⟩] (.name subject loc)
  | firstArgument {subject loc opening}
    : Inside [⟨.name subject, loc⟩, ⟨.openParen, opening⟩] (.firstArgument subject loc)
  | argument {subject loc opening list arguments} (h : Names list arguments)
    : Inside (⟨.name subject, loc⟩ :: ⟨.openParen, opening⟩ :: list)
        (.argument subject arguments loc)
  | nextArgument {subject loc opening list arguments comma} (h : Names list arguments)
    : Inside
        (⟨.name subject, loc⟩ :: ⟨.openParen, opening⟩ :: (list ++ [⟨.comma, comma⟩]))
        (.nextArgument subject arguments loc)
  | arguments {subject loc opening list arguments closing} (h : NameList list arguments)
    : Inside
        (⟨.name subject, loc⟩ :: ⟨.openParen, opening⟩ :: (list ++ [⟨.closeParen, closing⟩]))
        (.arguments subject arguments loc)
  | output {subject loc apostrophe}
    : Inside [⟨.name subject, loc⟩, ⟨.apostrophe, apostrophe⟩] (.output subject loc)
  | outputObject {subject loc apostrophe object place}
    : Inside [⟨.name subject, loc⟩, ⟨.apostrophe, apostrophe⟩, ⟨.name object, place⟩]
        (.outputObject subject object loc)
  | bracket {loc} : Inside [⟨.openBracket, loc⟩] (.bracket loc)
  | matchLeft {loc left first}
    : Inside [⟨.openBracket, loc⟩, ⟨.name left, first⟩] (.matchLeft left loc)
  | matchEquals {loc left first equals}
    : Inside [⟨.openBracket, loc⟩, ⟨.name left, first⟩, ⟨.equals, equals⟩]
        (.matchEquals left loc)
  | matchRight {loc left first equals right second}
    : Inside
        [⟨.openBracket, loc⟩, ⟨.name left, first⟩, ⟨.equals, equals⟩, ⟨.name right, second⟩]
        (.matchRight left right loc)
  | paren {loc} : Inside [⟨.openParen, loc⟩] (.paren loc)
  | caret {loc caret} : Inside [⟨.openParen, loc⟩, ⟨.caret, caret⟩] (.caret loc)
  | restricted {loc caret name place}
    : Inside [⟨.openParen, loc⟩, ⟨.caret, caret⟩, ⟨.name name, place⟩] (.restricted name loc)

/-- The tokens of an operand up to a point, with its guards. -/
inductive Point.Reads (guards : List Guard) : List Token → Point → Prop
  | operand {tokens agent} (h : Derives .operand tokens agent)
    : Reads guards tokens (.operand agent)
  | inside {before tokens point} (hg : GuardsRead before guards) (hp : Inside tokens point)
    : Reads guards (before ++ tokens) point

/-- The tokens of the chains that wait for their parentheses to be closed. -/
inductive OuterRead : List Token → List Chain → Prop
  | nil : OuterRead [] []
  | cons {tokens outer opened guards chain loc} (h : OuterRead tokens outer)
    (hc : Chain.Opened opened chain) (hg : GuardsRead guards chain.guards)
    : OuterRead (tokens ++ opened ++ guards ++ [⟨.openParen, loc⟩]) (chain :: outer)

/-- The tokens that lead to a draft. -/
inductive Draft.Reads : List Token → Draft → Prop
  | intro {outer opened tokens draft} (ho : OuterRead outer draft.outer)
    (hc : Chain.Opened opened draft.chain)
    (hp : Point.Reads draft.chain.guards tokens draft.point)
    : Reads (outer ++ opened ++ tokens) draft

theorem GuardsRead.wrap {tokens rest : List Token} {chain : Chain} {operand : Agent}
    (hg : GuardsRead tokens chain.guards) (h : Derives .operand rest operand)
    : Derives .operand (tokens ++ rest) (chain.wrap operand) := by
  obtain ⟨summand, factor, guards⟩ := chain
  simp only [Chain.wrap] at hg ⊢
  induction hg generalizing rest operand with
  | nil => exact h
  | cons _ hg ih => simpa using ih (hg.apply h)

theorem LeftRead.product {tokens rest : List Token} {chain : Chain} {operand : Agent}
    (hf : LeftRead .product .pipe tokens chain.factor) (h : Derives .operand rest operand)
    : Derives .product (tokens ++ rest) (chain.product operand) := by
  obtain ⟨summand, factor, guards⟩ := chain
  cases hf with
  | none => exact .product h
  | some hl => simpa [Chain.product] using Derives.parallel hl h

theorem Chain.Opened.total {tokens rest : List Token} {chain : Chain} {operand : Agent}
    (hc : Chain.Opened tokens chain) (h : Derives .operand rest operand)
    : Derives .total (tokens ++ rest) (chain.total operand) := by
  obtain ⟨hs, hf⟩ := hc
  have hp := hf.product h
  obtain ⟨summand, factor, guards⟩ := chain
  cases hs with
  | none => exact .total hp
  | some hl => simpa [Chain.total] using Derives.choice hl hp

-----------------------------------------------------------------------------------------
-- One token
-----------------------------------------------------------------------------------------

namespace Draft

section Steps

variable {outer opened before inside : List Token} {draft next : Draft} {token : Token}

theorem Reads.moved {point : Point} (ho : OuterRead outer draft.outer)
    (hc : Chain.Opened opened draft.chain) (hg : GuardsRead before draft.chain.guards)
    (hp : Point.Inside (inside ++ [token]) point)
    : Reads (outer ++ opened ++ (before ++ inside) ++ [token]) { draft with point } := by
  have hr : Point.Reads draft.chain.guards (before ++ (inside ++ [token])) point :=
    .inside hg hp
  have h : Reads _ { draft with point } := .intro ho hc hr
  simpa only [List.append_assoc] using h

theorem Reads.guarded {guard : Guard} (ho : OuterRead outer draft.outer)
    (hc : Chain.Opened opened draft.chain) (hg : GuardsRead before draft.chain.guards)
    (hp : Guard.Derives (inside ++ [token]) guard)
    : Reads (outer ++ opened ++ (before ++ inside) ++ [token]) (draft.guarded guard) := by
  have hr : Point.Reads (guard :: draft.chain.guards) (before ++ (inside ++ [token]) ++ [])
      .start :=
    .inside (.cons hg hp) .start
  obtain ⟨hs, hf⟩ := hc
  have h : Reads _ (draft.guarded guard) := .intro ho (.intro hs hf) hr
  simpa only [List.append_assoc, List.append_nil] using h

theorem Reads.completed {operand : Agent} (ho : OuterRead outer draft.outer)
    (hc : Chain.Opened opened draft.chain) (hg : GuardsRead before draft.chain.guards)
    (hp : Derives .operand (inside ++ [token]) operand)
    : Reads (outer ++ opened ++ (before ++ inside) ++ [token]) (draft.completed operand) := by
  have hr : Point.Reads draft.chain.guards (before ++ (inside ++ [token]))
      (.operand (draft.chain.wrap operand)) :=
    .operand (hg.wrap hp)
  have h : Reads _ (draft.completed operand) := .intro ho hc hr
  simpa only [List.append_assoc] using h

theorem Reads.startOperand (ho : OuterRead outer draft.outer)
    (hc : Chain.Opened opened draft.chain) (hg : GuardsRead before draft.chain.guards)
    (hf : draft.startOperand token = .more next)
    : Reads (outer ++ opened ++ (before ++ []) ++ [token]) next := by
  obtain ⟨lexeme, loc⟩ := token
  unfold Draft.startOperand at hf
  split at hf
  next h =>
    cases h
    cases hf
    exact .moved ho hc hg .tau
  next h =>
    cases h
    cases hf
    exact .moved ho hc hg .name
  next h =>
    cases h
    cases hf
    exact .moved ho hc hg .bracket
  next h =>
    cases h
    cases hf
    exact .moved ho hc hg .paren
  next h =>
    cases h
    split at hf
    next hz =>
      subst hz
      cases hf
      exact .completed ho hc hg .inert
    next => cases hf
  next => cases hf

theorem Reads.endOperand {operand : Agent} {tokens : List Token}
    (ho : OuterRead outer draft.outer) (hc : Chain.Opened opened draft.chain)
    (h : Derives .operand tokens operand) (hf : draft.endOperand operand token = .more next)
    : Reads (outer ++ opened ++ tokens ++ [token]) next := by
  obtain ⟨lexeme, loc⟩ := token
  obtain ⟨chains, chain, point⟩ := draft
  have hn : Point.Reads [] ([] ++ []) .start := .inside .nil .start
  unfold Draft.endOperand at hf
  split at hf
  next hl =>
    cases hl
    cases hf
    obtain ⟨hs, hf⟩ := hc
    have hr : Reads _ ⟨chains, chain.alongside operand loc, .start⟩ :=
      .intro ho (.intro hs (.some (hf.product h))) hn
    simpa using hr
  next hl =>
    cases hl
    cases hf
    have hr : Reads _ ⟨chains, chain.otherwise operand loc, .start⟩ :=
      .intro ho (.intro (.some (hc.total h)) .none) hn
    simpa using hr
  next =>
    cases ho with
    | nil => cases hf
    | @cons _ rest _ _ inner opening ho hi hg =>
        simp only at hf
        split at hf
        next hl =>
          cases hl
          cases hf
          -- The group that ends here is the operand of the chain that waited for it.
          have hw := hg.wrap (@Derives.group opening _ _ loc (hc.total h))
          have hr : Reads _ ⟨rest, inner, .operand (inner.wrap (chain.total operand))⟩ :=
            .intro ho hi (.operand hw)
          simpa using hr
        next => cases hf

theorem derives_of_endOperand {operand agent : Agent} {tokens : List Token}
    (ho : OuterRead outer draft.outer) (hc : Chain.Opened opened draft.chain)
    (h : Derives .operand tokens operand) (hf : draft.endOperand operand token = .ended agent)
    : Derives .total (outer ++ opened ++ tokens) agent := by
  obtain ⟨chains, chain, point⟩ := draft
  unfold Draft.endOperand at hf
  split at hf
  next => cases hf
  next => cases hf
  next =>
    cases ho with
    | nil =>
        cases hf
        exact hc.total h
    | cons ho hi hg =>
        simp only at hf
        split at hf <;> cases hf

end Steps

theorem Reads.blank : Reads [] .blank := by
  have chain : Chain.Opened ([] ++ []) .empty := .intro .none .none
  have point : Point.Reads [] ([] ++ []) .start := .inside .nil .start
  exact @Reads.intro _ _ _ .blank .nil chain point

theorem takeName_eq_more {draft next : Draft} {token : Token} {point : String → Point}
    (h : draft.takeName token point = .more next)
    : ∃ name, token.lexeme = .name name ∧ next = { draft with point := point name } := by
  unfold takeName at h
  split at h
  next name hn =>
    cases h
    exact ⟨name, hn, rfl⟩
  next => cases h

/-- Where one lexeme is wanted, no other one leads on. -/
theorem eq_of_wanted {wanted : Lexeme} {expectation : Expectation} {reached next : Draft}
    {token : Token}
    (h : (if token.lexeme = wanted then Advance.more reached
      else .unexpected expectation token) = .more next)
    : token.lexeme = wanted ∧ next = reached := by
  split at h
  next hl =>
    cases h
    exact ⟨hl, rfl⟩
  next => cases h

/-- A token that belongs to an agent extends what its draft has read. -/
theorem Reads.feed {tokens : List Token} {draft next : Draft} {token : Token}
    (h : Reads tokens draft) (hf : draft.feed token = .more next)
    : Reads (tokens ++ [token]) next := by
  obtain ⟨ho, hc, hp⟩ := h
  obtain ⟨chains, chain, point⟩ := draft
  obtain ⟨lexeme, loc⟩ := token
  cases hp with
  | operand hd => exact Reads.endOperand ho hc hd hf
  | inside hg hi =>
    cases hi with
    | start => exact .startOperand ho hc hg hf
    | tau =>
        obtain ⟨hl, rfl⟩ := eq_of_wanted hf
        cases hl
        exact .guarded ho hc hg .silent
    | name =>
        simp only [Draft.feed] at hf
        split at hf
        next =>
          cases hf
          exact .moved ho hc hg .firstArgument
        next =>
          cases hf
          exact .moved ho hc hg .output
        next => exact .endOperand ho hc (hg.wrap .name) hf
    | firstArgument =>
        simp only [Draft.feed] at hf
        split at hf
        next =>
          cases hf
          exact .moved ho hc hg (.argument .one)
        next =>
          cases hf
          exact .completed ho hc hg .emptyCall
        next => cases hf
    | argument hn =>
        simp only [Draft.feed] at hf
        split at hf
        next =>
          cases hf
          exact .moved ho hc hg (.nextArgument hn)
        next =>
          cases hf
          exact .moved ho hc hg (.arguments (.plain hn))
        next => cases hf
    | nextArgument hn =>
        simp only [Draft.feed] at hf
        split at hf
        next =>
          cases hf
          exact .moved ho hc hg (by simpa using Point.Inside.argument (.more hn))
        next =>
          cases hf
          exact .moved ho hc hg (.arguments (.trailing hn))
        next => cases hf
    | arguments hn =>
        simp only [Draft.feed] at hf
        split at hf
        next hl =>
          cases hl
          split at hf
          next =>
            cases hf
            exact .guarded ho hc hg (by simpa using Guard.Derives.receive hn)
          next => cases hf
        next => exact .endOperand ho hc (hg.wrap (.call hn)) hf
    | output =>
        obtain ⟨name, hl, rfl⟩ := takeName_eq_more hf
        cases hl
        exact .moved ho hc hg .outputObject
    | outputObject =>
        obtain ⟨hl, rfl⟩ := eq_of_wanted hf
        cases hl
        exact .guarded ho hc hg .send
    | bracket =>
        obtain ⟨name, hl, rfl⟩ := takeName_eq_more hf
        cases hl
        exact .moved ho hc hg .matchLeft
    | matchLeft =>
        obtain ⟨hl, rfl⟩ := eq_of_wanted hf
        cases hl
        exact .moved ho hc hg .matchEquals
    | matchEquals =>
        obtain ⟨name, hl, rfl⟩ := takeName_eq_more hf
        cases hl
        exact .moved ho hc hg .matchRight
    | matchRight =>
        obtain ⟨hl, rfl⟩ := eq_of_wanted hf
        cases hl
        exact .guarded ho hc hg .compare
    | @paren opening =>
        simp only [Draft.feed] at hf
        split at hf
        next hl =>
          cases hl
          cases hf
          exact .moved ho hc hg .caret
        next =>
          -- The parenthesis opens a group: the chain read so far waits, and a new one starts.
          have hr := Reads.startOperand (@OuterRead.cons _ _ _ _ chain opening ho hc hg)
            (.intro .none .none) .nil hf
          simpa using hr
    | caret =>
        obtain ⟨name, hl, rfl⟩ := takeName_eq_more hf
        cases hl
        exact .moved ho hc hg .restricted
    | restricted =>
        obtain ⟨hl, rfl⟩ := eq_of_wanted hf
        cases hl
        exact .guarded ho hc hg .restrict

/-- The drafts whose operand may end before the next token, with the operand. -/
inductive Settled : Draft → Agent → Prop
  | operand {outer chain agent} : Settled ⟨outer, chain, .operand agent⟩ agent
  | name {outer chain subject loc}
    : Settled ⟨outer, chain, .name subject loc⟩ (chain.wrap (.call subject [] loc))
  | arguments {outer chain subject arguments loc}
    : Settled ⟨outer, chain, .arguments subject arguments loc⟩
        (chain.wrap (.call subject arguments loc))

theorem startOperand_ne_ended {draft : Draft} {token : Token} {agent : Agent}
    : draft.startOperand token ≠ .ended agent := by
  intro h
  unfold startOperand at h
  repeat' split at h
  all_goals cases h

theorem takeName_ne_ended {draft : Draft} {token : Token} {point : String → Point}
    {agent : Agent}
    : draft.takeName token point ≠ .ended agent := by
  intro h
  unfold takeName at h
  split at h <;> cases h

theorem feed_eq_ended {draft : Draft} {token : Token} {agent : Agent}
    (h : draft.feed token = .ended agent)
    : ∃ operand, draft.Settled operand ∧ draft.endOperand operand token = .ended agent := by
  obtain ⟨outer, chain, point⟩ := draft
  cases point with
  | operand operand => exact ⟨operand, .operand, h⟩
  | name subject loc =>
      simp only [feed] at h
      split at h
      next => cases h
      next => cases h
      next => exact ⟨_, .name, h⟩
  | arguments subject arguments loc =>
      simp only [feed] at h
      split at h
      next => split at h <;> cases h
      next => exact ⟨_, .arguments, h⟩
  | start => exact absurd h startOperand_ne_ended
  | output | bracket | matchEquals | caret => exact absurd h takeName_ne_ended
  | paren loc =>
      simp only [feed] at h
      split at h
      next => cases h
      next => exact absurd h startOperand_ne_ended
  | _ =>
      simp only [feed] at h
      split at h <;> cases h

/-- An agent ends where its tokens are derived from the grammar. -/
theorem Reads.ended {tokens : List Token} {draft : Draft} {token : Token} {agent : Agent}
    (h : Reads tokens draft) (hf : draft.feed token = .ended agent)
    : Derives .total tokens agent := by
  obtain ⟨operand, hs, he⟩ := feed_eq_ended hf
  obtain ⟨ho, hc, hp⟩ := h
  cases hs with
  | operand =>
      cases hp with
      | operand hd => exact derives_of_endOperand ho hc hd he
      | inside _ hi => cases hi
  | name =>
      cases hp with
      | inside hg hi =>
          cases hi
          exact derives_of_endOperand ho hc (hg.wrap .name) he
  | arguments =>
      cases hp with
      | inside hg hi =>
          cases hi with
          | arguments hn => exact derives_of_endOperand ho hc (hg.wrap (.call hn)) he

end Draft

end Agent

end PiCalculus
