import PiCalculus.Proofs.PlaceIndependence
import PiCalculus.Proofs.ReadingFaults

/-! Reading notices a fault at once. All that has been read up to a fault is the beginning of
some declaration, and with the token that shows the fault it is the beginning of none.
-/

namespace PiCalculus

namespace Agent

/-- The tokens are the beginning of an agent of this level. -/
def Completable (level : Level) (tokens : List Token) : Prop :=
  ∃ rest agent, Derives level (tokens ++ rest) agent

/-- An operand can be completed from every point inside of it. -/
theorem Point.Inside.completable {tokens : List Token} {point : Point}
    (inside : Inside tokens point)
    : Completable .operand tokens := by
  have zero : Derives .operand [⟨.number "0", .start⟩] (.inert .start) := .inert
  cases inside with
  | start => exact ⟨_, _, zero⟩
  | tau => exact ⟨[⟨.dot, .start⟩, _], _, .silent zero⟩
  | name => exact ⟨[], _, .name⟩
  | firstArgument => exact ⟨[⟨.closeParen, .start⟩], _, .emptyCall⟩
  | argument names => exact ⟨[⟨.closeParen, .start⟩], _, .call (.plain names)⟩
  | nextArgument names => exact ⟨[⟨.closeParen, .start⟩], _, .call (.trailing names)⟩
  | arguments names => exact ⟨[], _, by simpa using Derives.call names⟩
  | output => exact ⟨[⟨.name "x", .start⟩, ⟨.dot, .start⟩, _], _, .send zero⟩
  | outputObject => exact ⟨[⟨.dot, .start⟩, _], _, .send zero⟩
  | bracket =>
      exact ⟨[⟨.name "x", .start⟩, ⟨.equals, .start⟩, ⟨.name "x", .start⟩,
        ⟨.closeBracket, .start⟩, _], _, .compare zero⟩
  | matchLeft =>
      exact ⟨[⟨.equals, .start⟩, ⟨.name "x", .start⟩, ⟨.closeBracket, .start⟩, _], _,
        .compare zero⟩
  | matchEquals =>
      exact ⟨[⟨.name "x", .start⟩, ⟨.closeBracket, .start⟩, _], _, .compare zero⟩
  | matchRight => exact ⟨[⟨.closeBracket, .start⟩, _], _, .compare zero⟩
  | paren => exact ⟨[_, ⟨.closeParen, .start⟩], _, .group (.total (.product zero))⟩
  | caret => exact ⟨[⟨.name "x", .start⟩, ⟨.closeParen, .start⟩, _], _, .restrict zero⟩
  | restricted => exact ⟨[⟨.closeParen, .start⟩, _], _, .restrict zero⟩

theorem Completable.guarded {tokens before : List Token} {chain : Chain}
    (completable : Completable .operand tokens) (guards : GuardsRead before chain.guards)
    : Completable .operand (before ++ tokens) := by
  obtain ⟨rest, operand, derived⟩ := completable
  exact ⟨rest, chain.wrap operand, by simpa using guards.wrap derived⟩

/-- An open group is completed by its agent and a closing parenthesis. -/
theorem Completable.group {tokens : List Token} {loc : Location}
    (completable : Completable .total tokens)
    : Completable .operand (⟨.openParen, loc⟩ :: tokens) := by
  obtain ⟨rest, agent, derived⟩ := completable
  refine ⟨rest ++ [⟨.closeParen, .start⟩], agent, ?_⟩
  simpa using Derives.group derived

theorem Completable.total {tokens opened : List Token} {chain : Chain}
    (completable : Completable .operand tokens) (opening : Chain.Opened opened chain)
    : Completable .total (opened ++ tokens) := by
  obtain ⟨rest, operand, derived⟩ := completable
  exact ⟨rest, chain.total operand, by simpa using opening.total derived⟩

/-- The open groups are closed from the inside to the outside. -/
theorem OuterRead.completable {outer opened tokens : List Token} {chains : List Chain}
    {chain : Chain} (waiting : OuterRead outer chains) (opening : Chain.Opened opened chain)
    (completable : Completable .operand tokens)
    : Completable .total (outer ++ opened ++ tokens) := by
  induction waiting generalizing opened chain tokens with
  | nil => exact completable.total opening
  | @cons _ _ _ _ _ loc _ before guards ih =>
      have group := @(completable.total opening).group _ loc
      simpa using ih before (group.guarded guards)

theorem Draft.Reads.completable {tokens : List Token} {draft : Draft}
    (reads : Reads tokens draft)
    : Completable .total tokens := by
  obtain ⟨waiting, opening, reached⟩ := reads
  refine waiting.completable opening ?_
  obtain ⟨outer, chain, point⟩ := draft
  cases reached with
  | operand derived => exact ⟨[], _, by simpa using derived⟩
  | inside guards inside => exact inside.completable.guarded guards

end Agent

namespace Declaration

/-- Up to places, the tokens are the beginning of a declaration. -/
def Viable (tokens : List Token) : Prop :=
  ∃ whole declaration,
    Derives whole declaration ∧ tokens.map Token.lexeme <+: whole.map Token.lexeme

theorem Viable.of_append {tokens more : List Token} (viable : Viable (tokens ++ more))
    : Viable tokens := by
  obtain ⟨whole, declaration, derived, start⟩ := viable
  rw [List.map_append] at start
  exact ⟨whole, declaration, derived, (List.prefix_append _ _).trans start⟩

section Completion

variable {loc place equals : Location} {name : String} {head tokens : List Token}
  {parameters : List String}

theorem viable_of_body (parsed : Parameters head parameters)
    (body : Agent.Completable .total tokens)
    : Viable (⟨.agent, loc⟩ :: ⟨.name name, place⟩ :: (head ++ ⟨.equals, equals⟩ :: tokens)) := by
  obtain ⟨rest, agent, derived⟩ := body
  refine ⟨_, _, @Derives.intro loc name place _ _ equals _ _ .start parsed derived, ?_⟩
  exact ⟨rest.map Token.lexeme ++ [.semicolon], by simp⟩

theorem viable_of_head {more : List Token} (parsed : Parameters (head ++ more) parameters)
    : Viable (⟨.agent, loc⟩ :: ⟨.name name, place⟩ :: head) := by
  have whole := @viable_of_body loc place .start name _ [] _ parsed
    Agent.Draft.Reads.blank.completable
  rw [List.append_assoc] at whole
  exact @Viable.of_append (_ :: _ :: head) _ whole

end Completion

namespace Draft

variable {draft stop : Draft} {tokens : List Token} {token : Token} {diagnostic : Diagnostic}

/-- What a draft has read is the beginning of a declaration. -/
theorem Reads.viable (reads : Reads tokens draft) : Viable tokens := by
  cases reads with
  | blank => exact @Viable.of_append [] _ (@viable_of_head .start .start "A" [] _ [] .none)
  | @keyword loc =>
      exact @Viable.of_append [_] _ (@viable_of_head loc .start "A" [] _ [] .none)
  | named => exact @viable_of_head _ _ _ [] _ [] .none
  | firstParameter => exact @viable_of_head _ _ _ [_] _ [⟨.closeParen, .start⟩] .empty
  | parameter names =>
      exact @viable_of_head _ _ _ (_ :: _) _ [⟨.closeParen, .start⟩] (.list (.plain names))
  | nextParameter names =>
      exact @viable_of_head _ _ _ (_ :: _) _ [⟨.closeParen, .start⟩] (.list (.trailing names))
  | headed parsed => exact @viable_of_head _ _ _ _ _ [] (by simpa using parsed)
  | body parsed reads => exact viable_of_body parsed reads.completable

theorem Runs.read (run : Runs draft tokens stop) (last : Location) (rest : List Token)
    : draft.read last (tokens ++ rest) = stop.read last rest := by
  induction run with
  | nil => rfl
  | cons step _ ih =>
      rw [List.cons_append, Draft.read, step]
      exact ih

end Draft

end Declaration

end PiCalculus
