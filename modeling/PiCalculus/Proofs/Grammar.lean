import PiCalculus.Agent
import PiCalculus.Token

/-! The grammar of the notation: which lists of tokens stand for which names, agents,
declarations and programs. A node is placed at its first token, or at its operator, and
parentheses leave the node inside them as it is.
-/

namespace PiCalculus

/-- One name, or several with commas between them. -/
inductive Names : List Token → List String → Prop
  | one {name loc} : Names [⟨.name name, loc⟩] [name]
  | more {tokens names comma name loc} (h : Names tokens names)
    : Names (tokens ++ [⟨.comma, comma⟩, ⟨.name name, loc⟩]) (names ++ [name])

/-- Names that may end in a comma. -/
inductive NameList : List Token → List String → Prop
  | plain {tokens names} (h : Names tokens names) : NameList tokens names
  | trailing {tokens names comma} (h : Names tokens names)
    : NameList (tokens ++ [⟨.comma, comma⟩]) names

namespace Agent

/-- What an agent can be part of: a guard applies to operands, `|` joins operands to a
product, and `+` joins products to a total.
-/
inductive Level where
  | operand
  | product
  | total
deriving DecidableEq, Repr, Inhabited

inductive Derives : Level → List Token → Agent → Prop
  | silent {loc dot tokens next} (h : Derives .operand tokens next)
    : Derives .operand (⟨.tau, loc⟩ :: ⟨.dot, dot⟩ :: tokens) (.silent next loc)
  | name {name loc} : Derives .operand [⟨.name name, loc⟩] (.call name [] loc)
  | emptyCall {name loc opening closing}
    : Derives .operand [⟨.name name, loc⟩, ⟨.openParen, opening⟩, ⟨.closeParen, closing⟩]
        (.call name [] loc)
  | call {name loc opening list arguments closing} (ha : NameList list arguments)
    : Derives .operand
        (⟨.name name, loc⟩ :: ⟨.openParen, opening⟩ :: (list ++ [⟨.closeParen, closing⟩]))
        (.call name arguments loc)
  | receive {subject loc opening list object closing dot tokens next}
    (ho : NameList list [object]) (h : Derives .operand tokens next)
    : Derives .operand
        (⟨.name subject, loc⟩ :: ⟨.openParen, opening⟩
          :: (list ++ ⟨.closeParen, closing⟩ :: ⟨.dot, dot⟩ :: tokens))
        (.receive subject object next loc)
  | send {subject loc apostrophe object place dot tokens next}
    (h : Derives .operand tokens next)
    : Derives .operand
        (⟨.name subject, loc⟩ :: ⟨.apostrophe, apostrophe⟩ :: ⟨.name object, place⟩
          :: ⟨.dot, dot⟩ :: tokens)
        (.send subject object next loc)
  | compare {loc left first equals right second closing tokens next}
    (h : Derives .operand tokens next)
    : Derives .operand
        (⟨.openBracket, loc⟩ :: ⟨.name left, first⟩ :: ⟨.equals, equals⟩
          :: ⟨.name right, second⟩ :: ⟨.closeBracket, closing⟩ :: tokens)
        (.compare left right next loc)
  | inert {loc} : Derives .operand [⟨.number "0", loc⟩] (.inert loc)
  | restrict {loc caret name place closing tokens next} (h : Derives .operand tokens next)
    : Derives .operand
        (⟨.openParen, loc⟩ :: ⟨.caret, caret⟩ :: ⟨.name name, place⟩
          :: ⟨.closeParen, closing⟩ :: tokens)
        (.restrict name next loc)
  | group {opening tokens agent closing} (h : Derives .total tokens agent)
    : Derives .operand (⟨.openParen, opening⟩ :: (tokens ++ [⟨.closeParen, closing⟩])) agent
  | product {tokens agent} (h : Derives .operand tokens agent)
    : Derives .product tokens agent
  | parallel {first left loc second right} (hl : Derives .product first left)
    (hr : Derives .operand second right)
    : Derives .product (first ++ ⟨.pipe, loc⟩ :: second) (.parallel left right loc)
  | total {tokens agent} (h : Derives .product tokens agent) : Derives .total tokens agent
  | choice {first left loc second right} (hl : Derives .total first left)
    (hr : Derives .product second right)
    : Derives .total (first ++ ⟨.plus, loc⟩ :: second) (.choice left right loc)

end Agent

/-- The parameters behind the name of a declaration, if any. -/
inductive Parameters : List Token → List String → Prop
  | none : Parameters [] []
  | empty {opening closing}
    : Parameters [⟨.openParen, opening⟩, ⟨.closeParen, closing⟩] []
  | list {opening list names closing} (h : NameList list names)
    : Parameters (⟨.openParen, opening⟩ :: (list ++ [⟨.closeParen, closing⟩])) names

inductive Declaration.Derives : List Token → Declaration → Prop
  | intro {loc name place head parameters equals tokens body semicolon}
    (hp : Parameters head parameters) (hb : Agent.Derives .total tokens body)
    : Derives
        (⟨.agent, loc⟩ :: ⟨.name name, place⟩
          :: (head ++ ⟨.equals, equals⟩ :: (tokens ++ [⟨.semicolon, semicolon⟩])))
        ⟨name, parameters, body, loc⟩

inductive Program.Derives : List Token → Program → Prop
  | nil : Derives [] ⟨[]⟩
  | cons {tokens declaration rest declarations} (h : Declaration.Derives tokens declaration)
    (hr : Derives rest ⟨declarations⟩)
    : Derives (tokens ++ rest) ⟨declaration :: declarations⟩

end PiCalculus
