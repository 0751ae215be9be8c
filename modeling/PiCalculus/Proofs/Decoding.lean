import PiCalculus.Proofs.LexicalScope

/-! The text of a converted program can be read back. The decoder knows the layout and the
depth at each line break, so what stands in front of a line is never taken for a part of the
term, whatever it looks like.
-/

namespace PiCalculus

/-- Reads a value off the front of a text and leaves the rest. -/
abbrev Decoder := StateT (List Char) Option

namespace Decoder

/-- Reads exactly `lead`. -/
def expect (lead : String) : Decoder Unit := fun text =>
  (lead.toList.isPrefixOf? text).map ((), ·)

/-- Reads all digits there are, and at least one. -/
def digits : Decoder Nat := fun text =>
  match text.takeWhile Char.isDigit with
  | [] => none
  | found => some (Nat.ofDigitChars 10 found 0, text.dropWhile Char.isDigit)

/-- Reads a number and the `stop` behind it. -/
def number (stop : String) : Decoder Nat := do
  let value ← digits
  expect stop
  return value

/-- Bounds a repetition by the length of the text. -/
def bounded {α : Type} (decoder : Nat → Decoder α) : Decoder α := fun text =>
  (decoder text.length).run text

/-- Reads numbers with commas between them, at least one and at most `bound`, and the end of
their list.
-/
def ids : Nat → Decoder (List Nat)
  | 0 => failure
  | bound + 1 =>
      (do return [← number "])"]) <|> (do return (← number ", ") :: (← ids bound))

/-- Reads the rest of an invocation. -/
def invocation : Decoder (Nat × List Nat) := do
  let index ← number ", ["
  let arguments ← bounded ids <|> (do expect "])"; return [])
  return (index, arguments)

/-- Reads what `body` reads on a line of its own, and the end of the term it stands in. -/
def nested {α : Type} (layout : Layout) (depth : Nat) (body : Decoder α) : Decoder α := do
  expect (layout.margin (depth + 1))
  let value ← body
  expect ("\n" ++ layout.margin depth ++ ")")
  return value

/-- Reads what `body` reads on a line of its own, if another line follows. -/
def line {α : Type} (layout : Layout) (depth : Nat) (body : Decoder α) : Decoder α := do
  expect (layout.margin (depth + 1))
  let value ← body
  expect ",\n"
  return value

end Decoder

open Decoder

namespace Term

/-- The kinds of terms. -/
inductive Head where
  | inert
  | silent
  | receive
  | send
  | compare
  | restrict
  | choice
  | parallel
  | call
deriving DecidableEq, Repr, Inhabited

namespace Head

def all : List Head :=
  [inert, silent, receive, send, compare, restrict, choice, parallel, call]

/-- What a term of this kind starts with. -/
def text : Head → String
  | inert => "zero"
  | silent => "tau_prefix("
  | receive => "input_prefix("
  | send => "output_prefix("
  | compare => "match_proc("
  | restrict => "restriction("
  | choice => "summation(\n"
  | parallel => "parallel_composition(\n"
  | call => "identifier("

def decode : Decoder Head := fun text =>
  all.findSome? fun head => (head.text.toList.isPrefixOf? text).map (head, ·)

/-- Reads the rest of a term of this kind, where `level` reads a term that stands on the same
line and `below` one that stands deeper.
-/
def decodeRest (layout : Layout) (depth : Nat) (level below : Decoder Term)
    : Head → Decoder Term
  | inert => return .inert
  | silent => do
      let next ← level
      expect ")"
      return .silent next
  | receive => return .receive (← number ", ") (← number ",\n") (← nested layout depth below)
  | send => return .send (← number ", ") (← number ",\n") (← nested layout depth below)
  | compare => return .compare (← number ", ") (← number ",\n") (← nested layout depth below)
  | restrict => return .restrict (← number ",\n") (← nested layout depth below)
  | choice => return .choice (← line layout depth below) (← nested layout depth below)
  | parallel => return .parallel (← line layout depth below) (← nested layout depth below)
  | call => do
      let (index, arguments) ← invocation
      return .call index arguments

end Head

/-- Reads a term at `depth` in which less than `bound` terms are nested. -/
def decode (layout : Layout) : Nat → Nat → Decoder Term
  | 0, _ => failure
  | bound + 1, depth => do
      let head ← Head.decode
      head.decodeRest layout depth (decode layout bound depth)
        (decode layout bound (depth + 1))

end Term

/-- Reads one entry of a table of definitions. -/
def Definition.decode (layout : Layout) : Decoder Definition := do
  expect "["
  let _ ← number " -> "
  expect "pi_definition("
  let arity ← number ",\n"
  let body ← nested layout 0 (bounded fun bound => Term.decode layout (bound + 1) 1)
  expect "]"
  return ⟨arity, body⟩

namespace System

/-- Reads at most `bound` entries and the end of their table. -/
def decodeDefinitions (layout : Layout) : Nat → Decoder (List Definition)
  | 0 => failure
  | bound + 1 =>
      (do expect ",\n"; return [])
      <|> (do return (← Definition.decode layout) :: (← decodeDefinitions layout bound))

def decode (layout : Layout) : Decoder System := do
  expect blankTable
  let definitions ← bounded (decodeDefinitions layout)
  expect "identifier("
  let (entry, slots) ← invocation
  return ⟨definitions, entry, slots⟩

/-- The system that a text in this layout stands for. -/
def decode? (layout : Layout) (text : String) : Option System :=
  match (System.decode layout).run text.toList with
  | some (system, []) => some system
  | _ => none

end System

-----------------------------------------------------------------------------------------
-- What decoders read
-----------------------------------------------------------------------------------------

namespace Decoder

variable {α β : Type} {text more : String} {value : α}

/-- Off a text that starts with `text` the decoder reads `value` and leaves the rest. -/
def Reads (decoder : Decoder α) (text : String) (value : α) : Prop :=
  ∀ rest, decoder.run (text.toList ++ rest) = some (value, rest)

/-- The decoder reads nothing off a text that starts with `text`. -/
def Refuses (decoder : Decoder α) (text : String) : Prop :=
  ∀ rest, decoder.run (text.toList ++ rest) = none

theorem reads_pure (value : α) : (pure value : Decoder α).Reads "" value := by
  intro rest
  simp

theorem Reads.bind {decoder : Decoder α} {next : α → Decoder β} {result : β}
    (h : decoder.Reads text value) (hn : (next value).Reads more result)
    : (decoder >>= next).Reads (text ++ more) result := by
  intro rest
  simp [h _, hn _]

theorem Reads.bind_pure {decoder : Decoder α} (h : decoder.Reads text value)
    (result : α → β)
    : (decoder >>= fun found => pure (result found)).Reads text (result value) := by
  intro rest
  simp [h rest]

theorem Reads.orElse_left {decoder other : Decoder α} (h : decoder.Reads text value)
    : (decoder <|> other).Reads text value := by
  intro rest
  simp [h rest]

theorem Reads.orElse_right {decoder other : Decoder α} (hr : decoder.Refuses text)
    (h : other.Reads text value)
    : (decoder <|> other).Reads text value := by
  intro rest
  simp [h rest, hr rest]

theorem Refuses.append {decoder : Decoder α} (h : decoder.Refuses text) (more : String)
    : decoder.Refuses (text ++ more) := by
  intro rest
  simpa using h (more.toList ++ rest)

theorem Refuses.bind {decoder : Decoder α} {next : α → Decoder β} (h : decoder.Refuses text)
    : (decoder >>= next).Refuses text := by
  intro rest
  simp [h rest]

theorem reads_expect (lead : String) : (expect lead).Reads lead () := by
  intro rest
  have h : lead.toList.isPrefixOf? (lead.toList ++ rest) = some rest :=
    List.isPrefixOf?_eq_some_iff_append_eq.mpr rfl
  simp [expect, StateT.run, h]

/-- What ends a number: it starts with a character other than a digit. -/
def IsStop (stop : String) : Prop := stop.toList.head?.any fun c => !c.isDigit

instance (stop : String) : Decidable (IsStop stop) :=
  inferInstanceAs (Decidable (_ = true))

theorem digits_append {stop : String} (h : IsStop stop) (id : Nat) (rest : List Char)
    : digits.run (Nat.toDigits 10 id ++ (stop.toList ++ rest))
      = some (id, stop.toList ++ rest) := by
  obtain ⟨c, tail, hs⟩ : ∃ c tail, stop.toList = c :: tail := by
    cases hs : stop.toList with
    | nil => simp [IsStop, hs] at h
    | cons c tail => exact ⟨c, tail, rfl⟩
  have hc : c.isDigit = false := by simpa [IsStop, hs] using h
  have hd : ∀ d ∈ Nat.toDigits 10 id, d.isDigit := fun d hm =>
    Nat.isDigit_of_mem_toDigits (by decide) (by decide) hm
  have ht : (Nat.toDigits 10 id ++ (c :: tail ++ rest)).takeWhile Char.isDigit
      = Nat.toDigits 10 id := by
    simp [List.takeWhile_append_of_pos hd, hc]
  have hr : (Nat.toDigits 10 id ++ (c :: tail ++ rest)).dropWhile Char.isDigit
      = c :: tail ++ rest := by
    simp [List.dropWhile_append_of_pos hd, hc]
  have hv : Nat.ofDigitChars 10 (Nat.toDigits 10 id) 0 = id :=
    Nat.ofDigitChars_toDigits (by decide) (by decide)
  simp only [hs, digits, StateT.run, ht, hr]
  split
  next hn => exact absurd hn Nat.toDigits_ne_nil
  next => rw [hv]

theorem reads_number {stop : String} (h : IsStop stop) (id : Nat)
    : (number stop).Reads (toString id ++ stop) id := by
  intro rest
  have he := reads_expect stop rest
  simp [number, digits_append h, he]

theorem refuses_number {stop other : String} (ho : IsStop other)
    (h : (expect stop).Refuses other) (id : Nat)
    : (number stop).Refuses (toString id ++ other) := by
  intro rest
  simp [number, digits_append ho, h rest]

/-- A bound that suffices for the text read suffices for the whole text. -/
theorem reads_bounded {decoder : Nat → Decoder α}
    (h : ∀ bound, text.length ≤ bound → (decoder bound).Reads text value)
    : (bounded decoder).Reads text value := by
  intro rest
  exact h (text.toList ++ rest).length (by simp [← String.length_toList]) rest

theorem idList_cons_cons (id next : Nat) (others : List Nat)
    : Emission.idList (id :: next :: others)
      = toString id ++ ", " ++ Emission.idList (next :: others) := by
  simp [Emission.idList, String.append_assoc]

theorem length_le_length_idList (list : List Nat)
    : list.length ≤ (Emission.idList list).length + 1 := by
  induction list with
  | nil => simp
  | cons id others ih =>
      cases others with
      | nil => simp
      | cons next others =>
          rw [idList_cons_cons]
          simp only [List.length_cons, String.length_append] at ih ⊢
          have hs : ", ".length = 2 := rfl
          omega

theorem reads_ids {bound id : Nat} {others : List Nat} (h : others.length < bound)
    : (ids bound).Reads (Emission.idList (id :: others) ++ "])") (id :: others) := by
  induction others generalizing bound id with
  | nil =>
      obtain ⟨bound, rfl⟩ := Nat.exists_eq_add_one_of_ne_zero (Nat.ne_zero_of_lt h)
      have hs : Emission.idList [id] = toString id := by simp [Emission.idList]
      rw [ids, hs]
      exact ((reads_number (by decide) id).bind_pure _).orElse_left
  | cons next others ih =>
      obtain ⟨bound, rfl⟩ := Nat.exists_eq_add_one_of_ne_zero (Nat.ne_zero_of_lt h)
      have hi := @ih bound next (by simpa using h)
      -- Behind the first number a comma follows, so the list does not end there.
      have hr := refuses_number (by decide : IsStop ", ")
        (fun rest => rfl : (expect "])").Refuses ", ") id
      rw [ids, idList_cons_cons, String.append_assoc]
      exact Reads.orElse_right (hr.append _).bind
        ((reads_number (by decide) id).bind (hi.bind_pure _))

theorem refuses_ids (bound : Nat) : (ids bound).Refuses "])" := by
  intro rest
  cases bound with
  | zero => rfl
  | succ bound =>
      have hd : digits.run (']' :: ')' :: rest) = none := rfl
      simp [ids, number, hd]

theorem reads_invocation (index : Nat) (arguments : List Nat)
    : invocation.Reads (toString index ++ ", [" ++ (Emission.idList arguments ++ "])"))
        (index, arguments) := by
  refine (reads_number (by decide) index).bind (Reads.bind_pure ?_ _)
  cases arguments with
  | nil =>
      refine Reads.orElse_right ?_ ((reads_expect "])").bind_pure _)
      exact fun rest => refuses_ids _ rest
  | cons id others =>
      refine Reads.orElse_left (reads_bounded fun bound hb => reads_ids ?_)
      have hl := length_le_length_idList (id :: others)
      have hs : "])".length = 2 := rfl
      rw [String.length_append] at hb
      simp only [List.length_cons] at hl
      omega

theorem Reads.nested {layout : Layout} {depth : Nat} {body : Decoder α}
    (h : body.Reads text value)
    : (nested layout depth body).Reads
        (layout.margin (depth + 1) ++ (text ++ ("\n" ++ layout.margin depth ++ ")"))) value :=
  (reads_expect _).bind (h.bind ((reads_expect _).bind_pure _))

theorem Reads.line {layout : Layout} {depth : Nat} {body : Decoder α}
    (h : body.Reads text value)
    : (line layout depth body).Reads (layout.margin (depth + 1) ++ (text ++ ",\n")) value :=
  (reads_expect _).bind (h.bind ((reads_expect _).bind_pure _))

end Decoder

namespace Term

theorem Head.reads_decode (head : Head) : Head.decode.Reads head.text head := by
  cases head <;> exact fun rest => rfl

section Layout

variable {layout : Layout} {depth bound : Nat} {name body left right : String}
  {ids : List Nat} {next first second : Term}

theorem length_lt_application
    : body.length < (layout.application depth name ids body).length := by
  have hs : ")".length = 1 := rfl
  simp only [Layout.application, String.length_append, hs]
  omega

theorem length_lt_pair
    : left.length < (layout.pair depth name left right).length
      ∧ right.length < (layout.pair depth name left right).length := by
  have hs : ")".length = 1 := rfl
  simp only [Layout.pair, String.length_append, hs]
  omega

/-- A term with two ids in front of its continuation. -/
theorem reads_application {make : Nat → Nat → Term → Term} {x y : Nat} (head : Head)
    (hh : head.text = name ++ "(")
    (hd : ∀ level below,
      head.decodeRest layout depth level below
      = do return make (← number ", ") (← number ",\n") (← nested layout depth below))
    (h : (Term.decode layout bound (depth + 1)).Reads body next)
    : (Term.decode layout (bound + 1) depth).Reads (layout.application depth name [x, y] body)
        (make x y next) := by
  have ht : layout.application depth name [x, y] body
      = head.text
        ++ (toString x ++ ", "
          ++ (toString y ++ ",\n"
            ++ (layout.margin (depth + 1)
              ++ (body ++ ("\n" ++ layout.margin depth ++ ")"))))) := by
    simp [hh, Layout.application, Emission.idList, String.append_assoc]
  rw [ht]
  refine head.reads_decode.bind ?_
  rw [hd]
  exact (reads_number (by decide) x).bind
    ((reads_number (by decide) y).bind (h.nested.bind_pure _))

/-- A term with two continuations. -/
theorem reads_pair {make : Term → Term → Term} (head : Head) (hh : head.text = name ++ "(\n")
    (hd : ∀ level below,
      head.decodeRest layout depth level below
      = do return make (← line layout depth below) (← nested layout depth below))
    (hl : (Term.decode layout bound (depth + 1)).Reads left first)
    (hr : (Term.decode layout bound (depth + 1)).Reads right second)
    : (Term.decode layout (bound + 1) depth).Reads (layout.pair depth name left right)
        (make first second) := by
  have ht : layout.pair depth name left right
      = head.text
        ++ (layout.margin (depth + 1) ++ (left ++ ",\n")
          ++ (layout.margin (depth + 1)
            ++ (right ++ ("\n" ++ layout.margin depth ++ ")")))) := by
    simp [hh, Layout.pair, String.append_assoc]
  rw [ht]
  refine head.reads_decode.bind ?_
  rw [hd]
  exact hl.line.bind (hr.nested.bind_pure _)

end Layout

/-- A written term is read back with what follows left over, by induction on the bound, which
goes down with each term that is entered.
-/
theorem reads_decode {layout : Layout} {depth bound : Nat} {term : Term}
    (h : (term.text layout depth).length < bound)
    : (Term.decode layout bound depth).Reads (term.text layout depth) term := by
  induction bound generalizing depth term with
  | zero => exact absurd h (Nat.not_lt_zero _)
  | succ bound ih =>
      have hb := Nat.le_of_lt_succ h
      cases term with
      | inert =>
          have ht : text layout depth inert = Head.inert.text ++ "" := by simp [text, Head.text]
          rw [ht]
          exact Head.inert.reads_decode.bind (reads_pure _)
      | silent next =>
          have ht : text layout depth (silent next)
              = Head.silent.text ++ (next.text layout depth ++ ")") := by
            simp [text, Head.text, String.append_assoc]
          have hl : (next.text layout depth).length < bound := by
            have hs : ")".length = 1 := rfl
            rw [ht] at hb
            simp only [String.length_append, hs] at hb
            omega
          rw [ht]
          exact Head.silent.reads_decode.bind ((ih hl).bind ((reads_expect ")").bind_pure _))
      | receive subject object next =>
          have hn := ih (Nat.lt_of_lt_of_le length_lt_application hb)
          exact reads_application .receive (by decide) (fun _ _ => rfl) hn
      | send subject object next =>
          have hn := ih (Nat.lt_of_lt_of_le length_lt_application hb)
          exact reads_application .send (by decide) (fun _ _ => rfl) hn
      | compare left right next =>
          have hn := ih (Nat.lt_of_lt_of_le length_lt_application hb)
          exact reads_application .compare (by decide) (fun _ _ => rfl) hn
      | restrict name next =>
          have hn := ih (Nat.lt_of_lt_of_le length_lt_application hb)
          have ht : text layout depth (restrict name next)
              = Head.restrict.text
                ++ (toString name ++ ",\n"
                  ++ (layout.margin (depth + 1)
                    ++ (next.text layout (depth + 1)
                      ++ ("\n" ++ layout.margin depth ++ ")")))) := by
            simp [text, Head.text, Layout.application, Emission.idList, String.append_assoc]
          rw [ht]
          exact Head.restrict.reads_decode.bind
            ((reads_number (by decide) name).bind (hn.nested.bind_pure _))
      | choice left right =>
          have hl := ih (Nat.lt_of_lt_of_le length_lt_pair.1 hb)
          have hr := ih (Nat.lt_of_lt_of_le length_lt_pair.2 hb)
          exact reads_pair .choice (by decide) (fun _ _ => rfl) hl hr
      | parallel left right =>
          have hl := ih (Nat.lt_of_lt_of_le length_lt_pair.1 hb)
          have hr := ih (Nat.lt_of_lt_of_le length_lt_pair.2 hb)
          exact reads_pair .parallel (by decide) (fun _ _ => rfl) hl hr
      | call index arguments =>
          have ht : text layout depth (call index arguments)
              = Head.call.text
                ++ (toString index ++ ", [" ++ (Emission.idList arguments ++ "])")) := by
            simp [text, Head.text, invocationText, String.append_assoc]
          rw [ht]
          exact Head.call.reads_decode.bind ((reads_invocation index arguments).bind_pure _)

end Term

theorem Definition.reads_decode (layout : Layout) (definition : Definition) (index : Nat)
    : (Definition.decode layout).Reads (definition.entryText layout index) definition := by
  have ht : definition.entryText layout index
      = "["
        ++ (toString index ++ " -> "
          ++ ("pi_definition("
            ++ (toString definition.arity ++ ",\n"
              ++ (layout.margin 1
                ++ (definition.body.text layout 1 ++ ("\n" ++ layout.margin 0 ++ ")"))
                ++ "]")))) := by
    simp [entryText, Definition.text, Layout.application, Emission.idList,
      String.append_assoc]
  have hb : (bounded fun bound => Term.decode layout (bound + 1) 1).Reads
      (definition.body.text layout 1) definition.body :=
    reads_bounded fun bound h => Term.reads_decode (Nat.lt_succ_of_le h)
  rw [ht]
  exact (reads_expect "[").bind ((reads_number (by decide) index).bind
    ((reads_expect "pi_definition(").bind ((reads_number (by decide) definition.arity).bind
      (hb.nested.bind ((reads_expect "]").bind_pure _)))))

namespace System

/-- The entries of a table, from the index `start` on. -/
def entries (layout : Layout) (definitions : List Definition) (start : Nat) : String :=
  String.join ((definitions.zipIdx start).map fun item => item.1.entryText layout item.2)

theorem entries_cons (layout : Layout) (definition : Definition)
    (definitions : List Definition) (start : Nat)
    : entries layout (definition :: definitions) start
      = definition.entryText layout start ++ entries layout definitions (start + 1) := by
  simp [entries]

theorem length_le_length_entries (layout : Layout) (definitions : List Definition)
    (start : Nat)
    : definitions.length ≤ (entries layout definitions start).length := by
  induction definitions generalizing start with
  | nil => exact Nat.zero_le _
  | cons definition definitions ih =>
      have hi := ih (start + 1)
      have hs : "[".length = 1 := rfl
      simp only [entries_cons, Definition.entryText, String.length_append, List.length_cons, hs]
      omega

/-- The entries of a table are read back, by induction on them. -/
theorem reads_decodeDefinitions {layout : Layout} {definitions : List Definition}
    {start bound : Nat} (h : definitions.length < bound)
    : (decodeDefinitions layout bound).Reads (entries layout definitions start ++ ",\n")
        definitions := by
  induction definitions generalizing start bound with
  | nil =>
      obtain ⟨bound, rfl⟩ := Nat.exists_eq_add_one_of_ne_zero (Nat.ne_zero_of_lt h)
      have ht : entries layout [] start ++ ",\n" = ",\n" := by simp [entries]
      rw [ht]
      exact ((reads_expect ",\n").bind_pure _).orElse_left
  | cons definition definitions ih =>
      obtain ⟨bound, rfl⟩ := Nat.exists_eq_add_one_of_ne_zero (Nat.ne_zero_of_lt h)
      have hi := @ih (start + 1) bound (by simpa using h)
      have hr : (expect ",\n").Refuses (definition.entryText layout start) := by
        have hb : (expect ",\n").Refuses "[" := fun rest => rfl
        simpa [Definition.entryText, String.append_assoc] using hb.append
          (toString start ++ " -> " ++ definition.text layout ++ "]")
      rw [entries_cons, String.append_assoc]
      exact Reads.orElse_right (hr.append _).bind
        ((definition.reads_decode layout start).bind (hi.bind_pure _))

/-- The text of a system stands for this system, whatever the layout. -/
theorem decode?_text (layout : Layout) (system : System)
    : decode? layout (system.text layout) = some system := by
  have ht : system.text layout
      = blankTable
        ++ (entries layout system.definitions 0 ++ ",\n"
          ++ ("identifier("
            ++ (toString system.entry ++ ", ["
              ++ (Emission.idList system.slots ++ "])")))) := by
    simp [System.text, definitionTable, entries, invocationText, String.append_assoc]
  have hd : (bounded (decodeDefinitions layout)).Reads
      (entries layout system.definitions 0 ++ ",\n") system.definitions := by
    refine reads_bounded fun bound hb => reads_decodeDefinitions ?_
    have hl := length_le_length_entries layout system.definitions 0
    have hs : ",\n".length = 2 := rfl
    rw [String.length_append] at hb
    omega
  have hr : (System.decode layout).Reads (system.text layout) system := by
    rw [ht]
    exact (reads_expect blankTable).bind (hd.bind ((reads_expect "identifier(").bind
      ((reads_invocation system.entry system.slots).bind_pure _)))
  have ha : (System.decode layout).run (system.text layout).toList = some (system, []) := by
    simpa using hr []
  unfold decode?
  rw [ha]

end System

namespace Program

variable {program : Program} {layout : Layout} {text : String}

/-- A converted program has one lexical resolution, and the text of it. -/
theorem exists_resolution (h : program.convert layout = .ok text)
    : ∃ system,
        system.text layout = text ∧ ∀ found, program.ResolvesTo found ↔ found = system := by
  obtain ⟨system, hs, ht⟩ := convert_eq_ok_iff.mp h
  have hn := (resolve?_eq_some_iff.mp hs).1
  refine ⟨system, ht, ?_⟩
  intro found
  rw [resolvesTo_iff_resolve? hn, hs, Option.some.injEq, eq_comm]

/-- The text of a converted program stands for the lexical resolution of the program. So two
programs have the same text in a layout exactly if they have the same resolution.
-/
theorem convert_uniquely_decodable (h : program.convert layout = .ok text)
    : (∃ system, program.ResolvesTo system)
      ∧ (∀ system, program.ResolvesTo system → System.decode? layout text = some system)
      ∧ ∀ (other : Program) (written : String),
          other.convert layout = .ok written
          → ∀ system found,
              program.ResolvesTo system
              → other.ResolvesTo found
              → (written = text ↔ found = system) := by
  obtain ⟨system, rfl, hs⟩ := exists_resolution h
  refine ⟨⟨system, (hs system).mpr rfl⟩, ?_, ?_⟩
  · intro found hf
    rw [(hs found).mp hf]
    exact system.decode?_text layout
  · intro other written ho resolved found hr hf
    obtain ⟨decoded, rfl, hd⟩ := exists_resolution ho
    obtain rfl := (hs resolved).mp hr
    obtain rfl := (hd found).mp hf
    constructor
    · intro he
      have hl := congrArg (System.decode? layout) he
      rw [System.decode?_text, System.decode?_text] at hl
      exact Option.some.inj hl
    · intro he
      rw [he]

/-- A margin that looks like ids and the end of a term does no harm. -/
theorem shadowing_decodes
    : ∃ text,
        shadowing.convert ⟨"1)"⟩ = .ok text
        ∧ ∃ system,
            shadowing.ResolvesTo system
            ∧ System.decode? ⟨"1)"⟩ text = some system
            ∧ ∀ found, shadowing.ResolvesTo found → found = system := by
  have converts : shadowing.convert ⟨"1)"⟩
      = .ok ("(lambda id': PiIdentifier . pi_definition(0, zero))[0 -> pi_definition(2,\n"
        ++ "1)parallel_composition(\n1)1)input_prefix(1, 2,\n1)1)1)output_prefix(2, 2,\n"
        ++ "1)1)1)1)zero\n1)1)1))\n1)1)),\n1)1)output_prefix(1, 1,\n1)1)1)zero\n1)1))\n1))\n"
        ++ ")],\nidentifier(0, [0, 1])") := by
    decide +kernel
  obtain ⟨⟨system, hs⟩, decodes, same⟩ := convert_uniquely_decodable converts
  refine ⟨_, converts, system, hs, decodes system hs, ?_⟩
  intro found hf
  exact (same shadowing _ converts system found hs hf).mp rfl

end Program

end PiCalculus
