import Mathlib.Data.List.Chain
import PiCalculus.Proofs.Lexing

/-! A text that can be cut into tokens is a row of lexemes with gaps between them. The gaps are
blanks and comments, two words or numbers never touch, and the place of a token counts the
lines and characters in front of its lexeme.
-/

namespace PiCalculus

/-- The place behind `text`: its line breaks, and the characters behind the last of them. -/
def Location.behind (text : List Char) : Location :=
  ⟨text.count '\n', (text.reverse.takeWhile (· ≠ '\n')).length⟩

namespace Lexeme

/-- A word or a number, which goes on as long as word characters follow. -/
def IsRun : Lexeme → Bool
  | name _ | number _ | agent | tau => true
  | _ => false

/-- A lexeme that can be spelled: a name is a word other than the keywords, and a number is a
row of digits.
-/
def Proper : Lexeme → Prop
  | name text => IsName text
  | number text => text ≠ "" ∧ ∀ c ∈ text.toList, c.isDigit
  | _ => True

end Lexeme

/-- Blanks and comments, where each comment ends with its line. -/
inductive Gap : List Char → Prop
  | nil : Gap []
  | blank {c rest} (blank : isBlank c) (tail : Gap rest) : Gap (c :: rest)
  | comment {line rest} (inside : ∀ c ∈ line, c ≠ '\n') (tail : Gap rest)
    : Gap ('%' :: (line ++ '\n' :: rest))

/-- A gap at the end of a text, which may end inside a comment. -/
inductive LastGap : List Char → Prop
  | closed {text} (gap : Gap text) : LastGap text
  | comment {text line} (gap : Gap text) (inside : ∀ c ∈ line, c ≠ '\n')
    : LastGap (text ++ '%' :: line)

/-- A lexeme and the gap in front of it. -/
structure Piece where
  gap : List Char
  lexeme : Lexeme
deriving DecidableEq, Repr, Inhabited

def Piece.text (piece : Piece) : List Char := piece.gap ++ piece.lexeme.spelling.toList

/-- Two pieces can stand side by side. -/
def Piece.Apart (piece next : Piece) : Prop :=
  piece.lexeme.IsRun → next.lexeme.IsRun → next.gap ≠ []

/-- Pieces and a last gap that make up a text. -/
structure Cut (text : List Char) (pieces : List Piece) (last : List Char) : Prop where
  text_eq : text = pieces.flatMap Piece.text ++ last
  gap : ∀ piece ∈ pieces, Gap piece.gap
  lastGap : LastGap last
  proper : ∀ piece ∈ pieces, piece.lexeme.Proper
  apart : pieces.IsChain Piece.Apart

/-- The tokens of pieces that stand one behind the other from the start of a text. -/
def placedTokens (pieces : List Piece) : List Token :=
  pieces.mapIdx fun index piece =>
    ⟨piece.lexeme, .behind ((pieces.take index).flatMap Piece.text ++ piece.gap)⟩

-----------------------------------------------------------------------------------------
-- Places
-----------------------------------------------------------------------------------------

theorem Location.after_start (text : List Char) : Location.start.after text = .behind text := by
  induction text using List.reverseRecOn with
  | nil => rfl
  | append_singleton text c ih =>
      rw [after_append, ih, after_cons, after_nil]
      by_cases h : c = '\n' <;> simp [next, behind, h]

/-- The tokens of pieces that stand one behind the other from `loc` on. -/
def tokensFrom (loc : Location) : List Piece → List Token
  | [] => []
  | piece :: pieces =>
      ⟨piece.lexeme, loc.after piece.gap⟩ :: tokensFrom (loc.after piece.text) pieces

theorem tokensFrom_eq (loc : Location) (pieces : List Piece)
    : tokensFrom loc pieces
      = pieces.mapIdx fun index piece =>
          ⟨piece.lexeme, loc.after ((pieces.take index).flatMap Piece.text ++ piece.gap)⟩ := by
  induction pieces generalizing loc with
  | nil => rfl
  | cons piece pieces ih => simp [tokensFrom, ih, List.mapIdx_cons]

theorem placedTokens_eq (pieces : List Piece)
    : placedTokens pieces = tokensFrom .start pieces := by
  simp only [placedTokens, tokensFrom_eq, Location.after_start]

-----------------------------------------------------------------------------------------
-- Gaps and spellings
-----------------------------------------------------------------------------------------

theorem isWordChar_eq_false_of_isBlank {c : Char} (blank : isBlank c)
    : isWordChar c = false := by
  cases word : isWordChar c with
  | false => rfl
  | true => simp [isBlank_eq_false_of_isWordChar word] at blank

theorem Gap.append {gap more : List Char} (h : Gap gap) (tail : Gap more)
    : Gap (gap ++ more) := by
  induction h with
  | nil => exact tail
  | blank blank _ ih => exact .blank blank ih
  | comment inside _ ih => simpa using Gap.comment inside ih

/-- No word goes on in a gap. Where a gap is empty, what follows it counts. -/
theorem Gap.boundary {gap rest : List Char} (h : Gap gap) (empty : gap = [] → Boundary rest)
    : Boundary (gap ++ rest) := by
  cases h with
  | nil => exact empty rfl
  | blank blank _ => exact boundary_cons (isWordChar_eq_false_of_isBlank blank)
  | comment _ _ => exact boundary_cons rfl

theorem LastGap.boundary {gap : List Char} (h : LastGap gap) : Boundary gap := by
  cases h with
  | closed gap => simpa using gap.boundary fun _ => (nofun : Boundary [])
  | comment gap _ => exact gap.boundary fun _ => boundary_cons rfl

theorem Gap.lastGap {gap last : List Char} (h : Gap gap) (tail : LastGap last)
    : LastGap (gap ++ last) := by
  cases tail with
  | closed tail => exact .closed (h.append tail)
  | comment tail inside => simpa using LastGap.comment (h.append tail) inside

namespace Lexeme

/-- The spelling of a lexeme starts with a word character just when it is a word or a number.
-/
theorem Proper.exists_first {lexeme : Lexeme} (proper : lexeme.Proper)
    : ∃ c rest, lexeme.spelling.toList = c :: rest ∧ isWordChar c = lexeme.IsRun := by
  cases lexeme with
  | name text =>
      obtain ⟨letter, _⟩ := proper
      cases characters : text.toList with
      | nil => simp [characters] at letter
      | cons c rest =>
          have first : isLetter c := by simpa [characters] using letter
          exact ⟨c, rest, characters, isWordChar_of_isLetter first⟩
  | number text =>
      obtain ⟨ne, digits⟩ := proper
      cases characters : text.toList with
      | nil => exact absurd (String.toList_eq_nil_iff.mp characters) ne
      | cons c rest =>
          have digit : c.isDigit := digits c (by simp [characters])
          exact ⟨c, rest, characters, isWordChar_of_isDigit digit⟩
  | _ => exact ⟨_, _, rfl, by decide⟩

theorem spelling_of_ofSymbol? {c : Char} {symbol : Lexeme} (found : ofSymbol? c = some symbol)
    : symbol.spelling.toList = [c] ∧ symbol.Proper ∧ symbol.IsRun = false := by
  unfold ofSymbol? at found
  split at found <;> cases found
  all_goals exact ⟨by decide, trivial, rfl⟩

@[simp]
theorem spelling_ofWord (text : String) : (ofWord text).spelling = text := by
  unfold ofWord
  split
  next keyword => exact keyword.symm
  next =>
    split
    next keyword => exact keyword.symm
    next => rfl

theorem proper_ofWord {first : Char} {text : List Char} (letter : isLetter first)
    (inside : ∀ c ∈ text, isWordChar c)
    : (ofWord (String.ofList (first :: text))).Proper := by
  unfold ofWord
  split
  next => trivial
  next =>
    split
    next => trivial
    next =>
      refine ⟨by simpa using letter, ?_, by assumption, by assumption⟩
      simpa [isWordChar_of_isLetter letter] using inside

end Lexeme

/-- Every lexeme of a text of the language can be spelled. -/
theorem Lexed.proper {loc : Location} {text : List Char} {tokens : List Token}
    (lexed : Lexed loc text tokens)
    : ∀ token ∈ tokens, token.lexeme.Proper := by
  induction lexed with
  | nil => simp
  | blank _ _ ih => exact ih
  | comment _ _ _ ih => exact ih
  | symbol found _ ih =>
      exact List.forall_mem_cons.mpr ⟨(Lexeme.spelling_of_ofSymbol? found).2.1, ih⟩
  | word letter inside _ _ ih =>
      exact List.forall_mem_cons.mpr ⟨Lexeme.proper_ofWord letter inside, ih⟩
  | number digit inside _ _ ih =>
      refine List.forall_mem_cons.mpr ⟨⟨by simp, ?_⟩, ih⟩
      simpa [digit] using inside

-----------------------------------------------------------------------------------------
-- From pieces to tokens
-----------------------------------------------------------------------------------------

theorem Gap.lexed {gap rest : List Char} {loc : Location} {tokens : List Token} (h : Gap gap)
    (tail : Lexed (loc.after gap) rest tokens)
    : Lexed loc (gap ++ rest) tokens := by
  induction h generalizing loc with
  | nil => exact tail
  | blank blank _ ih => exact .blank blank (ih tail)
  | @comment line more inside _ ih =>
      have newline : Lexed ((loc.next '%').after line) ('\n' :: (more ++ rest)) tokens :=
        .blank rfl (ih (by simpa using tail))
      simpa using Lexed.comment inside (by simp) newline

theorem LastGap.lexed {last : List Char} (h : LastGap last) (loc : Location)
    : Lexed loc last [] := by
  cases h with
  | closed gap => simpa using gap.lexed .nil
  | @comment text line gap inside =>
      have unfinished : Lexed (loc.after text) ('%' :: (line ++ [])) [] :=
        .comment inside (by simp) .nil
      simpa using gap.lexed unfinished

/-- A lexeme is read where it is spelled, if a word or number does not go on behind it. -/
theorem Lexeme.Proper.lexed {lexeme : Lexeme} {loc : Location} {rest : List Char}
    {tokens : List Token} (proper : lexeme.Proper) (boundary : lexeme.IsRun → Boundary rest)
    (tail : Lexed (loc.after lexeme.spelling.toList) rest tokens)
    : Lexed loc (lexeme.spelling.toList ++ rest) (⟨lexeme, loc⟩ :: tokens) := by
  cases lexeme with
  | name text => exact .name proper (boundary rfl) tail
  | number text =>
      obtain ⟨first, digits, characters, _⟩ := proper.exists_first
      simp only [spelling] at characters tail ⊢
      have inside := proper.2
      rw [characters] at inside tail ⊢
      rw [← String.ofList_toList (s := text), characters]
      exact .number (inside first List.mem_cons_self)
        (fun c member => inside c (List.mem_cons_of_mem _ member)) (boundary rfl) tail
  | agent =>
      exact @Lexed.word _ 'a' ['g', 'e', 'n', 't'] _ _ rfl (List.all_eq_true.mp rfl)
        (boundary rfl) tail
  | tau =>
      exact @Lexed.word _ 't' ['a', 'u'] _ _ rfl (List.all_eq_true.mp rfl) (boundary rfl) tail
  | _ => exact .symbol rfl tail

namespace Cut

variable {text last : List Char} {piece : Piece} {pieces : List Piece}

theorem tail (cut : Cut text (piece :: pieces) last)
    : Cut (pieces.flatMap Piece.text ++ last) pieces last where
  text_eq := rfl
  gap := fun other member => cut.gap other (List.mem_cons_of_mem _ member)
  lastGap := cut.lastGap
  proper := fun other member => cut.proper other (List.mem_cons_of_mem _ member)
  apart := cut.apart.tail

/-- What stands behind a word or a number does not continue it. -/
theorem boundary (cut : Cut text (piece :: pieces) last) (run : piece.lexeme.IsRun)
    : Boundary (pieces.flatMap Piece.text ++ last) := by
  cases pieces with
  | nil => exact cut.lastGap.boundary
  | cons next pieces =>
      have apart : piece.Apart next := (List.isChain_cons_cons.mp cut.apart).1
      obtain ⟨c, rest, spelled, kind⟩ := (cut.proper next (by simp)).exists_first
      have touching : next.gap = [] → isWordChar c = false := by
        intro empty
        rw [kind]
        exact Bool.eq_false_iff.mpr fun also => apart run also empty
      have behind := (cut.gap next (by simp)).boundary fun empty =>
        @boundary_cons _ (rest ++ (pieces.flatMap Piece.text ++ last)) (touching empty)
      simpa [Piece.text, spelled] using behind

/-- Pieces are cut into their tokens, wherever they start, by induction on them. -/
theorem lexed (cut : Cut text pieces last) (loc : Location)
    : Lexed loc text (tokensFrom loc pieces) := by
  induction pieces generalizing text loc with
  | nil =>
      rw [cut.text_eq]
      exact cut.lastGap.lexed loc
  | cons piece pieces ih =>
      have tail := ih cut.tail (loc.after piece.text)
      rw [Piece.text, Location.after_append] at tail
      have spelled := (cut.proper piece (by simp)).lexed cut.boundary tail
      have whole := (cut.gap piece (by simp)).lexed spelled
      rw [cut.text_eq]
      simpa [Piece.text, tokensFrom] using whole

-----------------------------------------------------------------------------------------
-- From tokens to pieces
-----------------------------------------------------------------------------------------

theorem cons (gap : Gap piece.gap) (proper : piece.lexeme.Proper)
    (apart : ∀ next ∈ pieces.head?, piece.Apart next) (cut : Cut text pieces last)
    : Cut (piece.text ++ text) (piece :: pieces) last where
  text_eq := by simp [cut.text_eq]
  gap := List.forall_mem_cons.mpr ⟨gap, cut.gap⟩
  lastGap := cut.lastGap
  proper := List.forall_mem_cons.mpr ⟨proper, cut.proper⟩
  apart := List.isChain_cons.mpr ⟨apart, cut.apart⟩

/-- A further gap in front belongs to the first piece, or to the last gap. -/
theorem prepend {gap : List Char} (h : Gap gap) (cut : Cut text pieces last) (loc : Location)
    : ∃ more behind,
        Cut (gap ++ text) more behind
        ∧ tokensFrom loc more = tokensFrom (loc.after gap) pieces := by
  cases pieces with
  | nil =>
      refine ⟨[], gap ++ last, ⟨?_, by simp, h.lastGap cut.lastGap, by simp, by simp⟩, rfl⟩
      simp [cut.text_eq]
  | cons piece pieces =>
      have wider : Gap (gap ++ piece.gap) := h.append (cut.gap piece (by simp))
      have apart := (List.isChain_cons.mp cut.apart).1
      have more := @cons _ _ ⟨gap ++ piece.gap, piece.lexeme⟩ pieces wider
        (cut.proper piece (by simp)) apart cut.tail
      refine ⟨⟨gap ++ piece.gap, piece.lexeme⟩ :: pieces, last, ?_, ?_⟩
      · simpa [cut.text_eq, Piece.text] using more
      · simp [tokensFrom, Piece.text]

/-- A further lexeme in front becomes a piece without a gap. -/
theorem prepend_lexeme {lexeme : Lexeme} (proper : lexeme.Proper)
    (boundary : lexeme.IsRun → Boundary text) (cut : Cut text pieces last)
    : Cut (lexeme.spelling.toList ++ text) (⟨[], lexeme⟩ :: pieces) last := by
  refine @cons _ _ ⟨[], lexeme⟩ pieces .nil proper ?_ cut
  intro next member run also empty
  obtain ⟨more, rfl⟩ := List.head?_eq_some_iff.mp member
  obtain ⟨c, rest, spelled, kind⟩ := (cut.proper next (by simp)).exists_first
  have outside : isWordChar c = false := by
    apply boundary run
    simp [cut.text_eq, Piece.text, empty, spelled]
  simp [kind, also] at outside

end Cut

theorem Lexed.of_blank {loc : Location} {c : Char} {rest : List Char} {tokens : List Token}
    (blank : isBlank c) (lexed : Lexed loc (c :: rest) tokens)
    : Lexed (loc.next c) rest tokens := by
  cases lexed with
  | blank _ tail => exact tail
  | comment => exact absurd blank (by decide)
  | symbol found => simp [(symbol_class found).1] at blank
  | word letter =>
      simp [isBlank_eq_false_of_isWordChar (isWordChar_of_isLetter letter)] at blank
  | number digit => simp [isBlank_eq_false_of_isWordChar (isWordChar_of_isDigit digit)] at blank

/-- A text of the language can be cut into pieces with its tokens. -/
theorem Lexed.exists_cut {loc : Location} {text : List Char} {tokens : List Token}
    (lexed : Lexed loc text tokens)
    : ∃ pieces last, Cut text pieces last ∧ tokensFrom loc pieces = tokens := by
  cases lexed with
  | nil => exact ⟨[], [], ⟨rfl, by simp, .closed .nil, by simp, by simp⟩, rfl⟩
  | @blank _ c rest _ blank tail =>
      obtain ⟨pieces, last, cut, rfl⟩ := tail.exists_cut
      exact cut.prepend (.blank blank .nil) loc
  | @comment _ line rest _ inside ended tail =>
      cases rest with
      | nil =>
          cases tail
          refine ⟨[], '%' :: line, ⟨by simp, by simp, ?_, by simp, by simp⟩, rfl⟩
          exact .comment .nil inside
      | cons c rest =>
          obtain rfl : c = '\n' := ended c rfl
          obtain ⟨pieces, last, cut, rfl⟩ := (tail.of_blank rfl).exists_cut
          simpa using cut.prepend (.comment inside .nil) loc
  | @symbol _ c symbol rest _ found tail =>
      obtain ⟨pieces, last, cut, rfl⟩ := tail.exists_cut
      obtain ⟨spelled, proper, single⟩ := Lexeme.spelling_of_ofSymbol? found
      refine ⟨⟨[], symbol⟩ :: pieces, last, ?_, ?_⟩
      · simpa [spelled] using cut.prepend_lexeme proper (by simp [single])
      · simp [tokensFrom, Piece.text, spelled]
  | @word _ first text rest _ letter inside boundary tail =>
      obtain ⟨pieces, last, cut, rfl⟩ := tail.exists_cut
      have proper := Lexeme.proper_ofWord letter inside
      refine ⟨⟨[], .ofWord (String.ofList (first :: text))⟩ :: pieces, last, ?_, ?_⟩
      · simpa using cut.prepend_lexeme proper fun _ => boundary
      · simp [tokensFrom, Piece.text]
  | @number _ first text rest _ digit inside boundary tail =>
      obtain ⟨pieces, last, cut, rfl⟩ := tail.exists_cut
      have proper : (Lexeme.number (String.ofList (first :: text))).Proper :=
        ⟨by simp, by simpa [digit] using inside⟩
      refine ⟨⟨[], .number (String.ofList (first :: text))⟩ :: pieces, last, ?_, ?_⟩
      · simpa [Lexeme.spelling] using cut.prepend_lexeme proper fun _ => boundary
      · simp [tokensFrom, Piece.text, Lexeme.spelling]
termination_by text.length
decreasing_by all_goals grind

/-- A source is cut into tokens just when it is a row of lexemes with gaps between them, and
then these are the tokens of the row.
-/
theorem scan_eq_ok_iff_cut {source : String} {tokens : List Token}
    : scan source = .ok tokens
      ↔ ∃ pieces last, Cut source.toList pieces last ∧ tokens = placedTokens pieces := by
  rw [scan_eq_ok_iff_lexed]
  simp only [placedTokens_eq]
  constructor
  · intro lexed
    obtain ⟨pieces, last, cut, found⟩ := lexed.exists_cut
    exact ⟨pieces, last, cut, found.symm⟩
  · rintro ⟨pieces, last, cut, rfl⟩
    exact cut.lexed .start

end PiCalculus
