import PiCalculus.Proofs.LineBreaks

/-! What is wrong with the characters of a source can be read off the text around each of them:
the line in front of it and the run of word characters that it stands in. Cutting drops a
character that fits nowhere and goes on, and it reports exactly these characters.
-/

namespace PiCalculus

/-- A character that can stand in comments only. -/
def IsForeign (c : Char) : Prop :=
  c ∉ " \t\r\n%;()[]<>,'=.+|^~".toList ∧ isWordChar c = false

instance (c : Char) : Decidable (IsForeign c) :=
  inferInstanceAs (Decidable (_ ∧ _))

/-- What stands behind `before` is in a comment: a `%` comes before it on its line. -/
def Commented (before : List Char) : Prop := '%' ∈ before.reverse.takeWhile (· ≠ '\n')

instance (before : List Char) : Decidable (Commented before) :=
  inferInstanceAs (Decidable (_ ∈ _))

/-- A row of word characters between `front` and `back` that cannot be made longer. -/
structure WordRun (text front run back : List Char) : Prop where
  text_eq : text = front ++ (run ++ back)
  inside : ∀ c ∈ run, isWordChar c
  starts : ∀ c ∈ front.getLast?, isWordChar c = false
  ends : Boundary back

/-- The character at `index` is wrong, and in this way. -/
inductive Offends (text : List Char) (index : Nat) : Problem → Prop
  | unknown {c} (found : text[index]? = some c) (outside : ¬ Commented (text.take index))
    (foreign : IsForeign c)
    : Offends text index .unknownCharacter
  | letter {c front run back} (found : text[index]? = some c)
    (outside : ¬ Commented (text.take index)) (letter : isLetter c)
    (whole : WordRun text front run back) (lower : front.length ≤ index)
    (upper : index < front.length + run.length) (digit : run.head?.any Char.isDigit)
    : Offends text index .letterInNumber

/-- The first character of the run of word characters that ends with `before`. -/
def runStart? (before : List Char) : Option Char :=
  (before.reverse.takeWhile isWordChar).getLast?

/-- What is wrong with the character `c` behind `before`. -/
def offense? (before : List Char) (c : Char) : Option Problem :=
  if Commented before then none
  else if IsForeign c then some .unknownCharacter
  else if isLetter c ∧ (runStart? before).any Char.isDigit then some .letterInNumber
  else none

/-- The wrong characters of a text in their order, each with its index. -/
def offenses (text : List Char) : List (Nat × Problem) :=
  text.zipIdx.filterMap fun (c, index) => (offense? (text.take index) c).map (index, ·)

/-- A wrong character as it is reported. -/
def offenseAt (text : List Char) (offense : Nat × Problem) : Diagnostic :=
  ⟨offense.2, .behind (text.take offense.1)⟩

-----------------------------------------------------------------------------------------
-- Runs and comments
-----------------------------------------------------------------------------------------

section Before

variable {before : List Char} {c : Char}

theorem commented_concat
    : Commented (before ++ [c]) ↔ c ≠ '\n' ∧ (c = '%' ∨ Commented before) := by
  unfold Commented
  rw [List.reverse_concat, List.takeWhile_cons]
  by_cases newline : c = '\n' <;> simp [newline, eq_comm]

theorem runStart?_concat
    : runStart? (before ++ [c])
      = if isWordChar c then some ((runStart? before).getD c) else none := by
  unfold runStart?
  rw [List.reverse_concat, List.takeWhile_cons]
  split
  next => exact List.getLast?_cons
  next => rfl

/-- A word character goes on with the run in front of it. -/
theorem run_goes_on {first : Char} (outside : ¬ Commented before)
    (started : runStart? before = some first) (inside : isWordChar c)
    : ¬ Commented (before ++ [c]) ∧ runStart? (before ++ [c]) = some first := by
  refine ⟨?_, ?_⟩
  · simp [commented_concat, outside, ne_percent_of_isWordChar inside]
  · simp [runStart?_concat, inside, started]

theorem ofSymbol?_eq_none_iff
    : Lexeme.ofSymbol? c = none ↔ c ∉ ";()[]<>,'=.+|^~".toList := by
  unfold Lexeme.ofSymbol?
  split <;> simp_all

/-- The foreign characters are those that no branch of the scanner takes. -/
theorem isForeign_iff
    : IsForeign c
      ↔ isBlank c = false ∧ c ≠ '%' ∧ Lexeme.ofSymbol? c = none ∧ isWordChar c = false := by
  rw [ofSymbol?_eq_none_iff]
  simp only [IsForeign, isBlank]
  simp
  tauto

end Before

-----------------------------------------------------------------------------------------
-- Runs of the scanner
-----------------------------------------------------------------------------------------

/-- What a scanner is inside of, read off the text in front of it. -/
def Mode.Behind (before : List Char) : Mode → Prop
  | .comment => Commented before
  | .gap => ¬ Commented before ∧ runStart? before = none
  | .word _ _ =>
      ¬ Commented before ∧ ∃ first, runStart? before = some first ∧ first.isDigit = false
  | .number _ _ =>
      ¬ Commented before ∧ ∃ first, runStart? before = some first ∧ first.isDigit = true

namespace Scanner

variable {scanner : Scanner} {before : List Char} {c : Char}

theorem faults_enter (scanner : Scanner) (c : Char)
    : (scanner.enter c).faults
      = if IsForeign c then scanner.faults.push ⟨.unknownCharacter, scanner.loc⟩
        else scanner.faults := by
  have foreign := @isForeign_iff c
  simp only [isWordChar, Bool.or_eq_false_iff] at foreign
  unfold enter fault
  repeat' split
  all_goals simp_all

theorem mode_enter (gap : scanner.mode = .gap) (c : Char)
    : (scanner.enter c).mode
      = if c = '%' then .comment
        else if c.isDigit then .number (String.singleton c) scanner.loc
        else if isLetter c then .word (String.singleton c) scanner.loc
        else .gap := by
  by_cases blank : isBlank c
  · have apart := isWordChar_eq_false_of_isBlank blank
    simp only [isWordChar, Bool.or_eq_false_iff] at apart
    have percent : c ≠ '%' := by
      rintro rfl
      exact absurd blank (by decide)
    simp [enter, blank, percent, apart, gap]
  · unfold enter fault
    repeat' split
    all_goals simp_all

@[simp]
theorem mode_close (scanner : Scanner) : scanner.close.mode = .gap := by
  unfold close
  split <;> rfl

/-- Reading `c` behind `before` leads to `after`, as the text says: the mode is that behind `c`,
and `c` is reported if it is wrong.
-/
structure Judges (scanner : Scanner) (before : List Char) (c : Char) (after : Scanner)
    : Prop where
  mode : after.mode.Behind (before ++ [c])
  faults
    : after.faults.toList
      = scanner.faults.toList ++ ((offense? before c).map (⟨·, scanner.loc⟩)).toList

theorem judges_enter (gap : scanner.mode = .gap) (outside : ¬ Commented before)
    (fresh : isWordChar c → runStart? before = none)
    : scanner.Judges before c (scanner.enter c) := by
  refine ⟨?_, ?_⟩
  · rw [mode_enter gap]
    split
    next percent => exact commented_concat.mpr ⟨by simp [percent], .inl percent⟩
    next percent =>
      have still : ¬ Commented (before ++ [c]) := by simp [commented_concat, percent, outside]
      split
      next digit =>
        have word := isWordChar_of_isDigit digit
        exact ⟨still, c, by simp [runStart?_concat, word, fresh word], digit⟩
      next digit =>
        split
        next letter =>
          have word := isWordChar_of_isLetter letter
          exact ⟨still, c, by simp [runStart?_concat, word, fresh word], by simpa using digit⟩
        next letter => exact ⟨still, by simp [runStart?_concat, isWordChar, letter, digit]⟩
  · have letter : ¬ (isLetter c ∧ (runStart? before).any Char.isDigit) := by
      rintro ⟨letter, digit⟩
      simp [fresh (isWordChar_of_isLetter letter)] at digit
    rw [faults_enter, offense?, if_neg outside, if_neg letter]
    split <;> simp

/-- Behind a word or a number that ends in front of `c`, it is read as in a gap. -/
theorem judges_close_enter (outside : ¬ Commented before) (apart : isWordChar c = false)
    : scanner.Judges before c (scanner.close.enter c) := by
  obtain ⟨mode, faults⟩ :=
    @judges_enter scanner.close before c (mode_close scanner) outside (by simp [apart])
  exact ⟨mode, by simpa using faults⟩

/-- Every character is judged by the text in front of it, whatever the scanner is inside of. -/
theorem judges_read (behind : scanner.mode.Behind before)
    : scanner.Judges before c (scanner.read c) := by
  unfold read
  split
  next gap =>
    rw [gap] at behind
    exact judges_enter gap behind.1 fun _ => behind.2
  next comment =>
    rw [comment] at behind
    have quiet : offense? before c = none := if_pos behind
    split
    next newline =>
      refine ⟨?_, by simp [quiet]⟩
      simp [Mode.Behind, newline, commented_concat, runStart?_concat, isWordChar, isLetter]
    next other =>
      refine ⟨?_, by simp [quiet]⟩
      rw [comment]
      exact commented_concat.mpr ⟨other, .inr behind⟩
  next text start word =>
    rw [word] at behind
    obtain ⟨outside, first, started, digit⟩ := behind
    split
    next inside =>
      obtain ⟨still, same⟩ := run_goes_on outside started inside
      refine ⟨⟨still, first, same, digit⟩, ?_⟩
      simp [offense?, outside, isForeign_iff, inside, started, digit]
    next apart => exact judges_close_enter outside (by simpa using apart)
  next digits start number =>
    rw [number] at behind
    obtain ⟨outside, first, started, digit⟩ := behind
    split
    next more =>
      have inside := isWordChar_of_isDigit more
      obtain ⟨still, same⟩ := run_goes_on outside started inside
      refine ⟨⟨still, first, same, digit⟩, ?_⟩
      have letter : isLetter c = false := by
        cases letter : isLetter c with
        | false => rfl
        | true => simp [isDigit_eq_false_of_isLetter letter] at more
      simp [offense?, outside, isForeign_iff, inside, letter]
    next other =>
      split
      next letter =>
        have inside := isWordChar_of_isLetter letter
        obtain ⟨still, same⟩ := run_goes_on outside started inside
        refine ⟨?_, ?_⟩
        · rw [fault, number]
          exact ⟨still, first, same, digit⟩
        · simp [fault, offense?, outside, isForeign_iff, inside, started, digit, letter]
      next letter => exact judges_close_enter outside (by simp [isWordChar, other, letter])

/-- A run reports the wrong characters of the text, by induction on what is left of it. -/
theorem faults_run {text before rest : List Char} (split : text = before ++ rest)
    (behind : scanner.mode.Behind before) (place : scanner.loc = .behind before)
    : (scanner.run rest).faults.toList
      = scanner.faults.toList
        ++ ((rest.zipIdx before.length).filterMap fun (c, index) =>
            (offense? (text.take index) c).map (index, ·)).map (offenseAt text) := by
  induction rest generalizing scanner before with
  | nil => simp [run]
  | cons c rest ih =>
      obtain ⟨mode, faults⟩ := @judges_read scanner before c behind
      have next : (scanner.step c).loc = .behind (before ++ [c]) := by
        rw [loc_step, place, ← Location.after_start, ← Location.after_start]
        simp
      have tail := @ih (scanner.step c) (before ++ [c]) (by simp [split]) mode next
      -- What stands in front of `c` in the text is what was read so far.
      have front : text.take before.length = before := by simp [split]
      have read : (scanner.step c).faults = (scanner.read c).faults := rfl
      rw [run_cons, tail, read, faults, place, List.zipIdx_cons, List.filterMap_cons,
        List.length_append, List.length_singleton]
      simp only [front]
      cases offense? before c <;> simp [offenseAt, front]

end Scanner

theorem faultsIn_eq (source : String)
    : faultsIn source = (offenses source.toList).map (offenseAt source.toList) := by
  rw [faultsIn_eq_run]
  exact @Scanner.faults_run (.fresh .start) source.toList [] source.toList rfl
    ⟨by simp [Commented], rfl⟩ rfl

-----------------------------------------------------------------------------------------
-- The text around a character
-----------------------------------------------------------------------------------------

section Around

variable {text front run back before rest : List Char} {c : Char} {index : Nat}

theorem runStart?_append (inside : ∀ c ∈ run, isWordChar c)
    (starts : ∀ c ∈ front.getLast?, isWordChar c = false)
    : runStart? (front ++ run) = run.head? := by
  have stopped : front.reverse.takeWhile isWordChar = [] := by
    cases last : front.reverse with
    | nil => rfl
    | cons d others =>
        have apart : isWordChar d = false :=
          starts d (by simp [List.getLast?_eq_head?_reverse, last])
        simp [apart]
  have all : ∀ d ∈ run.reverse, isWordChar d := by simpa using inside
  simp [runStart?, List.takeWhile_append_of_pos all, stopped]

/-- Every word character stands in a run, which starts where the run in front of it does. -/
theorem exists_wordRun (word : isWordChar c)
    : ∃ front run back,
        WordRun (before ++ c :: rest) front run back
        ∧ front.length ≤ before.length
        ∧ before.length < front.length + run.length
        ∧ run.head? = some ((runStart? before).getD c) := by
  obtain ⟨left, front, reversed, inside, starts⟩ := exists_span isWordChar before.reverse
  obtain ⟨right, back, rfl, more, ends⟩ := exists_span isWordChar rest
  obtain rfl : before = front.reverse ++ left.reverse := by
    rw [← List.reverse_append, ← reversed, List.reverse_reverse]
  have starts : ∀ d ∈ front.reverse.getLast?, isWordChar d = false := by simpa using starts
  have inside : ∀ d ∈ left.reverse, isWordChar d := by simpa using inside
  refine ⟨front.reverse, left.reverse ++ c :: right, back, ⟨by simp, ?_, starts, ends⟩,
    by simp, by simp, ?_⟩
  · intro d member
    rcases List.mem_append.mp member with member | member
    · exact inside d member
    · rcases List.mem_cons.mp member with rfl | member
      · exact word
      · exact more d member
  · rw [runStart?_append inside starts]
    cases left.reverse <;> rfl

/-- A run that holds the character behind `before` starts in or right behind `before`. -/
theorem WordRun.exists_left (whole : WordRun (before ++ c :: rest) front run back)
    (lower : front.length ≤ before.length) (upper : before.length < front.length + run.length)
    : ∃ left right, before = front ++ left ∧ run = left ++ c :: right := by
  obtain ⟨left, rfl⟩ : front <+: before :=
    List.prefix_of_prefix_length_le ⟨_, whole.text_eq.symm⟩ ⟨_, rfl⟩ lower
  have same : left ++ [c] ++ rest = run ++ back := by simpa using whole.text_eq
  have shorter : (left ++ [c]).length ≤ run.length := by
    simp only [List.length_append, List.length_singleton] at upper ⊢
    omega
  obtain ⟨right, rfl⟩ : left ++ [c] <+: run :=
    List.prefix_of_prefix_length_le ⟨_, same⟩ ⟨_, rfl⟩ shorter
  exact ⟨left, right, rfl, by simp⟩

/-- A letter continues a number just when the whole run around it starts with a digit. -/
theorem any_runStart?_iff (letter : isLetter c)
    : (runStart? before).any Char.isDigit
      ↔ ∃ front run back,
          WordRun (before ++ c :: rest) front run back
          ∧ front.length ≤ before.length
          ∧ before.length < front.length + run.length
          ∧ run.head?.any Char.isDigit := by
  constructor
  · intro digit
    obtain ⟨front, run, back, whole, lower, upper, first⟩ :=
      @exists_wordRun before rest c (isWordChar_of_isLetter letter)
    refine ⟨front, run, back, whole, lower, upper, ?_⟩
    cases started : runStart? before <;> simp_all
  · intro found
    obtain ⟨front, run, back, whole, lower, upper, digit⟩ := found
    obtain ⟨left, right, rfl, rfl⟩ := whole.exists_left lower upper
    rw [runStart?_append (fun d member => whole.inside d (by simp [member])) whole.starts]
    cases left with
    | nil => simp [isDigit_eq_false_of_isLetter letter] at digit
    | cons first others => simpa using digit

theorem offense?_eq_some_iff {problem : Problem}
    : offense? before c = some problem
      ↔ Offends (before ++ c :: rest) before.length problem := by
  have here : (before ++ c :: rest)[before.length]? = some c := by simp
  have front : (before ++ c :: rest).take before.length = before := by simp
  constructor
  · intro wrong
    unfold offense? at wrong
    split at wrong
    next => cases wrong
    next outside =>
      rw [← front] at outside
      split at wrong
      next foreign =>
        cases wrong
        exact .unknown here outside foreign
      next =>
        split at wrong
        next continues =>
          cases wrong
          obtain ⟨front, run, back, whole, lower, upper, digit⟩ :=
            (any_runStart?_iff continues.1).mp continues.2
          exact .letter here outside continues.1 whole lower upper digit
        next => cases wrong
  · intro wrong
    cases wrong with
    | unknown found outside foreign =>
        cases here.symm.trans found
        rw [front] at outside
        simp [offense?, outside, foreign]
    | letter found outside letter whole lower upper digit =>
        cases here.symm.trans found
        rw [front] at outside
        have continues := (any_runStart?_iff letter).mpr ⟨_, _, _, whole, lower, upper, digit⟩
        have known : ¬ IsForeign c := by simp [isForeign_iff, isWordChar_of_isLetter letter]
        simp [offense?, outside, known, letter, continues]

theorem mem_offenses_iff {problem : Problem}
    : (index, problem) ∈ offenses text ↔ Offends text index problem := by
  have judged {c : Char} (found : text[index]? = some c)
      : offense? (text.take index) c = some problem ↔ Offends text index problem := by
    obtain ⟨inside, rfl⟩ := List.getElem?_eq_some_iff.mp found
    have whole : text.take index ++ text[index] :: text.drop (index + 1) = text := by
      rw [← List.drop_eq_getElem_cons inside, List.take_append_drop]
    have same := @offense?_eq_some_iff (text.take index) (text.drop (index + 1)) text[index] problem
    rwa [whole, List.length_take_of_le (Nat.le_of_lt inside)] at same
  constructor
  · intro member
    obtain ⟨⟨c, place⟩, listed, found⟩ := List.mem_filterMap.mp member
    obtain ⟨_, wrong, rfl, rfl⟩ : ∃ other, _ ∧ place = index ∧ other = problem := by
      simpa using found
    exact (judged (List.mk_mem_zipIdx_iff_getElem?.mp listed)).mp wrong
  · intro wrong
    obtain ⟨c, found⟩ : ∃ c, text[index]? = some c := by
      cases wrong with
      | unknown found | letter found => exact ⟨_, found⟩
    refine List.mem_filterMap.mpr ⟨(c, index), List.mk_mem_zipIdx_iff_getElem?.mpr found, ?_⟩
    simp [(judged found).mpr wrong]

theorem pairwise_offenses (text : List Char)
    : (offenses text).Pairwise fun offense later => offense.1 < later.1 := by
  have ordered : text.zipIdx.Pairwise fun item later => item.2 < later.2 := by
    rw [← List.pairwise_map, List.zipIdx_map_snd]
    exact List.pairwise_lt_range'
  refine List.pairwise_filterMap.mpr (ordered.imp ?_)
  intro item later before offense found other also
  obtain ⟨_, _, rfl⟩ := Option.map_eq_some_iff.mp found
  obtain ⟨_, _, rfl⟩ := Option.map_eq_some_iff.mp also
  exact before

end Around

/-- Cutting reports exactly the wrong characters of a source, each of them once, at its place
and in their order.
-/
theorem scan_reports_offending_characters (source : String)
    : let text := source.toList
      ((∃ tokens, scan source = .ok tokens) ↔ ∀ index problem, ¬ Offends text index problem)
      ∧ (∀ report, scan source = .error report
        → ∃ found : List (Nat × Problem),
            found.Pairwise (fun offense later => offense.1 < later.1)
            ∧ (∀ index problem, (index, problem) ∈ found ↔ Offends text index problem)
            ∧ report.toList
              = found.map fun (index, problem) => ⟨problem, .behind (text.take index)⟩)
      ∧ (∀ index problem, Offends text index problem → problem.kind = .malformed)
      ∧ Problem.unknownCharacter.message = "unknown character"
      ∧ Problem.letterInNumber.message
        = "unexpected word characters in the middle of a number" := by
  intro text
  refine ⟨?_, ?_, ?_, rfl, rfl⟩
  · rw [exists_scan_eq_ok_iff, faultsIn_eq, List.map_eq_nil_iff, List.eq_nil_iff_forall_not_mem]
    simp only [Prod.forall, mem_offenses_iff, text]
  · intro report failed
    rw [scan_eq, settle_eq_error_iff, faultsIn_eq] at failed
    exact ⟨offenses text, pairwise_offenses text, fun _ _ => mem_offenses_iff, failed.symm⟩
  · intro index problem wrong
    cases wrong <;> rfl

/-- Wrong characters in a gap, in a number and behind one, and a comment full of them. -/
def strayCharacters : String := "x ?9a_0% ?9a\n1²"

theorem strayCharacters_reported
    : ∃ report, scan strayCharacters = .error report
        ∧ report.toList
          = [⟨.unknownCharacter, ⟨0, 2⟩⟩, ⟨.letterInNumber, ⟨0, 4⟩⟩,
              ⟨.letterInNumber, ⟨0, 5⟩⟩, ⟨.unknownCharacter, ⟨1, 1⟩⟩]
        ∧ ∃ found : List (Nat × Problem),
            found.Pairwise (fun offense later => offense.1 < later.1)
            ∧ (∀ index problem,
                (index, problem) ∈ found ↔ Offends strayCharacters.toList index problem)
            ∧ report.toList
              = found.map fun (index, problem) =>
                  ⟨problem, .behind (strayCharacters.toList.take index)⟩ := by
  have failed : scan strayCharacters
      = .error ⟨⟨.unknownCharacter, ⟨0, 2⟩⟩, [⟨.letterInNumber, ⟨0, 4⟩⟩,
          ⟨.letterInNumber, ⟨0, 5⟩⟩, ⟨.unknownCharacter, ⟨1, 1⟩⟩]⟩ := by
    decide +kernel
  exact ⟨_, failed, rfl, (scan_reports_offending_characters strayCharacters).2.1 _ failed⟩

end PiCalculus
