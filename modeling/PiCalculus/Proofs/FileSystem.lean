import PiCalculus.Storage.FileTree

/-! File systems and their laws. A path leads to a file or to none, and several paths may lead
to the same one. A write that succeeds stores the whole text in one file, and a write that
fails changes nothing. A tree in memory is such a file system.
-/

namespace PiCalculus

/-- A file system with states `σ`. A failed write gives no new state. -/
structure FileSystem (σ : Type) where
  read : σ → String → Except FileFault ByteArray
  write : σ → String → String → Except FileFault σ
  /-- Both paths lead to one file, which need not exist yet. -/
  SameFile : σ → String → String → Prop
  /-- A path that can be written leads to a file. -/
  sameFile_self : ∀ {before after path text},
    write before path text = .ok after → SameFile before path path
  /-- What is written is read again, on whatever path. -/
  read_same : ∀ {before after path text other},
    write before path text = .ok after → SameFile before path other
      → read after other = .ok text.toUTF8
  /-- All other files stay as they are. How a read fails may change, as a missing file is not
  a missing directory. -/
  read_other : ∀ {before after path text other},
    write before path text = .ok after → ¬ SameFile before path other
      → (read after other).toOption = (read before other).toOption

namespace FileSystem

variable {σ : Type} (files : FileSystem σ)

/-- Reads a whole file as text. -/
def readText (state : σ) (path : String) : Except FileFault String :=
  (files.read state path).bind decodeText

/-- A file system as a storage that threads its state through. -/
def storage : Storage (StateM σ) := .ofState files.read files.write

section Runs

variable {files} {α : Type} {path text : String} {before after : σ}

theorem run_readText_bind (path : String) (next : Except FileFault String → StateM σ α)
    : (files.storage.readText path >>= next).run before
      = (next (files.readText before path)).run before :=
  rfl

theorem run_write_bind_error {fault : FileFault}
    (failed : files.write before path text = .error fault)
    (next : Except FileFault Unit → StateM σ α)
    : (files.storage.write path text >>= next).run before
      = (next (.error fault)).run before := by
  simp only [storage, Storage.ofState, StateT.run_bind, StateT.run_get, pure_bind, failed]
  rfl

end Runs

end FileSystem

theorem bind_eq_ok_iff {ε α β : Type} {action : Except ε α} {next : α → Except ε β}
    {result : β}
    : action >>= next = .ok result ↔ ∃ value, action = .ok value ∧ next value = .ok result := by
  cases action with
  | error fault => exact ⟨nofun, nofun⟩
  | ok value => exact ⟨fun h => ⟨value, rfl, h⟩, fun ⟨_, rfl, h⟩ => h⟩

theorem toOption_eq_some_iff {ε α : Type} {result : Except ε α} {value : α}
    : result.toOption = some value ↔ result = .ok value := by
  cases result <;> simp [Except.toOption]

namespace FileTree

variable {tree after : FileTree} {place other : Place} {path text : String}

/-- What is put where no directory is stands there, and nothing else changes. -/
theorem entry?_put {entry : Entry} (free : tree.entry? place ≠ some .directory)
    : FileTree.entry? (tree.put place entry) other
      = if other = place then some entry else tree.entry? other := by
  have below : place.isRoot = false := by
    cases root : place.isRoot with
    | false => rfl
    | true => simp [ entry?, root] at free
  by_cases same : other = place
  · simp [put, entry?, below, same]
  · have kept : (tree.entries.filter (·.1 ≠ place)).lookup other
        = tree.entries.lookup other := by
      induction tree.entries with
      | nil => rfl
      | cons first rest ih => grind
    have apart : (other == place) = false := beq_false_of_ne same
    simp only [put, entry?, below, same, apart, List.lookup_cons, kept, if_false,
      Bool.false_eq_true]

theorem goInto_eq_ok_iff {folder next : Place} {name : String}
    : tree.goInto folder name = .ok next
      ↔ tree.entry? (folder.go name) = some .directory ∧ folder.go name = next := by
  unfold goInto
  split <;> simp_all

theorem follow_eq_ok_iff {reached : Place × Bool}
    : tree.follow path = .ok reached
      ↔ ∃ folder, (pathNames path).dropLast.foldlM tree.goInto (.start path) = .ok folder
          ∧ reached
            = ((pathNames path).getLast?.elim folder folder.go,
                decide (path.toList.getLast? = some '/')) := by
  unfold follow
  rw [bind_eq_ok_iff]
  refine exists_congr fun folder => and_congr_right fun _ => ?_
  cases (pathNames path).getLast? <;> simp [pure, Except.pure, eq_comm]

theorem read_eq_ok_iff {bytes : ByteArray}
    : tree.read path = .ok bytes
      ↔ ∃ place, tree.follow path = .ok (place, false)
          ∧ tree.entry? place = some (.file bytes) := by
  unfold read
  rw [bind_eq_ok_iff]
  constructor
  · rintro ⟨⟨place, slash⟩, followed, found⟩
    simp only at found
    split at found
    next => cases found
    next => cases found
    next held =>
      cases slash
      · cases found
        exact ⟨place, followed, held⟩
      · cases found
  · rintro ⟨place, followed, held⟩
    exact ⟨_, followed, by simp [held]⟩

theorem write_eq_ok_iff
    : tree.write path text = .ok after
      ↔ ∃ place, tree.follow path = .ok (place, false)
          ∧ tree.entry? place ≠ some .directory
          ∧ after = tree.put place (.file text.toUTF8) := by
  unfold write
  rw [bind_eq_ok_iff]
  constructor
  · rintro ⟨⟨place, slash⟩, followed, written⟩
    cases slash with
    | true => cases written
    | false =>
        simp only [Bool.false_eq_true, if_false] at written
        split at written
        next => cases written
        next free =>
          cases written
          exact ⟨place, followed, free, rfl⟩
  · rintro ⟨place, followed, free, rfl⟩
    refine ⟨_, followed, ?_⟩
    simp only [Bool.false_eq_true, if_false]

section Put

variable {bytes : ByteArray} (free : tree.entry? place ≠ some .directory)

include free

/-- A file put where no directory is changes no way through the tree. -/
theorem foldlM_goInto_put_eq_ok_iff {names : List String} {folder reached : Place}
    : names.foldlM (tree.put place (.file bytes)).goInto folder = .ok reached
      ↔ names.foldlM tree.goInto folder = .ok reached := by
  induction names generalizing folder with
  | nil => rfl
  | cons name names ih =>
      simp only [List.foldlM_cons, bind_eq_ok_iff, ih, goInto_eq_ok_iff, entry?_put free]
      refine exists_congr fun next => and_congr_left fun _ => and_congr_left fun _ => ?_
      split
      next same => simp [same, free]
      next => rfl

theorem follow_put_eq_ok_iff {reached : Place × Bool}
    : (tree.put place (.file bytes)).follow path = .ok reached
      ↔ tree.follow path = .ok reached := by
  simp only [follow_eq_ok_iff, foldlM_goInto_put_eq_ok_iff free]

end Put

/-- Both paths lead to one place and can name a file there. -/
def SameFile (tree : FileTree) (path other : String) : Prop :=
  ∃ place, tree.follow path = .ok (place, false) ∧ tree.follow other = .ok (place, false)

/-- A tree in memory keeps the laws of a file system. -/
def files : FileSystem FileTree where
  read := read
  write := write
  SameFile := SameFile
  sameFile_self written := by
    obtain ⟨place, followed, _, _⟩ := write_eq_ok_iff.mp written
    exact ⟨place, followed, followed⟩
  read_same written same := by
    obtain ⟨place, followed, free, rfl⟩ := write_eq_ok_iff.mp written
    obtain ⟨_, first, second⟩ := same
    cases followed.symm.trans first
    refine read_eq_ok_iff.mpr ⟨place, (follow_put_eq_ok_iff free).mpr second, ?_⟩
    rw [entry?_put free, if_pos rfl]
  read_other {before after path text other} written apart := by
    obtain ⟨place, followed, free, rfl⟩ := write_eq_ok_iff.mp written
    apply Option.ext
    intro bytes
    rw [toOption_eq_some_iff, toOption_eq_some_iff, read_eq_ok_iff, read_eq_ok_iff]
    refine exists_congr fun reached => ?_
    rw [follow_put_eq_ok_iff free]
    refine and_congr_right fun led => ?_
    have elsewhere : reached ≠ place := by
      rintro rfl
      exact apart ⟨reached, followed, led⟩
    rw [entry?_put free, if_neg elsewhere]

end FileTree

end PiCalculus
