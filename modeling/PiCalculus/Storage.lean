/-! Access to files by path. A read gives all of a file or fails, and so does a write; what
paths mean is up to the storage.
-/

namespace PiCalculus

/-- Why a file cannot be read or written. -/
inductive FileFault where
  | missing
  | isDirectory
  | notDirectory
  /-- The content is not UTF-8. -/
  | notText
  | other (text : String)
deriving DecidableEq, Repr, Inhabited

def FileFault.message : FileFault → String
  | missing => "No such file or directory (os error 2)"
  | isDirectory => "Is a directory (os error 21)"
  | notDirectory => "Not a directory (os error 20)"
  | notText => "stream did not contain valid UTF-8"
  | other text => text

/-- Files that a program in `m` can read and write. -/
structure Storage (m : Type → Type) where
  read : String → m (Except FileFault ByteArray)
  write : String → String → m (Except FileFault Unit)

/-- Files held in a state that is threaded through. A write that fails leaves the state. -/
def Storage.ofState {σ : Type} (read : σ → String → Except FileFault ByteArray)
    (write : σ → String → String → Except FileFault σ) : Storage (StateM σ) where
  read path := do return read (← get) path
  write path text := do
    match write (← get) path text with
    | .ok state =>
        set state
        return .ok ()
    | .error fault => return .error fault

/-- The text that bytes encode, if they are UTF-8. -/
def decodeText (bytes : ByteArray) : Except FileFault String :=
  match String.fromUTF8? bytes with
  | some text => .ok text
  | none => .error .notText

/-- Reads a whole file as text. -/
def Storage.readText {m : Type → Type} [Monad m] (storage : Storage m) (path : String)
    : m (Except FileFault String) := do
  return (← storage.read path).bind decodeText

end PiCalculus
