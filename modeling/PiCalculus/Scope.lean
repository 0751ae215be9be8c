import Std.Data.ExtTreeMap

/-! Names in scope and the ids that stand for them. Ids are handed out in order, and undoing
a binding gives back both its id and what its name meant before.
-/

namespace PiCalculus

/-- A binding of a name: its id, and the id that the name had before, if any. -/
structure Binding where
  id : Nat
  shadowed : Option Nat
deriving DecidableEq, Repr, Inhabited

/-- The current id of each name, and the id that the next binding gets. -/
structure Scope where
  ids : Std.ExtTreeMap String Nat
  next : Nat

namespace Scope

def empty : Scope := ⟨∅, 0⟩

def resolve? (scope : Scope) (name : String) : Option Nat := scope.ids[name]?

/-- The binding that `name` would get now. -/
def binding (scope : Scope) (name : String) : Binding :=
  ⟨scope.next, scope.resolve? name⟩

/-- The scope with `name` bound to a new id. -/
def bind (scope : Scope) (name : String) : Scope :=
  ⟨scope.ids.insert name scope.next, scope.next + 1⟩

/-- The scope with a binding undone under `name`, whichever name it was made for. -/
def unbind (scope : Scope) (name : String) (binding : Binding) : Scope :=
  match binding.shadowed with
  | some id => ⟨scope.ids.insert name id, scope.next - 1⟩
  | none => ⟨scope.ids.erase name, scope.next - 1⟩

@[simp]
theorem resolve?_empty (name : String) : empty.resolve? name = none := by
  simp [empty, resolve?]

@[simp]
theorem resolve?_bind (scope : Scope) (name other : String)
    : (scope.bind name).resolve? other
      = if other = name then some scope.next else scope.resolve? other := by
  simp only [bind, resolve?, Std.ExtTreeMap.getElem?_insert]
  grind

@[simp]
theorem next_bind (scope : Scope) (name : String)
    : (scope.bind name).next = scope.next + 1 :=
  rfl

@[ext]
theorem ext {scope other : Scope} (hr : ∀ name, scope.resolve? name = other.resolve? name)
    (hn : scope.next = other.next)
    : scope = other := by
  cases scope
  cases other
  simp only [mk.injEq]
  exact ⟨Std.ExtTreeMap.ext_getElem? fun name => hr name, hn⟩

/-- Undoing the last binding restores the scope, whatever the name meant before. -/
@[simp]
theorem unbind_bind (scope : Scope) (name : String)
    : (scope.bind name).unbind name (scope.binding name) = scope := by
  apply ext
  · intro other
    unfold unbind binding bind resolve?
    split <;> grind
  · unfold unbind bind
    split <;> rfl

end Scope

end PiCalculus
