import Mathlib.Data.Finset.Basic
import PiCalculus.Proofs.Conversion

/-! Conversion gives a text exactly for the closed programs: no agent is declared twice, there
is an entry point, the free names of each body are parameters, and all called agents are
declared. Free names are those of the calculus and know nothing of scopes or ids.
-/

namespace PiCalculus

namespace Agent

/-- The names of an agent that nothing inside it binds. -/
def freeNames : Agent → Finset String
  | inert _ => ∅
  | silent next _ => next.freeNames
  | receive subject object next _ => insert subject (next.freeNames.erase object)
  | send subject object next _ => insert subject (insert object next.freeNames)
  | compare left right next _ => insert left (insert right next.freeNames)
  | restrict name next _ => next.freeNames.erase name
  | choice left right _ => left.freeNames ∪ right.freeNames
  | parallel left right _ => left.freeNames ∪ right.freeNames
  | call _ arguments _ => arguments.toFinset

/-- The agents that an agent calls. -/
def called : Agent → Finset String
  | inert _ => ∅
  | silent next _ => next.called
  | receive _ _ next _ => next.called
  | send _ _ next _ => next.called
  | compare _ _ next _ => next.called
  | restrict _ next _ => next.called
  | choice left right _ => left.called ∪ right.called
  | parallel left right _ => left.called ∪ right.called
  | call name _ _ => {name}

end Agent

namespace Scope

variable {scope : Scope}

/-- All of `names` have an id. -/
def Covers (scope : Scope) (names : Finset String) : Prop :=
  ∀ name ∈ names, ∃ id, scope.resolve? name = some id

@[simp]
theorem covers_empty : scope.Covers ∅ := by
  simp [Covers]

@[simp]
theorem covers_insert {name : String} {names : Finset String}
    : scope.Covers (insert name names)
      ↔ (∃ id, scope.resolve? name = some id) ∧ scope.Covers names := by
  simp [Covers]

@[simp]
theorem covers_union {names others : Finset String}
    : scope.Covers (names ∪ others) ↔ scope.Covers names ∧ scope.Covers others := by
  simp only [Covers, Finset.mem_union, or_imp, forall_and]

theorem covers_erase_iff {name : String} {names : Finset String}
    : scope.Covers (names.erase name) ↔ (scope.bind name).Covers names := by
  constructor
  · intro h other hm
    by_cases he : other = name
    · exact ⟨scope.next, by simp [he]⟩
    · simpa [he] using h other (Finset.mem_erase.mpr ⟨he, hm⟩)
  · intro h other hm
    obtain ⟨hne, hm⟩ := Finset.mem_erase.mp hm
    simpa [hne] using h other hm

theorem exists_resolve?_bindAll_iff {names : List String} {name : String}
    : (∃ id, (scope.bindAll names).resolve? name = some id)
      ↔ name ∈ names ∨ ∃ id, scope.resolve? name = some id := by
  induction names generalizing scope with
  | nil => simp [bindAll]
  | cons first names ih =>
      have hb : scope.bindAll (first :: names) = (scope.bind first).bindAll names := rfl
      rw [hb, ih, resolve?_bind, List.mem_cons]
      split <;> simp_all

end Scope

namespace Agent

attribute [local simp] Option.bind_eq_some_iff

/-- An agent can be resolved exactly if its free names have ids and the agents it calls have
indices, so no unknown name is hidden behind another one.
-/
theorem exists_resolve?_iff_covers {agents : Indices} {agent : Agent} {scope : Scope}
    : (∃ term, agent.resolve? agents scope = some term)
      ↔ scope.Covers agent.freeNames
        ∧ ∀ name ∈ agent.called, ∃ index, agents[name]? = some index := by
  induction agent generalizing scope with
  | inert loc => simp [resolve?, freeNames, called]
  | silent next loc ih => simp [resolve?, freeNames, called, ih]
  | receive subject object next loc ih =>
      simp [resolve?, freeNames, called, Scope.covers_erase_iff, and_assoc, ← ih]
  | send left right next loc ih | compare left right next loc ih =>
      simp [resolve?, freeNames, called, and_assoc, ← ih]
  | restrict name next loc ih =>
      simp [resolve?, freeNames, called, Scope.covers_erase_iff, ← ih]
  | choice left right loc ihl ihr | parallel left right loc ihl ihr =>
      simp only [freeNames, called, Scope.covers_union, Finset.mem_union, or_imp, forall_and]
      rw [and_and_and_comm, ← ihl, ← ihr]
      simp [resolve?]
  | call name arguments loc =>
      have ha : (∃ ids, scope.resolveAll? arguments = some ids)
          ↔ scope.Covers arguments.toFinset := by
        simp [Scope.resolveAll?, exists_mapM_eq_some_iff, Scope.Covers]
      simp [resolve?, freeNames, called, ← ha, and_comm]

end Agent

namespace Program

variable {program : Program}

theorem exists_index_iff {name : String}
    : (∃ index, program.indices[name]? = some index) ↔ name ∈ program.names := by
  rw [← mem_indices_iff, Std.ExtTreeMap.mem_iff_isSome_getElem?, Option.isSome_iff_exists]

/-- What a program must be to have a meaning. -/
structure Closed (program : Program) : Prop where
  distinct : program.names.Nodup
  entry : entryPoint ∈ program.names
  bound
    : ∀ declaration ∈ program.declarations,
        ∀ name ∈ declaration.body.freeNames, name ∈ declaration.parameters
  declared
    : ∀ declaration ∈ program.declarations,
        ∀ name ∈ declaration.body.called, name ∈ program.names

/-- The body of a declaration can be resolved exactly if its free names are parameters and the
agents it calls are declared.
-/
theorem exists_definition_iff {declaration : Declaration}
    : (∃ definition, declaration.resolve? program.indices = some definition)
      ↔ (∀ name ∈ declaration.body.freeNames, name ∈ declaration.parameters)
        ∧ ∀ name ∈ declaration.body.called, name ∈ program.names := by
  have hb : (∃ definition, declaration.resolve? program.indices = some definition)
      ↔ ∃ term, declaration.body.resolve? program.indices declaration.scope = some term := by
    simp [Declaration.resolve?, Option.bind_eq_some_iff]
  have hs (name : String)
      : (∃ id, declaration.scope.resolve? name = some id)
        ↔ name ∈ declaration.parameters := by
    simp [Declaration.scope, Scope.exists_resolve?_bindAll_iff]
  rw [hb, Agent.exists_resolve?_iff_covers]
  simp only [Scope.Covers, hs, exists_index_iff]

/-- A program converts to a text exactly if it is closed, whatever the layout. -/
theorem converts_iff_closed {layout : Layout}
    : (∃ text, program.convert layout = .ok text) ↔ program.Closed := by
  have hr : (∃ text, program.convert layout = .ok text)
      ↔ program.names.Nodup
        ∧ (∃ definitions,
            program.declarations.mapM (·.resolve? program.indices) = some definitions)
        ∧ ∃ entry, program.entry? = some entry := by
    simp only [convert_eq_ok_iff, resolve?_eq_some_iff]
    constructor
    · rintro ⟨_, system, ⟨hn, hd, entry, he, _⟩, _⟩
      exact ⟨hn, ⟨_, hd⟩, _, he⟩
    · rintro ⟨hn, ⟨definitions, hd⟩, ⟨entry, index⟩, he⟩
      exact ⟨_, ⟨definitions, index, _⟩, ⟨hn, hd, entry, he, rfl⟩, rfl⟩
  rw [hr, exists_entry?_iff, exists_mapM_eq_some_iff]
  simp only [exists_definition_iff]
  constructor
  · rintro ⟨hn, hd, he⟩
    exact ⟨hn, he, fun declaration hm => (hd declaration hm).1,
      fun declaration hm => (hd declaration hm).2⟩
  · intro h
    exact ⟨h.distinct, fun declaration hm => ⟨h.bound declaration hm, h.declared declaration hm⟩,
      h.entry⟩

end Program

end PiCalculus
