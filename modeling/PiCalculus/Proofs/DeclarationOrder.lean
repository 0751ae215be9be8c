import Mathlib.Data.Fin.Rev
import Mathlib.Data.List.Nodup
import PiCalculus.Proofs.Conversion

/-! The order of declarations matters to indices only. Programs with the same declarations in
another order convert alike, and each definition is the same up to the indices of the agents
that it calls.
-/

namespace PiCalculus

/-- The term with every call directed to another index. -/
def Term.reindex (move : Nat → Nat) : Term → Term
  | inert => inert
  | silent next => silent (next.reindex move)
  | receive subject object next => receive subject object (next.reindex move)
  | send subject object next => send subject object (next.reindex move)
  | compare left right next => compare left right (next.reindex move)
  | restrict name next => restrict name (next.reindex move)
  | choice left right => choice (left.reindex move) (right.reindex move)
  | parallel left right => parallel (left.reindex move) (right.reindex move)
  | call index arguments => call (move index) arguments

def Definition.reindex (move : Nat → Nat) (definition : Definition) : Definition :=
  ⟨definition.arity, definition.body.reindex move⟩

/-- Each definition of the one system stands in the other at its new index, with its calls
directed to the new indices, and the other starts with the same agent in the same slots.
-/
structure System.Reordered (move : Nat → Nat) (system other : System) : Prop where
  definitions
    : ∀ index,
        other.definitions[move index]?
        = system.definitions[index]?.map (Definition.reindex move)
  entry : other.entry = move system.entry
  slots : other.slots = system.slots

section Reindex

variable {agents others : Indices} {move : Nat → Nat}

attribute [local simp] Option.map_bind Option.bind_map Function.comp_def

/-- An agent resolves alike where the agents it calls have moved, by induction on the agent.
Only calls look at the indices.
-/
theorem Agent.resolve?_reindex
    (moved : ∀ name : String, others[name]? = agents[name]?.map move) (agent : Agent)
    (scope : Scope)
    : agent.resolve? others scope = (agent.resolve? agents scope).map (Term.reindex move) := by
  induction agent generalizing scope with
  | inert loc => rfl
  | silent next loc ih => simp [resolve?, ih, Term.reindex]
  | receive subject object next loc ih => simp [resolve?, ih, Term.reindex]
  | send left right next loc ih | compare left right next loc ih =>
      simp [resolve?, ih, Term.reindex]
  | restrict name next loc ih => simp [resolve?, ih, Term.reindex]
  | choice left right loc ihl ihr | parallel left right loc ihl ihr =>
      simp [resolve?, ihl, ihr, Term.reindex]
  | call name arguments loc => simp [resolve?, moved, Term.reindex]

theorem Declaration.resolve?_reindex
    (moved : ∀ name : String, others[name]? = agents[name]?.map move)
    (declaration : Declaration)
    : declaration.resolve? others
      = (declaration.resolve? agents).map (Definition.reindex move) := by
  simp [resolve?, Agent.resolve?_reindex moved, Definition.reindex]

end Reindex

namespace Program

/-- Both programs have the same declarations, and `move` gives each of them its new index. -/
def Reorders (move : Equiv.Perm Nat) (program other : Program) : Prop :=
  ∀ index, other.declarations[move index]? = program.declarations[index]?

variable {move : Equiv.Perm Nat} {program other : Program}

theorem Reorders.symm (reorders : Reorders move program other)
    : Reorders move.symm other program := by
  intro index
  rw [← reorders, Equiv.apply_symm_apply]

theorem Reorders.names (reorders : Reorders move program other) (index : Nat)
    : other.names[move index]? = program.names[index]? := by
  simp [Program.names, reorders index]

theorem Reorders.mem (reorders : Reorders move program other) {declaration : Declaration}
    : declaration ∈ other.declarations ↔ declaration ∈ program.declarations := by
  simp only [List.mem_iff_getElem?, ← reorders _]
  exact move.surjective.exists

theorem Reorders.nodup (reorders : Reorders move program other)
    (distinct : program.names.Nodup)
    : other.names.Nodup := by
  rw [List.nodup_iff_getElem?_ne_getElem?]
  intro index later before bound same
  rw [← reorders.symm.names, ← reorders.symm.names] at same
  have found := (reorders.symm.names later).trans (List.getElem?_eq_getElem bound)
  have inside := (List.getElem?_eq_some_iff.mp found).1
  have equal := move.symm.injective ((List.getElem?_inj inside distinct).mp same.symm)
  omega

/-- All agents have moved to their new indices. -/
theorem Reorders.indices (reorders : Reorders move program other)
    (distinct : program.names.Nodup) (name : String)
    : other.indices[name]? = program.indices[name]?.map move := by
  apply Option.ext
  intro index
  simp only [Option.map_eq_some_iff, getElem?_indices_eq_some_iff,
    lastAt_iff_getElem? distinct, lastAt_iff_getElem? (reorders.nodup distinct)]
  constructor
  · intro found
    refine ⟨move.symm index, ?_, move.apply_symm_apply index⟩
    rw [reorders.symm.names]
    exact found
  · rintro ⟨index, found, rfl⟩
    rw [reorders.names]
    exact found

theorem Reorders.entry? (reorders : Reorders move program other)
    (distinct : program.names.Nodup) {entry : Declaration} {index : Nat}
    (found : program.entry? = some (entry, index))
    : other.entry? = some (entry, move index) := by
  rw [entry?_eq_some_iff, lastAt_iff_getElem? distinct] at found
  rw [entry?_eq_some_iff, lastAt_iff_getElem? (reorders.nodup distinct), reorders,
    reorders.names]
  exact found

/-- A reordered program has the same definitions, but for the indices. -/
theorem Reorders.resolve? (reorders : Reorders move program other) {system : System}
    (resolved : program.resolve? = some system)
    : ∃ moved, other.resolve? = some moved ∧ System.Reordered move system moved := by
  obtain ⟨distinct, definitions, entry, found, slots⟩ := resolve?_eq_some_iff.mp resolved
  have resolves := Declaration.resolve?_reindex (reorders.indices distinct)
  have every : ∀ declaration ∈ other.declarations,
      ∃ definition, declaration.resolve? other.indices = some definition := by
    intro declaration member
    obtain ⟨definition, written⟩ := exists_mapM_eq_some_iff.mp ⟨_, definitions⟩ declaration
      (reorders.mem.mp member)
    exact ⟨definition.reindex move, by simp [resolves, written]⟩
  obtain ⟨others, all⟩ := exists_mapM_eq_some_iff.mpr every
  refine ⟨⟨others, move system.entry, system.slots⟩, ?_, ?_, rfl, rfl⟩
  · exact resolve?_eq_some_iff.mpr
      ⟨reorders.nodup distinct, all, entry, reorders.entry? distinct found, slots⟩
  · intro index
    rw [getElem?_of_mapM all, getElem?_of_mapM definitions, reorders index]
    cases program.declarations[index]? with
    | none => rfl
    | some declaration => exact resolves declaration

/-- The declarations of a program in another order: `order` takes each index to the new one. -/
def reordered (program : Program) (order : Equiv.Perm (Fin program.declarations.length))
    : Program :=
  ⟨List.ofFn fun index => program.declarations.get (order.symm index)⟩

/-- Where `order` takes an index; a number that is no index stays where it is. -/
def newIndex {length : Nat} (order : Equiv.Perm (Fin length)) : Equiv.Perm Nat :=
  order.extendDomain Fin.equivSubtype

theorem reorders_reordered (order : Equiv.Perm (Fin program.declarations.length))
    : Reorders (newIndex order) program (program.reordered order) := by
  intro index
  by_cases inside : index < program.declarations.length
  · have moved : newIndex order index = order ⟨index, inside⟩ :=
      order.extendDomain_apply_subtype Fin.equivSubtype inside
    simp [reordered, moved, inside]
  · have stays : newIndex order index = index :=
      order.extendDomain_apply_not_subtype Fin.equivSubtype inside
    simp [reordered, stays, inside]

/-- Whether a program converts does not depend on the order of its declarations, and if it
does, the order decides about nothing but the indices.
-/
theorem convert_reordered (program : Program)
    (order : Equiv.Perm (Fin program.declarations.length)) (layout : Layout)
    : ((∃ text, (program.reordered order).convert layout = .ok text)
        ↔ ∃ text, program.convert layout = .ok text)
      ∧ ∀ text, program.convert layout = .ok text
        → ∃ system moved,
            text = system.text layout
            ∧ (program.reordered order).convert layout = .ok (moved.text layout)
            ∧ system.definitions.length = program.declarations.length
            ∧ System.Reordered (newIndex order) system moved := by
  have reorders := reorders_reordered order
  constructor
  · simp only [convert_eq_ok_iff]
    constructor
    · rintro ⟨_, system, resolved, _⟩
      obtain ⟨moved, again, _⟩ := reorders.symm.resolve? resolved
      exact ⟨_, moved, again, rfl⟩
    · rintro ⟨_, system, resolved, _⟩
      obtain ⟨moved, again, _⟩ := reorders.resolve? resolved
      exact ⟨_, moved, again, rfl⟩
  · intro text converted
    obtain ⟨system, resolved, rfl⟩ := convert_eq_ok_iff.mp converted
    obtain ⟨moved, again, reordered⟩ := reorders.resolve? resolved
    have pairs := mapM_eq_some_iff.mp (resolve?_eq_some_iff.mp resolved).2.1
    exact ⟨system, moved, rfl, convert_of_resolve? again layout, pairs.length_eq.symm,
      reordered⟩

/-- Two agents that call each other, one of them with a parameter declared twice. -/
def pingPong : Program :=
  ⟨[⟨"Ping", ["x", "x"], .call "Main" ["x"] ⟨0, 18⟩, ⟨0, 0⟩⟩,
    ⟨"Main", ["a"], .silent (.call "Ping" ["a", "a"] ⟨1, 22⟩) ⟨1, 16⟩, ⟨1, 0⟩⟩]⟩

theorem pingPong_reordered
    : ∃ text system moved,
        pingPong.convert .standard = .ok text
        ∧ text = system.text .standard
        ∧ (pingPong.reordered Fin.revPerm).convert .standard = .ok (moved.text .standard)
        ∧ System.Reordered (newIndex (@Fin.revPerm 2)) system moved := by
  have converted : pingPong.convert .standard
      = .ok ("(lambda id': PiIdentifier . pi_definition(0, zero))[0 -> pi_definition(2,\n"
        ++ "    identifier(1, [1])\n)][1 -> pi_definition(1,\n"
        ++ "    tau_prefix(identifier(0, [0, 0]))\n)],\nidentifier(1, [0])") := by
    decide +kernel
  obtain ⟨system, moved, written, again, _, reordered⟩ :=
    (convert_reordered pingPong Fin.revPerm .standard).2 _ converted
  exact ⟨_, system, moved, converted, written, again, reordered⟩

end Program

end PiCalculus
