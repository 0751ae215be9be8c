import Mathlib.Logic.Relation
import PiCalculus.Proofs.Closedness

/-! Conversion does not see the names of binders. Two programs that differ by renaming binders
together with what they bind convert to the same text, or are reported with the same
diagnostics.
-/

namespace PiCalculus

/-- Calls `old` by the name `new`, and any other name as before. -/
def renameTo (old new : String) : String → String := Function.update id old new

namespace Agent

/-- Every name that stands in an agent, free, bound or binding. -/
def occurring : Agent → Finset String
  | inert _ => ∅
  | silent next _ => next.occurring
  | receive subject object next _ => insert subject (insert object next.occurring)
  | send subject object next _ => insert subject (insert object next.occurring)
  | compare left right next _ => insert left (insert right next.occurring)
  | restrict name next _ => insert name next.occurring
  | choice left right _ => left.occurring ∪ right.occurring
  | parallel left right _ => left.occurring ∪ right.occurring
  | call _ arguments _ => arguments.toFinset

/-- The agent with its free names changed by `relabel`. Behind a binder its own name stays. -/
def rename (relabel : String → String) : Agent → Agent
  | inert loc => inert loc
  | silent next loc => silent (next.rename relabel) loc
  | receive subject object next loc =>
      receive (relabel subject) object (next.rename (Function.update relabel object object)) loc
  | send subject object next loc =>
      send (relabel subject) (relabel object) (next.rename relabel) loc
  | compare left right next loc => compare (relabel left) (relabel right) (next.rename relabel) loc
  | restrict name next loc =>
      restrict name (next.rename (Function.update relabel name name)) loc
  | choice left right loc => choice (left.rename relabel) (right.rename relabel) loc
  | parallel left right loc => parallel (left.rename relabel) (right.rename relabel) loc
  | call name arguments loc => call name (arguments.map relabel) loc

/-- Somewhere in an agent a binder and all it binds get a name that does not occur in its
scope.
-/
inductive AlphaStep : Agent → Agent → Prop
  | object {subject old new next loc} (fresh : new ∉ next.occurring)
    : AlphaStep (.receive subject old next loc)
        (.receive subject new (next.rename (renameTo old new)) loc)
  | name {old new next loc} (fresh : new ∉ next.occurring)
    : AlphaStep (.restrict old next loc)
        (.restrict new (next.rename (renameTo old new)) loc)
  | silent {next other loc} (step : AlphaStep next other)
    : AlphaStep (.silent next loc) (.silent other loc)
  | receive {subject object next other loc} (step : AlphaStep next other)
    : AlphaStep (.receive subject object next loc) (.receive subject object other loc)
  | send {subject object next other loc} (step : AlphaStep next other)
    : AlphaStep (.send subject object next loc) (.send subject object other loc)
  | compare {left right next other loc} (step : AlphaStep next other)
    : AlphaStep (.compare left right next loc) (.compare left right other loc)
  | restrict {name next other loc} (step : AlphaStep next other)
    : AlphaStep (.restrict name next loc) (.restrict name other loc)
  | choiceLeft {left other right loc} (step : AlphaStep left other)
    : AlphaStep (.choice left right loc) (.choice other right loc)
  | choiceRight {left right other loc} (step : AlphaStep right other)
    : AlphaStep (.choice left right loc) (.choice left other loc)
  | parallelLeft {left other right loc} (step : AlphaStep left other)
    : AlphaStep (.parallel left right loc) (.parallel other right loc)
  | parallelRight {left right other loc} (step : AlphaStep right other)
    : AlphaStep (.parallel left right loc) (.parallel left other loc)

end Agent

/-- A binder in the body, or a parameter, gets a new name. A parameter that stands again
behind itself binds nothing in the body.
-/
inductive Declaration.AlphaStep : Declaration → Declaration → Prop
  | body {name parameters body other loc} (step : body.AlphaStep other)
    : AlphaStep ⟨name, parameters, body, loc⟩ ⟨name, parameters, other, loc⟩
  | parameter {name body loc} (earlier : List String) (old new : String)
    (later : List String) (apart : new ∉ earlier ++ later) (fresh : new ∉ body.occurring)
    : AlphaStep ⟨name, earlier ++ old :: later, body, loc⟩
        ⟨name, earlier ++ new :: later,
          if old ∈ later then body else body.rename (renameTo old new), loc⟩

namespace Program

/-- One binder in one declaration gets a new name. -/
inductive AlphaStep : Program → Program → Prop
  | declaration (earlier : List Declaration) {declaration other : Declaration}
    (later : List Declaration) (step : declaration.AlphaStep other)
    : AlphaStep ⟨earlier ++ declaration :: later⟩ ⟨earlier ++ other :: later⟩

/-- Programs that differ in the names of binders only. -/
def AlphaEquivalent : Program → Program → Prop := Relation.EqvGen AlphaStep

end Program

-----------------------------------------------------------------------------------------
-- Scopes that differ in names
-----------------------------------------------------------------------------------------

/-- Each of `names` that gets another name gets one that is not `taken`. -/
def Avoids (relabel : String → String) (names taken : Finset String) : Prop :=
  ∀ name ∈ names, relabel name = name ∨ relabel name ∉ taken

section Avoids

variable {relabel : String → String} {names taken : Finset String} {name : String}

theorem Avoids.mono {fewer less : Finset String} (h : Avoids relabel names taken)
    (hn : fewer ⊆ names) (ht : less ⊆ taken)
    : Avoids relabel fewer less := by
  intro name hm
  rcases h name (hn hm) with he | hf
  · exact .inl he
  · exact .inr fun hl => hf (ht hl)

/-- No name other than `name` is called `name`, so a binder of it captures nothing. -/
theorem Avoids.ne (h : Avoids relabel (names.erase name) (insert name taken))
    : ∀ other ∈ names.erase name, relabel other ≠ name := by
  intro other hm he
  rcases h other hm with hk | hf
  · exact Finset.ne_of_mem_erase hm (hk.symm.trans he)
  · exact hf (by simp [he])

theorem Avoids.update (h : Avoids relabel (names.erase name) (insert name taken))
    : Avoids (Function.update relabel name name) names taken := by
  intro other hm
  by_cases he : other = name
  · simp [he]
  · have hf := h.mono (Finset.Subset.refl _) (Finset.subset_insert name taken)
    simpa [he] using hf other (Finset.mem_erase.mpr ⟨he, hm⟩)

theorem avoids_renameTo {old new : String} (h : new ∉ taken)
    : Avoids (renameTo old new) names taken := by
  intro name _
  by_cases he : name = old
  · simp [renameTo, he, h]
  · simp [renameTo, he]

end Avoids

namespace Scope

/-- What each of `names` is in one scope, its new name is in the other one. A name without an
id keeps its name, and a new binding gets the same id in both.
-/
structure Translates (relabel : String → String) (names : Finset String)
    (scope other : Scope)
    : Prop where
  next : other.next = scope.next
  ids : ∀ name ∈ names, other.resolve? (relabel name) = scope.resolve? name
  kept : ∀ name ∈ names, scope.resolve? name = none → relabel name = name

variable {scope other : Scope} {relabel : String → String} {names : Finset String}

theorem Translates.mono {fewer : Finset String} (h : Translates relabel names scope other)
    (hs : fewer ⊆ names)
    : Translates relabel fewer scope other :=
  ⟨h.next, fun name hm => h.ids name (hs hm), fun name hm => h.kept name (hs hm)⟩

theorem Translates.resolveAll? (h : Translates relabel names scope other)
    (uses : List String) (hu : ∀ name ∈ uses, name ∈ names)
    : other.resolveAll? (uses.map relabel) = scope.resolveAll? uses := by
  unfold Scope.resolveAll?
  induction uses with
  | nil => rfl
  | cons name uses ih =>
      have hn := h.ids name (hu name (by simp))
      have hr := ih fun name hm => hu name (by simp [hm])
      simp [hn, hr]

theorem Translates.unbound (h : Translates relabel names scope other) (uses : List String)
    (loc : Location) (hu : ∀ name ∈ uses, name ∈ names)
    : other.unbound (uses.map relabel) loc = scope.unbound uses loc := by
  unfold Scope.unbound
  induction uses with
  | nil => rfl
  | cons name uses ih =>
      have hm := hu name (by simp)
      have hn := h.ids name hm
      have hr := ih fun name hm => hu name (by simp [hm])
      rw [List.map_cons, List.filter_cons, List.filter_cons, hn]
      cases hs : scope.resolve? name with
      | none => simp [hr, h.kept name hm hs]
      | some id => simp [hr]

/-- Both scopes bind `name`, which nothing else is called. -/
theorem Translates.bind {name : String}
    (h : Translates relabel (names.erase name) scope other)
    (hc : ∀ candidate ∈ names.erase name, relabel candidate ≠ name)
    : Translates (Function.update relabel name name) names (scope.bind name)
        (other.bind name) := by
  refine ⟨by simp [h.next], ?_, ?_⟩
  · intro candidate hm
    by_cases he : candidate = name
    · simp [he, h.next]
    · have hm := Finset.mem_erase.mpr ⟨he, hm⟩
      simp [he, hc candidate hm, h.ids candidate hm]
  · intro candidate hm hr
    by_cases he : candidate = name
    · simp [he]
    · have hm := Finset.mem_erase.mpr ⟨he, hm⟩
      simpa [he] using h.kept candidate hm (by simpa [he] using hr)

/-- A binder is called `new` in place of `old`. -/
theorem translates_bind (scope : Scope) {old new : String} (hn : new ∉ names)
    : Translates (renameTo old new) names (scope.bind old) (scope.bind new) := by
  refine ⟨rfl, ?_, ?_⟩
  · intro name hm
    have hne : name ≠ new := ne_of_mem_of_not_mem hm hn
    by_cases he : name = old
    · simp [renameTo, he]
    · simp [renameTo, he, hne]
  · intro name hm hr
    by_cases he : name = old
    · simp [he] at hr
    · simp [renameTo, he]

/-- Further names are bound in both scopes, by induction on them; each of them is itself from
then on.
-/
theorem Translates.bindAll {later : List String} (h : Translates relabel names scope other)
    (ha : Avoids relabel names later.toFinset)
    : Translates (fun name => if name ∈ later then name else relabel name) names
        (scope.bindAll later) (other.bindAll later) := by
  induction later generalizing relabel scope other with
  | nil => simpa [Scope.bindAll] using h
  | cons first later ih =>
      rw [List.toFinset_cons] at ha
      have ha := ha.mono (Finset.erase_subset first names) (Finset.Subset.refl _)
      have hb := ih ((h.mono (Finset.erase_subset first names)).bind ha.ne) ha.update
      have hf : (fun name => if name ∈ first :: later then name else relabel name)
          = fun name =>
              if name ∈ later then name else Function.update relabel first first name := by
        funext name
        grind [Function.update_apply]
      rw [hf]
      exact hb

end Scope

-----------------------------------------------------------------------------------------
-- Agents that differ in names
-----------------------------------------------------------------------------------------

namespace Agent

open Scope (Translates)

variable {agents : Indices} {agent : Agent} {scope other : Scope} {relabel : String → String}

/-- What becomes of an agent: its term, if it has one, and everything wrong with it. -/
def outcome (agents : Indices) (agent : Agent) (scope : Scope)
    : Option Term × List Diagnostic :=
  (agent.resolve? agents scope, agent.faults agents scope)

theorem freeNames_subset_occurring (agent : Agent) : agent.freeNames ⊆ agent.occurring := by
  induction agent with
  | inert => simp [freeNames, occurring]
  | silent _ _ ih => exact ih
  | receive _ _ _ _ ih | send _ _ _ _ ih | compare _ _ _ _ ih | restrict _ _ _ ih =>
      grind [freeNames, occurring]
  | choice _ _ _ ihl ihr | parallel _ _ _ ihl ihr => exact Finset.union_subset_union ihl ihr
  | call => simp [freeNames, occurring]

theorem rename_id (agent : Agent) : agent.rename id = agent := by
  have hu (name : String) : Function.update id name name = id :=
    Function.update_eq_self name id
  induction agent with
  | receive subject object next loc ih => rw [rename, hu, ih, id]
  | restrict name next loc ih => rw [rename, hu, ih]
  | _ => simp_all [rename]

/-- Renaming free names along with the scope changes nothing, by induction on the agent. -/
theorem outcome_rename (h : Translates relabel agent.freeNames scope other)
    (ha : Avoids relabel agent.freeNames agent.occurring)
    : (agent.rename relabel).outcome agents other = agent.outcome agents scope := by
  simp only [outcome, Prod.mk.injEq]
  induction agent generalizing scope other relabel with
  | inert loc => exact ⟨rfl, rfl⟩
  | silent next loc ih =>
      have hn := ih h ha
      simp [rename, resolve?, faults, hn]
  | receive subject object next loc ih =>
      have hs := h.ids subject (by simp [freeNames])
      have hu := h.unbound [subject] loc (by simp [freeNames])
      have ha := ha.mono (Finset.subset_insert _ _) (Finset.subset_insert _ _)
      have hn := ih ((h.mono (Finset.subset_insert _ _)).bind ha.ne) ha.update
      simp_all [rename, resolve?, faults, h.next]
  | send left right next loc ih | compare left right next loc ih =>
      have hl := h.ids left (by simp [freeNames])
      have hr := h.ids right (by simp [freeNames])
      have hu := h.unbound [left, right] loc (by simp [freeNames])
      have hn := ih (h.mono (by grind [freeNames]))
        (ha.mono (by grind [freeNames]) (by grind [occurring]))
      simp_all [rename, resolve?, faults]
  | restrict name next loc ih =>
      have hn := ih (h.bind ha.ne) ha.update
      simp [rename, resolve?, faults, h.next, hn]
  | choice left right loc ihl ihr | parallel left right loc ihl ihr =>
      have hl := ihl (h.mono Finset.subset_union_left)
        (ha.mono Finset.subset_union_left Finset.subset_union_left)
      have hr := ihr (h.mono Finset.subset_union_right)
        (ha.mono Finset.subset_union_right Finset.subset_union_right)
      simp [rename, resolve?, faults, hl, hr]
  | call name arguments loc =>
      have hs := h.resolveAll? arguments (by simp [freeNames])
      have hu := h.unbound arguments loc (by simp [freeNames])
      simp [rename, resolve?, faults, hs, hu]

/-- A binder with another name, and what it binds. -/
theorem outcome_rename_bind {old new : String} (hn : new ∉ agent.occurring)
    : (agent.rename (renameTo old new)).outcome agents (scope.bind new)
      = agent.outcome agents (scope.bind old) := by
  have hf : new ∉ agent.freeNames := fun hm => hn (agent.freeNames_subset_occurring hm)
  exact outcome_rename (scope.translates_bind hf) (avoids_renameTo hn)

/-- A renamed binder anywhere in an agent does not change what becomes of it. -/
theorem AlphaStep.outcome_eq {other : Agent} (h : agent.AlphaStep other)
    : agent.outcome agents scope = other.outcome agents scope := by
  simp only [outcome, Prod.mk.injEq]
  induction h generalizing scope with
  | object fresh | name fresh =>
      have hn (old : String) := @outcome_rename_bind agents _ scope old _ fresh
      simp only [outcome, Prod.mk.injEq] at hn
      simp [resolve?, faults, hn]
  | silent _ ih | receive _ ih | send _ ih | compare _ ih | restrict _ ih
  | choiceLeft _ ih | choiceRight _ ih | parallelLeft _ ih | parallelRight _ ih =>
      simp [resolve?, faults, ih]

end Agent

-----------------------------------------------------------------------------------------
-- Programs that differ in names
-----------------------------------------------------------------------------------------

namespace Declaration

/-- Declarations that a program cannot tell apart. -/
structure Alike (declaration other : Declaration) : Prop where
  name : declaration.name = other.name
  arity : declaration.parameters.length = other.parameters.length
  loc : declaration.loc = other.loc
  outcome
    : ∀ agents,
        declaration.body.outcome agents declaration.scope
        = other.body.outcome agents other.scope

/-- What a renamed parameter binds, if no parameter behind it has its name. -/
theorem outcome_rename_parameter {agents : Indices} {body : Agent} {old new : String}
    {earlier later : List String} (apart : new ∉ later) (fresh : new ∉ body.occurring)
    : body.outcome agents (Scope.empty.bindAll (earlier ++ old :: later))
      = (if old ∈ later then body else body.rename (renameTo old new)).outcome agents
          (Scope.empty.bindAll (earlier ++ new :: later)) := by
  have hs (name : String)
      : Scope.empty.bindAll (earlier ++ name :: later)
        = ((Scope.empty.bindAll earlier).bind name).bindAll later := by
    simp [Scope.bindAll]
  have hf : new ∉ body.freeNames := fun hm => fresh (body.freeNames_subset_occurring hm)
  have ht := ((Scope.empty.bindAll earlier).translates_bind hf).bindAll
    (@avoids_renameTo _ later.toFinset old _ (by simpa using apart))
  rw [← hs, ← hs] at ht
  have hi : (fun name => if name ∈ later then name else renameTo old new name)
      = if old ∈ later then id else renameTo old new := by
    funext name
    by_cases he : name = old
    · subst he
      split <;> rfl
    · have hk : renameTo old new name = name := by simp [renameTo, he]
      rw [hk, ite_self]
      split
      · rfl
      · exact hk.symm
  rw [hi] at ht
  split
  next hm =>
    rw [if_pos hm] at ht
    have ho := @Agent.outcome_rename agents _ _ _ _ ht fun _ _ => .inl rfl
    rw [← ho, Agent.rename_id]
  next hm =>
    rw [if_neg hm] at ht
    exact (Agent.outcome_rename ht (avoids_renameTo fresh)).symm

theorem AlphaStep.alike {declaration other : Declaration} (h : declaration.AlphaStep other)
    : declaration.Alike other := by
  cases h with
  | body step => exact ⟨rfl, rfl, rfl, fun agents => step.outcome_eq⟩
  | parameter earlier old new later apart fresh =>
      have hl : new ∉ later := fun hm => apart (List.mem_append_right earlier hm)
      exact ⟨rfl, by simp, rfl, fun agents => outcome_rename_parameter hl fresh⟩

end Declaration

namespace Program

section Alike

variable {earlier later : List Declaration} {declaration other : Declaration}

theorem names_eq_of_alike (h : declaration.Alike other)
    : (⟨earlier ++ declaration :: later⟩ : Program).names
      = (⟨earlier ++ other :: later⟩ : Program).names := by
  simp [names, h.name]

theorem indices_eq_of_alike (h : declaration.Alike other)
    : (⟨earlier ++ declaration :: later⟩ : Program).indices
      = (⟨earlier ++ other :: later⟩ : Program).indices := by
  simp [indices, List.zipIdx_append, h.name]

theorem resolve?_eq_of_alike (h : declaration.Alike other)
    : (⟨earlier ++ declaration :: later⟩ : Program).resolve?
      = (⟨earlier ++ other :: later⟩ : Program).resolve? := by
  have hn := @names_eq_of_alike earlier later _ _ h
  have hi := @indices_eq_of_alike earlier later _ _ h
  have ha : (earlier ++ declaration :: later).map (·.parameters.length)
      = (earlier ++ other :: later).map (·.parameters.length) := by
    simp [h.arity]
  have hd (agents : Indices) : declaration.resolve? agents = other.resolve? agents := by
    have ho := congrArg Prod.fst (h.outcome agents)
    simp only [Agent.outcome] at ho
    simp [Declaration.resolve?, ho, h.arity]
  -- The entry point enters by its place and its arity only.
  have he (declarations : List Declaration) (index : Nat) (slots : List Nat)
      : (∃ entry,
          (declarations[index]? = some entry
            ∧ LastAt (⟨earlier ++ other :: later⟩ : Program).names entryPoint index)
          ∧ slots = List.range entry.parameters.length)
        ↔ LastAt (⟨earlier ++ other :: later⟩ : Program).names entryPoint index
          ∧ ∃ arity,
              (declarations.map (·.parameters.length))[index]? = some arity
              ∧ slots = List.range arity := by
    simp only [List.getElem?_map, Option.map_eq_some_iff]
    grind
  apply Option.ext
  intro system
  simp only [resolve?_eq_some_iff, entry?_eq_some_iff, hn, hi, List.mapM_append,
    List.mapM_cons, hd, he, ha]

theorem problems_eq_of_alike (h : declaration.Alike other)
    : (⟨earlier ++ declaration :: later⟩ : Program).problems
      = (⟨earlier ++ other :: later⟩ : Program).problems := by
  have hn := @names_eq_of_alike earlier later _ _ h
  have hi := @indices_eq_of_alike earlier later _ _ h
  have hd : (⟨earlier ++ declaration :: later⟩ : Program).duplicates
      = (⟨earlier ++ other :: later⟩ : Program).duplicates := by
    simp [duplicates, hn, List.zipIdx_append, List.filterMap_cons, h.name, h.loc]
  have hf : (⟨earlier ++ declaration :: later⟩ : Program).faults
      = (⟨earlier ++ other :: later⟩ : Program).faults := by
    have ho := congrArg Prod.snd (h.outcome (⟨earlier ++ other :: later⟩ : Program).indices)
    simp only [Agent.outcome] at ho
    simp [faults, hi, ho]
  simp [problems, misdeclared, hn, hd, hf]

end Alike

/-- Programs that differ in the names of binders only convert to the same text, or are
reported with the same diagnostics.
-/
theorem convert_eq_of_alphaEquivalent {program other : Program}
    (h : program.AlphaEquivalent other) (layout : Layout)
    : program.convert layout = other.convert layout := by
  induction h with
  | rel program other step =>
      obtain ⟨earlier, later, step⟩ := step
      have ha := step.alike
      exact convert_congr (resolve?_eq_of_alike ha) (problems_eq_of_alike ha) layout
  | refl program => rfl
  | symm program other _ ih => exact ih.symm
  | trans program middle other _ _ ihl ihr => exact ihl.trans ihr

/-- Receives on its first parameter, called `channel`, a name called `received`, and sends on
it a private name that hides the parameter if both are called `x`.
-/
def crossing (channel received : String) : Program :=
  let answer := Agent.restrict "x" (.send received "x" (.inert .start) .start) .start
  ⟨[⟨entryPoint, [channel, "y"], .receive channel received answer .start, .start⟩]⟩

theorem crossing_convert_eq
    : (crossing "x" "y").AlphaEquivalent (crossing "a" "b")
      ∧ crossing "x" "y" ≠ crossing "a" "b"
      ∧ (crossing "x" "y").convert ⟨"\t"⟩ = (crossing "a" "b").convert ⟨"\t"⟩ := by
  have channel : AlphaStep (crossing "x" "y") (crossing "a" "y") := by
    apply AlphaStep.declaration [] []
    exact .parameter [] "x" "a" ["y"] (by decide) (by decide)
  have received : AlphaStep (crossing "a" "y") (crossing "a" "b") := by
    apply AlphaStep.declaration [] []
    exact .body (.object (by decide))
  have equivalent : (crossing "x" "y").AlphaEquivalent (crossing "a" "b") :=
    .trans _ _ _ (.rel _ _ channel) (.rel _ _ received)
  exact ⟨equivalent, by decide, convert_eq_of_alphaEquivalent equivalent ⟨"\t"⟩⟩

end Program

end PiCalculus
