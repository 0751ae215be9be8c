import Mathlib.Data.List.Forall2
import PiCalculus.Proofs.Term

/-! Writing an agent only adds to an emission: the text of its term if it can be resolved,
and exactly its faults otherwise. All bindings made on the way are undone again.
-/

namespace PiCalculus

theorem mapM_eq_some_iff {α β : Type} {find : α → Option β} {items : List α}
    {found : List β}
    : items.mapM find = some found
      ↔ List.Forall₂ (fun item value => find item = some value) items found := by
  induction items generalizing found with
  | nil => simp [eq_comm]
  | cons item items ih =>
      simp only [List.mapM_cons, Option.pure_def, Option.bind_eq_bind,
        Option.bind_eq_some_iff, Option.some.injEq, List.forall₂_cons_left_iff, ih]
      grind

theorem getElem?_of_mapM {α β : Type} {find : α → Option β} {items : List α} {found : List β}
    (all : items.mapM find = some found) (index : Nat)
    : found[index]? = items[index]?.bind find := by
  have pairs := mapM_eq_some_iff.mp all
  clear all
  induction pairs generalizing index with
  | nil => rfl
  | cons first _ ih =>
      cases index with
      | zero => simp [first]
      | succ index => simpa using ih index

theorem exists_mapM_eq_some_iff {α β : Type} {find : α → Option β} {items : List α}
    : (∃ found, items.mapM find = some found)
      ↔ ∀ item ∈ items, ∃ value, find item = some value := by
  induction items with
  | nil => simp
  | cons item items ih => simp [Option.bind_eq_some_iff, ← ih]

namespace Scope

variable {scope : Scope} {names : List String} {loc : Location}

theorem unbound_eq_nil_iff
    : scope.unbound names loc = []
      ↔ ∀ name ∈ names, ∃ id, scope.resolve? name = some id := by
  simp [unbound, Option.ne_none_iff_exists']

theorem exists_resolveAll?_iff
    : (∃ ids, scope.resolveAll? names = some ids) ↔ scope.unbound names loc = [] := by
  rw [unbound_eq_nil_iff]
  exact exists_mapM_eq_some_iff

/-- Where all names resolve, the ids found one by one are all their ids. -/
theorem filterMap_resolve? {ids : List Nat} (h : scope.resolveAll? names = some ids)
    : names.filterMap scope.resolve? = ids := by
  have hf := mapM_eq_some_iff.mp h
  clear h
  induction hf with
  | nil => rfl
  | cons hn _ ih => simp [hn, ih]

end Scope

-----------------------------------------------------------------------------------------
-- Extended emissions
-----------------------------------------------------------------------------------------

namespace Emission

/-- The emission with more text and more diagnostics behind what it has. -/
def extended (emission : Emission) (text : String) (faults : List Diagnostic) : Emission :=
  {
    emission with
    text := emission.text ++ text
    diagnostics := emission.diagnostics ++ faults.toArray
  }

section Extended

variable (emission : Emission) (text : String) (faults : List Diagnostic)

@[simp]
theorem layout_extended : (emission.extended text faults).layout = emission.layout := rfl

@[simp]
theorem depth_extended : (emission.extended text faults).depth = emission.depth := rfl

@[simp]
theorem scope_extended : (emission.extended text faults).scope = emission.scope := rfl

@[simp]
theorem agents_extended : (emission.extended text faults).agents = emission.agents := rfl

@[simp]
theorem extended_extended (more : String) (others : List Diagnostic)
    : (emission.extended text faults).extended more others
      = emission.extended (text ++ more) (faults ++ others) := by
  simp [extended, String.append_assoc]

@[simp]
theorem extended_nothing : emission.extended "" [] = emission := by
  simp [extended]

@[simp]
theorem write_eq : emission.write text = emission.extended text [] := by
  simp [write, extended]

@[simp]
theorem report_eq (diagnostic : Diagnostic)
    : emission.report diagnostic = emission.extended "" [diagnostic] := by
  simp [report, extended]

@[simp]
theorem margin_eq
    : emission.margin = emission.extended (emission.layout.margin emission.depth) [] := by
  simp [margin, Layout.margin]

@[simp]
theorem deeper_extended
    : (emission.extended text faults).deeper = emission.deeper.extended text faults :=
  rfl

@[simp]
theorem shallower_extended
    : (emission.extended text faults).shallower = emission.shallower.extended text faults :=
  rfl

@[simp]
theorem bind_extended (name : String)
    : (emission.extended text faults).bind name = (emission.bind name).extended text faults :=
  rfl

@[simp]
theorem unbind_extended (name : String) (binding : Binding)
    : (emission.extended text faults).unbind name binding
      = (emission.unbind name binding).extended text faults :=
  rfl

@[simp]
theorem shallower_deeper : emission.deeper.shallower = emission := rfl

@[simp]
theorem layout_deeper : emission.deeper.layout = emission.layout := rfl

@[simp]
theorem depth_deeper : emission.deeper.depth = emission.depth + 1 := rfl

@[simp]
theorem unbind_bind (name : String)
    : (emission.bind name).unbind name (emission.scope.binding name) = emission := by
  simp [unbind, bind]

end Extended

theorem useName_eq (emission : Emission) (name : String) (loc : Location)
    : emission.useName name loc
      = (emission.scope.resolve? name,
          emission.extended "" (emission.scope.unbound [name] loc)) := by
  cases h : emission.scope.resolve? name <;> simp [useName, h, Scope.unbound]

/-- Using names yields the ids there are and reports the other names, in order. -/
theorem useNames_eq (emission : Emission) (names : List String) (loc : Location)
    : emission.useNames names loc
      = (names.filterMap emission.scope.resolve?,
          emission.extended "" (emission.scope.unbound names loc)) := by
  induction names generalizing emission with
  | nil => simp [useNames, Scope.unbound]
  | cons name names ih =>
      cases h : emission.scope.resolve? name <;>
        simp [useNames, useName, h, ih, Scope.unbound]

-----------------------------------------------------------------------------------------
-- Bodies that only add
-----------------------------------------------------------------------------------------

/-- Behind whatever `emission` is extended by, `body` adds this text and these diagnostics
and leaves everything else as it is.
-/
def Adds (body : Emission → Emission) (emission : Emission) (text : String)
    (faults : List Diagnostic)
    : Prop :=
  ∀ opening earlier,
    body (emission.extended opening earlier)
      = emission.extended (opening ++ text) (earlier ++ faults)

section Adds

variable {emission : Emission} {body : Emission → Emission} {text : String}
  {faults : List Diagnostic}

/-- A body in the scope of a name adds what it adds there; the binding is undone. -/
theorem Adds.within {name : String} {body : Nat → Emission → Emission}
    (h : Adds (body emission.scope.next) (emission.bind name) text faults)
    : Adds (Emission.within name body) emission text faults := by
  intro opening earlier
  have hb : (emission.scope.binding name).id = emission.scope.next := rfl
  simp [Emission.within, hb, h opening earlier]

/-- The same for several names at once, by induction on the names. -/
theorem Adds.withinAll {names : List String}
    (h : Adds body { emission with scope := emission.scope.bindAll names } text faults)
    : Adds (Emission.withinAll names body) emission text faults := by
  induction names generalizing emission with
  | nil => exact h
  | cons name names ih =>
      have hn : Adds (Emission.withinAll names body) (emission.bind name) text faults := ih h
      change Adds (Emission.within name fun _ => Emission.withinAll names body) _ _ _
      exact Adds.within hn

theorem Adds.application {head : String} {ids : List Nat}
    (h : Adds body emission.deeper text faults)
    : Adds (Emission.application head ids body) emission
        (emission.layout.application emission.depth head ids text) faults := by
  intro opening earlier
  simp [Emission.application, nested, h _ earlier, Layout.application, String.append_assoc]

theorem Adds.pair {head : String} {left right : Emission → Emission}
    {first second : String} {others : List Diagnostic}
    (hl : Adds left emission.deeper first faults)
    (hr : Adds right emission.deeper second others)
    : Adds (Emission.pair head left right) emission
        (emission.layout.pair emission.depth head first second) (faults ++ others) := by
  intro opening earlier
  simp [Emission.pair, hl _ _, hr _ _, Layout.pair, String.append_assoc]

/-- One body after the other, for each item of a list, adds all they add in order. -/
theorem Adds.foldl {α : Type} {step : Emission → α → Emission} {texts : α → String}
    {reports : α → List Diagnostic} {items : List α}
    (h : ∀ item ∈ items, Adds (step · item) emission (texts item) (reports item))
    : Adds (items.foldl step ·) emission (String.join (items.map texts))
        (items.flatMap reports) := by
  induction items with
  | nil => simp [Adds]
  | cons item items ih =>
      intro opening earlier
      have hi := h item (by simp) opening earlier
      have hr := ih (fun other ho => h other (by simp [ho]))
      simp only at hi hr
      simp [hi, hr _ _, String.append_assoc]

end Adds

/-- A term of two known names and a continuation, as written for outputs and matches. -/
def guarded (head : String) (names : List String) (loc : Location)
    (body : Emission → Emission) (emission : Emission)
    : Emission :=
  match emission.useNames names loc with
  | ([left, right], emission) => emission.application head [left, right] body
  | (_, emission) => emission

theorem guarded_adds {head left right : String} {loc : Location}
    {body : Emission → Emission} {emission : Emission} {x y : Nat} {text : String}
    {faults : List Diagnostic}
    (hx : emission.scope.resolve? left = some x) (hy : emission.scope.resolve? right = some y)
    (h : Adds body emission.deeper text faults)
    : Adds (guarded head [left, right] loc body) emission
        (emission.layout.application emission.depth head [x, y] text) faults := by
  intro opening earlier
  have hu : emission.scope.unbound [left, right] loc = [] := by
    simp [Scope.unbound, hx, hy]
  simpa [guarded, useNames_eq, hx, hy, hu] using h.application opening earlier

theorem guarded_adds_unbound {head left right : String} {loc : Location}
    {body : Emission → Emission} {emission : Emission}
    (h : emission.scope.unbound [left, right] loc ≠ [])
    : Adds (guarded head [left, right] loc body) emission ""
        (emission.scope.unbound [left, right] loc) := by
  intro opening earlier
  simp only [guarded, useNames_eq, scope_extended, extended_extended]
  split
  next heq =>
    -- Two ids were found, so no name is missing.
    cases hx : emission.scope.resolve? left <;> cases hy : emission.scope.resolve? right <;>
      simp_all [Scope.unbound]
  next => simp_all

end Emission

namespace Agent

open Emission

theorem emit_receive_adds {subject object : String} {next : Agent} {loc : Location}
    {emission : Emission} {id : Nat} {text : String} {faults : List Diagnostic}
    (hs : emission.scope.resolve? subject = some id)
    (h : Adds next.emit (emission.bind object).deeper text faults)
    : Adds (receive subject object next loc).emit emission
        (emission.layout.application emission.depth "input_prefix" [id, emission.scope.next]
          text)
        faults := by
  have hw : Adds
      (within object fun object => Emission.application "input_prefix" [id, object] next.emit)
      emission
      (emission.layout.application emission.depth "input_prefix" [id, emission.scope.next] text)
      faults :=
    Adds.within h.application
  intro opening earlier
  simpa [emit, useName_eq, hs, Scope.unbound] using hw opening earlier

/-- Whatever its names, an agent adds some text and reports exactly its faults. -/
theorem emit_adds_faults (agent : Agent) (emission : Emission)
    : ∃ text,
        Adds agent.emit emission text (agent.faults emission.agents emission.scope) := by
  induction agent generalizing emission with
  | inert loc => exact ⟨"zero", by simp [Adds, emit, faults]⟩
  | silent next loc ih =>
      obtain ⟨text, h⟩ := ih emission
      refine ⟨"tau_prefix(" ++ text ++ ")", ?_⟩
      intro opening earlier
      simp [emit, faults, h _ earlier, String.append_assoc]
  | receive subject object next loc ih =>
      obtain ⟨text, h⟩ := ih (emission.bind object).deeper
      simp only [faults]
      split
      next hu =>
        obtain ⟨id, hs⟩ := Scope.unbound_eq_nil_iff.mp hu subject (by simp)
        exact ⟨_, emit_receive_adds hs h⟩
      next hu =>
        have hs : emission.scope.resolve? subject = none := by
          simpa [Scope.unbound] using hu
        refine ⟨"", ?_⟩
        intro opening earlier
        simp [emit, useName_eq, hs]
  | send left right next loc ih | compare left right next loc ih =>
      obtain ⟨text, h⟩ := ih emission.deeper
      simp only [faults]
      split
      next hu =>
        obtain ⟨x, hx⟩ := Scope.unbound_eq_nil_iff.mp hu left (by simp)
        obtain ⟨y, hy⟩ := Scope.unbound_eq_nil_iff.mp hu right (by simp)
        exact ⟨_, guarded_adds hx hy h⟩
      next hu => exact ⟨"", guarded_adds_unbound hu⟩
  | restrict name next loc ih =>
      obtain ⟨text, h⟩ := ih (emission.bind name).deeper
      exact ⟨_, h.application.within⟩
  | choice left right loc ihl ihr | parallel left right loc ihl ihr =>
      obtain ⟨first, hl⟩ := ihl emission.deeper
      obtain ⟨second, hr⟩ := ihr emission.deeper
      exact ⟨_, hl.pair hr⟩
  | call name arguments loc =>
      cases hn : emission.agents[name]? with
      | none =>
          refine ⟨"", ?_⟩
          intro opening earlier
          simp [emit, faults, useAgent, hn]
      | some index =>
          refine ⟨invocationText index (arguments.filterMap emission.scope.resolve?), ?_⟩
          intro opening earlier
          simp [emit, faults, useAgent, hn, useNames_eq, invocation, invocationText]

attribute [local simp] Option.bind_eq_some_iff

/-- An agent that can be resolved adds the text of its term and reports nothing. -/
theorem emit_adds_text {agent : Agent} {emission : Emission} {term : Term}
    (h : agent.resolve? emission.agents emission.scope = some term)
    : Adds agent.emit emission (term.text emission.layout emission.depth) [] := by
  induction agent generalizing emission term with
  | inert loc =>
      cases h
      simp [Adds, emit, Term.text]
  | silent next loc ih =>
      simp [resolve?] at h
      obtain ⟨term, h, rfl⟩ := h
      intro opening earlier
      simp [emit, Term.text, ih h _ earlier, String.append_assoc]
  | receive subject object next loc ih =>
      simp [resolve?] at h
      obtain ⟨id, hs, term, h, rfl⟩ := h
      exact emit_receive_adds hs (@ih (emission.bind object).deeper _ h)
  | send left right next loc ih | compare left right next loc ih =>
      simp [resolve?] at h
      obtain ⟨x, hx, y, hy, term, h, rfl⟩ := h
      exact guarded_adds hx hy (@ih emission.deeper _ h)
  | restrict name next loc ih =>
      simp [resolve?] at h
      obtain ⟨term, h, rfl⟩ := h
      exact (@ih (emission.bind name).deeper _ h).application.within
  | choice left right loc ihl ihr | parallel left right loc ihl ihr =>
      simp [resolve?] at h
      obtain ⟨first, hl, second, hr, rfl⟩ := h
      exact (@ihl emission.deeper _ hl).pair (@ihr emission.deeper _ hr)
  | call name arguments loc =>
      simp [resolve?] at h
      obtain ⟨index, hn, ids, ha, rfl⟩ := h
      have hu : emission.scope.unbound arguments loc = [] :=
        Scope.exists_resolveAll?_iff.mp ⟨ids, ha⟩
      intro opening earlier
      simp [emit, useAgent, hn, useNames_eq, hu, Scope.filterMap_resolve? ha, invocation,
        Term.text, invocationText]

/-- An agent can be resolved exactly if nothing is wrong with it. -/
theorem exists_resolve?_iff {agents : Indices} {agent : Agent} {scope : Scope}
    : (∃ term, agent.resolve? agents scope = some term)
      ↔ agent.faults agents scope = [] := by
  induction agent generalizing scope with
  | inert loc => simp [resolve?, faults]
  | silent next loc ih => simp [resolve?, faults, ← ih]
  | receive subject object next loc ih =>
      simp only [faults]
      split
      next hu =>
        obtain ⟨id, hs⟩ := Scope.unbound_eq_nil_iff.mp hu subject (by simp)
        simp [resolve?, hs, ← ih]
      next hu =>
        have hs : scope.resolve? subject = none := by simpa [Scope.unbound] using hu
        exact iff_of_false (by simp [resolve?, hs]) hu
  | send left right next loc ih | compare left right next loc ih =>
      simp only [faults]
      split
      next hu =>
        obtain ⟨x, hx⟩ := Scope.unbound_eq_nil_iff.mp hu left (by simp)
        obtain ⟨y, hy⟩ := Scope.unbound_eq_nil_iff.mp hu right (by simp)
        simp [resolve?, hx, hy, ← ih]
      next hu =>
        refine iff_of_false ?_ hu
        intro hr
        obtain ⟨term, h⟩ := hr
        simp [resolve?] at h
        obtain ⟨x, hx, y, hy, _⟩ := h
        exact hu (by simp [Scope.unbound, hx, hy])
  | restrict name next loc ih => simp [resolve?, faults, ← ih]
  | choice left right loc ihl ihr | parallel left right loc ihl ihr =>
      simp [resolve?, faults, ← ihl, ← ihr]
  | call name arguments loc =>
      simp only [faults]
      cases hn : agents[name]? with
      | none => simp [resolve?, hn]
      | some index => simp [resolve?, hn, ← Scope.exists_resolveAll?_iff]

end Agent

end PiCalculus
