import PiCalculus.Proofs.Emission

/-! Writing puts back whatever it changes on the way. What is done for an agent is a row of
single strokes in which every level entered is left again and every binding made is undone
again, the last one first. Behind such a row an emission has more text and more diagnostics
and is otherwise as before, and on the way it is never taken below the place where it started.
-/

namespace PiCalculus

namespace Emission

/-- All of an emission but what it has written and reported. -/
structure Context where
  layout : Layout
  depth : Nat
  scope : Scope
  agents : Indices

def context (emission : Emission) : Context :=
  ⟨emission.layout, emission.depth, emission.scope, emission.agents⟩

/-- A single thing that writing does. -/
inductive Stroke where
  | write (text : String)
  | margin
  | report (diagnostic : Diagnostic)
  | deeper
  | shallower
  | bind (name : String)
  | unbind (name : String) (binding : Binding)
deriving DecidableEq, Repr, Inhabited

def Stroke.apply : Stroke → Emission → Emission
  | write text, emission => emission.write text
  | margin, emission => emission.margin
  | report diagnostic, emission => emission.report diagnostic
  | deeper, emission => emission.deeper
  | shallower, emission => emission.shallower
  | bind name, emission => emission.bind name
  | unbind name binding, emission => emission.unbind name binding

/-- What the stroke takes down by one, if anything, is above its value in `floor`. -/
def Stroke.Above (floor : Context) (emission : Emission) : Stroke → Prop
  | shallower => floor.depth < emission.depth
  | unbind _ _ => floor.scope.next < emission.scope.next
  | write _ | margin | report _ | deeper | bind _ => True

/-- Strokes that lead from one emission to another. None of them takes the depth or the next
id below that of `floor`.
-/
inductive Drawn (floor : Context) : Emission → List Stroke → Emission → Prop
  | nil {emission} : Drawn floor emission [] emission
  | cons {emission stroke strokes last} (above : stroke.Above floor emission)
    (rest : Drawn floor (stroke.apply emission) strokes last)
    : Drawn floor emission (stroke :: strokes) last

/-- At `emission`, what `body` does is these strokes. They take nothing below where it was and
put everything back, and what they add is the same for all emissions in this context.
-/
structure Restores (body : Emission → Emission) (strokes : List Stroke) (emission : Emission)
    : Prop where
  drawn : Drawn emission.context emission strokes (body emission)
  context : (body emission).context = emission.context
  adds
    : ∃ text faults, ∀ other : Emission, other.context = emission.context
        → (body other).text = other.text ++ text
          ∧ (body other).diagnostics.toList = other.diagnostics.toList ++ faults

-----------------------------------------------------------------------------------------
-- The strokes of agents and declarations
-----------------------------------------------------------------------------------------

namespace Stroke

/-- The strokes `body` on a line of its own, one level deeper. -/
def nested (body : List Stroke) : List Stroke :=
  deeper :: margin :: (body ++ [shallower, write "\n", margin])

def application (head : String) (ids : List Nat) (body : List Stroke) : List Stroke :=
  write (head ++ "(" ++ idList ids ++ ",\n") :: (nested body ++ [write ")"])

def pair (head : String) (left right : List Stroke) : List Stroke :=
  write (head ++ "(\n") :: deeper :: margin
    :: (left ++ write ",\n" :: margin
      :: (right ++ [write "\n", shallower, margin, write ")"]))

/-- The strokes `body` with `name` bound, which `scope` is the scope in front of. -/
def within (scope : Scope) (name : String) (body : List Stroke) : List Stroke :=
  bind name :: (body ++ [unbind name (scope.binding name)])

/-- The strokes `body` with all of `names` bound. The last one is the first to be undone. -/
def withinAll (scope : Scope) (names : List String) (body : List Stroke) : List Stroke :=
  match names with
  | [] => body
  | name :: names => within scope name (withinAll (scope.bind name) names body)

/-- The strokes of a term with two names, both of which are looked up in any case. -/
def guarded (scope : Scope) (head left right : String) (loc : Location) (body : List Stroke)
    : List Stroke :=
  match scope.resolve? left, scope.resolve? right with
  | some left, some right => application head [left, right] body
  | _, _ => (scope.unbound [left, right] loc).map report

end Stroke

end Emission

open Emission (Stroke)

/-- What is done to write an agent, in order. -/
def Agent.strokes (agents : Indices) : Agent → Scope → List Stroke
  | inert _, _ => [.write "zero"]
  | silent next _, scope =>
      .write "tau_prefix(" :: (next.strokes agents scope ++ [.write ")"])
  | receive subject object next loc, scope =>
      match scope.resolve? subject with
      | some subject =>
          Stroke.within scope object
            (Stroke.application "input_prefix" [subject, scope.next]
              (next.strokes agents (scope.bind object)))
      | none => [.report ⟨.unboundName subject, loc⟩]
  | send subject object next loc, scope =>
      Stroke.guarded scope "output_prefix" subject object loc (next.strokes agents scope)
  | compare left right next loc, scope =>
      Stroke.guarded scope "match_proc" left right loc (next.strokes agents scope)
  | restrict name next _, scope =>
      Stroke.within scope name
        (Stroke.application "restriction" [scope.next]
          (next.strokes agents (scope.bind name)))
  | choice left right _, scope =>
      Stroke.pair "summation" (left.strokes agents scope) (right.strokes agents scope)
  | parallel left right _, scope =>
      Stroke.pair "parallel_composition" (left.strokes agents scope)
        (right.strokes agents scope)
  | call name arguments loc, scope =>
      match agents[name]? with
      | some index =>
          (scope.unbound arguments loc).map .report
            ++ [.write (invocationText index (arguments.filterMap scope.resolve?))]
      | none => [.report ⟨.unknownAgent name, loc⟩]

/-- What is done to write a declaration, in order. -/
def Declaration.strokes (agents : Indices) (declaration : Declaration) (scope : Scope)
    : List Stroke :=
  Stroke.withinAll scope declaration.parameters
    (Stroke.application "pi_definition" [declaration.parameters.length]
      (declaration.body.strokes agents (scope.bindAll declaration.parameters)))

namespace Emission

-----------------------------------------------------------------------------------------
-- Balanced strokes
-----------------------------------------------------------------------------------------

/-- A stroke that only adds text or a diagnostic. -/
def Stroke.Plain : Stroke → Prop
  | write _ | margin | report _ => True
  | deeper | shallower | bind _ | unbind _ _ => False

/-- Strokes in which every change of the depth or of the scope is undone in its turn. -/
inductive Balanced : Scope → List Stroke → Prop
  | nil {scope} : Balanced scope []
  | cons {scope stroke rest} (plain : stroke.Plain) (behind : Balanced scope rest)
    : Balanced scope (stroke :: rest)
  | indented {scope body rest} (inside : Balanced scope body) (behind : Balanced scope rest)
    : Balanced scope (.deeper :: (body ++ .shallower :: rest))
  | bound {scope name body rest} (inside : Balanced (scope.bind name) body)
    (behind : Balanced scope rest)
    : Balanced scope (.bind name :: (body ++ .unbind name (scope.binding name) :: rest))

/-- The emission behind all of the strokes. -/
def draw (strokes : List Stroke) (emission : Emission) : Emission :=
  strokes.foldl (fun emission stroke => stroke.apply emission) emission

@[simp]
theorem draw_nil (emission : Emission) : draw [] emission = emission := rfl

@[simp]
theorem draw_cons (stroke : Stroke) (strokes : List Stroke) (emission : Emission)
    : draw (stroke :: strokes) emission = draw strokes (stroke.apply emission) :=
  rfl

@[simp]
theorem draw_append (front back : List Stroke) (emission : Emission)
    : draw (front ++ back) emission = draw back (draw front emission) :=
  List.foldl_append

section Drawn

variable {floor lower : Context} {emission middle last : Emission} {front back : List Stroke}

theorem Drawn.append (before : Drawn floor emission front middle)
    (behind : Drawn floor middle back last)
    : Drawn floor emission (front ++ back) last := by
  induction before with
  | nil => exact behind
  | cons above _ ih => exact .cons above (ih behind)

theorem Stroke.Above.mono {stroke : Stroke} (above : stroke.Above floor emission)
    (depth : lower.depth ≤ floor.depth) (next : lower.scope.next ≤ floor.scope.next)
    : stroke.Above lower emission := by
  cases stroke with
  | shallower => exact Nat.lt_of_le_of_lt depth above
  | unbind name binding => exact Nat.lt_of_le_of_lt next above
  | _ => trivial

theorem Drawn.mono (drawn : Drawn floor emission front last)
    (depth : lower.depth ≤ floor.depth) (next : lower.scope.next ≤ floor.scope.next)
    : Drawn lower emission front last := by
  induction drawn with
  | nil => exact .nil
  | cons above _ ih => exact .cons (above.mono depth next) ih

end Drawn

section Balanced

variable {scope : Scope} {front back body : List Stroke} {stroke : Stroke}

theorem Balanced.append (before : Balanced scope front) (behind : Balanced scope back)
    : Balanced scope (front ++ back) := by
  induction before with
  | nil => exact behind
  | cons plain _ ih => exact .cons plain (ih behind)
  | indented inside _ _ ih => simpa using Balanced.indented inside (ih behind)
  | bound inside _ _ ih => simpa using Balanced.bound inside (ih behind)

theorem Balanced.single (plain : stroke.Plain) : Balanced scope [stroke] := .cons plain .nil

theorem Balanced.reports (diagnostics : List Diagnostic)
    : Balanced scope (diagnostics.map .report) := by
  induction diagnostics with
  | nil => exact .nil
  | cons diagnostic _ ih => exact .cons trivial ih

theorem Balanced.nested (inside : Balanced scope body)
    : Balanced scope (Stroke.nested body) := by
  have line : Balanced scope (.margin :: body) := .cons trivial inside
  exact .indented line (.cons trivial (.single trivial))

theorem Balanced.application {head : String} {ids : List Nat} (inside : Balanced scope body)
    : Balanced scope (Stroke.application head ids body) :=
  .cons trivial (inside.nested.append (.single trivial))

theorem Balanced.pair {head : String} {left right : List Stroke} (first : Balanced scope left)
    (second : Balanced scope right)
    : Balanced scope (Stroke.pair head left right) := by
  have inside : Balanced scope
      (.margin :: (left ++ .write ",\n" :: .margin :: (right ++ [.write "\n"]))) :=
    .cons trivial
      (first.append (.cons trivial (.cons trivial (second.append (.single trivial)))))
  have behind : Balanced scope [.margin, .write ")"] := .cons trivial (.single trivial)
  have line : (Stroke.write (head ++ "(\n")).Plain := trivial
  simpa [Stroke.pair] using Balanced.cons line (.indented inside behind)

theorem Balanced.within {name : String} (inside : Balanced (scope.bind name) body)
    : Balanced scope (Stroke.within scope name body) :=
  .bound inside .nil

theorem Balanced.withinAll {names : List String}
    (inside : Balanced (scope.bindAll names) body)
    : Balanced scope (Stroke.withinAll scope names body) := by
  induction names generalizing scope with
  | nil => exact inside
  | cons name names ih => exact (ih inside).within

-- A name bound twice gets its first meaning back only because the second one is undone first.
example
    : Stroke.withinAll .empty ["x", "x"] []
      = [.bind "x", .bind "x", .unbind "x" ⟨1, some 0⟩, .unbind "x" ⟨0, none⟩] := by
  decide +kernel

theorem Balanced.guarded {head left right : String} {loc : Location}
    (inside : Balanced scope body)
    : Balanced scope (Stroke.guarded scope head left right loc body) := by
  unfold Stroke.guarded
  split
  · exact inside.application
  · exact .reports _

theorem Stroke.Plain.context_apply {emission : Emission} (plain : stroke.Plain)
    : (stroke.apply emission).context = emission.context := by
  cases stroke with
  | write | margin | report => rfl
  | _ => cases plain

theorem Stroke.Plain.above {floor : Context} {emission : Emission} (plain : stroke.Plain)
    : stroke.Above floor emission := by
  cases stroke with
  | write | margin | report => trivial
  | _ => cases plain

/-- Balanced strokes lead back to the context that they start in, and never below it. Inside of
a level or a binding this holds for the context there, which lies higher.
-/
theorem Balanced.drawn (balanced : Balanced scope front) {emission : Emission}
    (here : emission.scope = scope)
    : Drawn emission.context emission front (draw front emission)
      ∧ (draw front emission).context = emission.context := by
  induction balanced generalizing emission with
  | nil => exact ⟨.nil, rfl⟩
  | @cons _ stroke rest plain _ ih =>
      have same := @plain.context_apply _ emission
      obtain ⟨drawn, kept⟩ := ih ((congrArg Context.scope same).trans here)
      rw [same] at drawn kept
      exact ⟨.cons plain.above drawn, kept⟩
  | @indented _ body rest _ _ inside behind =>
      obtain ⟨drawn, kept⟩ := @inside emission.deeper here
      have higher : emission.depth < (draw body emission.deeper).depth := by
        rw [show (draw body emission.deeper).depth = emission.depth + 1
          from congrArg Context.depth kept]
        exact Nat.lt_succ_self _
      have back : (draw body emission.deeper).shallower.context = emission.context :=
        congrArg (fun context : Context => { context with depth := context.depth - 1 }) kept
      obtain ⟨later, last⟩ := behind ((congrArg Context.scope back).trans here)
      rw [back] at later last
      rw [draw_cons, draw_append, draw_cons]
      refine ⟨.cons trivial (.append ?_ (.cons higher later)), last⟩
      exact drawn.mono (Nat.le_succ _) (Nat.le_refl _)
  | @bound _ name body rest _ _ inside behind =>
      subst here
      obtain ⟨drawn, kept⟩ := @inside (emission.bind name) rfl
      have higher : emission.scope.next < (draw body (emission.bind name)).scope.next := by
        rw [show (draw body (emission.bind name)).scope = emission.scope.bind name
          from congrArg Context.scope kept]
        exact Nat.lt_succ_self _
      -- The binding is undone in the scope that it was made in, so it leaves nothing behind.
      have back : ((draw body (emission.bind name)).unbind name
          (emission.scope.binding name)).context = emission.context := by
        have undone := congrArg (fun context : Context =>
          { context with
            scope := context.scope.unbind name (emission.scope.binding name) }) kept
        exact undone.trans (congrArg context (emission.unbind_bind name))
      obtain ⟨later, last⟩ := behind (congrArg Context.scope back)
      rw [back] at later last
      rw [draw_cons, draw_append, draw_cons]
      refine ⟨.cons trivial (.append ?_ (.cons higher later)), last⟩
      exact drawn.mono (Nat.le_refl _) (Nat.le_succ _)

end Balanced

-----------------------------------------------------------------------------------------
-- Writing is drawing
-----------------------------------------------------------------------------------------

/-- Wherever these are the scope and the agents, what `body` does is the strokes. -/
def Does (body : Emission → Emission) (scope : Scope) (agents : Indices)
    (strokes : List Stroke)
    : Prop :=
  ∀ emission : Emission, emission.scope = scope → emission.agents = agents
    → body emission = draw strokes emission

section Does

variable {scope : Scope} {agents : Indices} {body : Emission → Emission}
  {strokes : List Stroke}

theorem draw_reports (diagnostics : List Diagnostic) (emission : Emission)
    : draw (diagnostics.map .report) emission = emission.extended "" diagnostics := by
  induction diagnostics generalizing emission with
  | nil => simp
  | cons diagnostic diagnostics ih => simp [ih, Stroke.apply]

theorem Does.nested (does : Does body scope agents strokes)
    : Does (Emission.nested body) scope agents (Stroke.nested strokes) := by
  intro emission here table
  rw [Emission.nested, does emission.deeper.margin here table, Stroke.nested, draw_cons,
    draw_cons, draw_append]
  rfl

theorem Does.application {head : String} {ids : List Nat}
    (does : Does body scope agents strokes)
    : Does (Emission.application head ids body) scope agents
        (Stroke.application head ids strokes) := by
  intro emission here table
  have line := does.nested (emission.write (head ++ "(" ++ idList ids ++ ",\n")) here table
  rw [Emission.application, line, Stroke.application, draw_cons, draw_append]
  rfl

/-- What comes second is written in the same scope, since what comes first is balanced. -/
theorem Does.pair {head : String} {left right : Emission → Emission}
    {first second : List Stroke} (balanced : Balanced scope first)
    (does : Does left scope agents first) (also : Does right scope agents second)
    : Does (Emission.pair head left right) scope agents (Stroke.pair head first second) := by
  intro emission here table
  let line := (emission.write (head ++ "(\n")).deeper.margin
  have kept := (@Balanced.drawn _ _ balanced line here).2
  have later := also ((draw first line).write ",\n").margin
    ((congrArg Context.scope kept).trans here) ((congrArg Context.agents kept).trans table)
  rw [Emission.pair, does line here table, later, Stroke.pair]
  simp only [draw_cons, draw_append, draw_nil]
  rfl

theorem Does.within {name : String} {body : Nat → Emission → Emission}
    (does : Does (body scope.next) (scope.bind name) agents strokes)
    : Does (Emission.within name body) scope agents (Stroke.within scope name strokes) := by
  intro emission here table
  subst here
  rw [Stroke.within, draw_cons, draw_append]
  exact congrArg (Emission.unbind · name (emission.scope.binding name))
    (does (emission.bind name) rfl table)

theorem Does.withinAll {names : List String}
    (does : Does body (scope.bindAll names) agents strokes)
    : Does (Emission.withinAll names body) scope agents
        (Stroke.withinAll scope names strokes) := by
  induction names generalizing scope with
  | nil => exact does
  | cons name names ih =>
      exact @Does.within _ _ _ name (fun _ => Emission.withinAll names body) (ih does)

theorem Does.guarded {head left right : String} {loc : Location}
    (does : Does body scope agents strokes)
    : Does (Emission.guarded head [left, right] loc body) scope agents
        (Stroke.guarded scope head left right loc strokes) := by
  intro emission here table
  subst here
  rw [Emission.guarded, useNames_eq, Stroke.guarded]
  cases hx : emission.scope.resolve? left with
  | none => cases hy : emission.scope.resolve? right <;> simp [hx, hy, draw_reports]
  | some x =>
      cases hy : emission.scope.resolve? right with
      | none => simp [hx, hy, draw_reports]
      | some y =>
          have none : emission.scope.unbound [left, right] loc = [] := by
            simp [Scope.unbound, hx, hy]
          simpa [hx, hy, none] using does.application emission rfl table

end Does

end Emission

namespace Agent

open Emission

theorem balanced_strokes (agents : Indices) (agent : Agent) (scope : Scope)
    : Balanced scope (agent.strokes agents scope) := by
  induction agent generalizing scope with
  | inert => exact .single trivial
  | silent next loc ih => exact .cons trivial ((ih scope).append (.single trivial))
  | receive subject object next loc ih =>
      rw [strokes]
      split
      · exact (ih _).application.within
      · exact .single trivial
  | send left right next loc ih | compare left right next loc ih => exact (ih scope).guarded
  | restrict name next loc ih => exact (ih _).application.within
  | choice left right loc ihl ihr | parallel left right loc ihl ihr =>
      exact (ihl scope).pair (ihr scope)
  | call name arguments loc =>
      rw [strokes]
      split
      · exact (Balanced.reports _).append (.single trivial)
      · exact .single trivial

/-- The strokes of an agent are what writing it does. -/
theorem does_strokes (agents : Indices) (agent : Agent) (scope : Scope)
    : Does agent.emit scope agents (agent.strokes agents scope) := by
  induction agent generalizing scope with
  | inert => exact fun _ _ _ => rfl
  | silent next loc ih =>
      intro emission here table
      rw [strokes, draw_cons, draw_append]
      exact congrArg (Emission.write · ")")
        (ih scope (emission.write "tau_prefix(") here table)
  | receive subject object next loc ih =>
      have inside id := @Does.within scope agents _ object
        (fun object => Emission.application "input_prefix" [id, object] next.emit)
        (ih (scope.bind object)).application
      intro emission here table
      rw [strokes, emit, useName_eq, here]
      cases found : scope.resolve? subject with
      | none => simp [Scope.unbound, found, Stroke.apply]
      | some id => simpa [Scope.unbound, found] using inside id emission here table
  | send left right next loc ih => exact (ih scope).guarded
  | compare left right next loc ih => exact (ih scope).guarded
  | restrict name next loc ih =>
      exact @Does.within scope agents _ name
        (fun name => Emission.application "restriction" [name] next.emit)
        (ih (scope.bind name)).application
  | choice left right loc ihl ihr | parallel left right loc ihl ihr =>
      exact (ihl scope).pair (left.balanced_strokes agents scope) (ihr scope)
  | call name arguments loc =>
      intro emission here table
      subst here table
      rw [strokes, emit, useAgent]
      cases found : emission.agents[name]? with
      | none => rfl
      | some index =>
          simp only [useNames_eq, draw_append, draw_reports]
          rfl

end Agent

namespace Emission

-----------------------------------------------------------------------------------------
-- What is added
-----------------------------------------------------------------------------------------

/-- An emission in this context with nothing written and nothing reported. -/
def Context.fresh (context : Context) : Emission :=
  ⟨context.layout, context.depth, "", #[], context.scope, context.agents⟩

theorem extended_fresh (emission : Emission)
    : emission.context.fresh.extended emission.text emission.diagnostics.toList = emission := by
  simp [extended, Context.fresh, context]

section Adds

variable {body : Emission → Emission} {emission : Emission} {text : String}
  {faults : List Diagnostic}

theorem Adds.nested (adds : Adds body emission.deeper text faults)
    : Adds (Emission.nested body) emission
        (emission.layout.margin (emission.depth + 1) ++ text ++ "\n"
          ++ emission.layout.margin emission.depth)
        faults := by
  intro opening earlier
  simp [Emission.nested, adds _ earlier, String.append_assoc]

/-- What is added to a fresh emission is added to all others in the same context. -/
theorem Adds.everywhere {context : Context} (adds : Adds body context.fresh text faults)
    (other : Emission) (same : other.context = context)
    : (body other).text = other.text ++ text
      ∧ (body other).diagnostics.toList = other.diagnostics.toList ++ faults := by
  have added := adds other.text other.diagnostics.toList
  rw [← same, extended_fresh] at added
  rw [added]
  exact ⟨rfl, by simp [extended, Context.fresh]⟩

theorem restores_of_balanced {strokes : List Stroke}
    (balanced : Balanced emission.scope strokes)
    (does : Does body emission.scope emission.agents strokes)
    (adds : Adds body emission.context.fresh text faults)
    : Restores body strokes emission := by
  obtain ⟨drawn, context⟩ := @Balanced.drawn _ _ balanced emission rfl
  rw [← does emission rfl rfl] at drawn context
  exact ⟨drawn, context, text, faults, adds.everywhere⟩

end Adds

/-- Writing an agent, writing it on a line of its own and writing a declaration all restore
what they work with, whatever the emission and whether or not all names are known.
-/
theorem writing_restores_context (emission : Emission)
    : (∀ agent : Agent,
        Restores agent.emit (agent.strokes emission.agents emission.scope) emission)
      ∧ (∀ agent : Agent,
          Restores (nested agent.emit)
            (Stroke.nested (agent.strokes emission.agents emission.scope)) emission)
      ∧ ∀ declaration : Declaration,
          Restores declaration.emit
            (declaration.strokes emission.agents emission.scope) emission := by
  refine ⟨?agent, ?nested, ?declaration⟩
  case agent =>
    intro agent
    obtain ⟨text, adds⟩ := agent.emit_adds_faults emission.context.fresh
    exact restores_of_balanced (agent.balanced_strokes _ _) (agent.does_strokes _ _) adds
  case nested =>
    intro agent
    obtain ⟨text, adds⟩ := agent.emit_adds_faults emission.context.fresh.deeper
    exact restores_of_balanced (agent.balanced_strokes _ _).nested
      (agent.does_strokes _ _).nested adds.nested
  case declaration =>
    intro declaration
    let inside := emission.scope.bindAll declaration.parameters
    obtain ⟨text, adds⟩ := declaration.body.emit_adds_faults
      { emission.context.fresh with scope := inside }.deeper
    exact restores_of_balanced
      (declaration.body.balanced_strokes emission.agents inside).application.withinAll
      (declaration.body.does_strokes emission.agents inside).application.withinAll
      (Adds.withinAll adds.application)

end Emission

end PiCalculus
