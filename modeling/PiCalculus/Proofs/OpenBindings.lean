import PiCalculus.Emission.Script

/-! Bindings that are undone in the opposite order of their making form a stack, although no
stack is kept: an emission knows the current id of each name, and every binding knows what it
hides. As long as the last open binding is the next one undone, the ids are the places in the
stack, and a name means its last open binding.
-/

namespace PiCalculus

namespace Emission

/-- A binding that is not undone yet: its name, and its number among the bindings that a script
undoes itself. The binding of a scope has no number and is undone when the scope is left.
-/
structure Opening where
  name : String
  binding : Binding
  number : Option Nat
deriving DecidableEq, Repr, Inhabited

/-- A script takes one move after the other: an operation, or a scope entered or left. -/
inductive Move where
  | act (action : Action)
  | enter (name : String)
  | leave (name : String)
deriving DecidableEq, Repr, Inhabited

def Script.moves : Script → List Move
  | done => []
  | act action rest => .act action :: rest.moves
  | within name body rest => .enter name :: (body.moves ++ .leave name :: rest.moves)

/-- An operation that neither makes nor undoes a binding. -/
def Action.Quiet : Action → Prop
  | bind _ | unbind _ _ => False
  | resolve _ | useName _ _ | useAgent _ _ | report _ => True

/-- A move that undoes a binding. -/
def Move.Undoes : Move → Prop
  | act (.unbind _ _) | leave _ => True
  | act _ | enter _ => False

namespace Session

def enter (session : Session) (name : String) : Session :=
  ({ session with emission := session.emission.bind name }).record .entered
    (some (session.emission.scope.binding name).id)

def leave (session : Session) (name : String) (binding : Binding) : Session :=
  ({ session with emission := session.emission.unbind name binding }).record .left none

end Session

theorem Script.run_within (name : String) (body rest : Script) (session : Session)
    : (within name body rest).run session
      = (body.run (session.enter name)).bind fun inside =>
          rest.run (inside.leave name (session.emission.scope.binding name)) :=
  rfl

/-- A session on its way, with its open bindings in the order of their making. -/
structure Walk where
  session : Session
  opened : List Opening

namespace Walk

def start (layout : Layout) : Walk := ⟨.start layout, []⟩

def scope (walk : Walk) : Scope := walk.session.emission.scope

/-- A move in turn: what is undone is the last open binding, under its own name. -/
inductive Step : Walk → Move → Walk → Prop
  | bind {session next opened name} (did : session.act (.bind name) = some next)
    : Step ⟨session, opened⟩ (.act (.bind name))
        ⟨next,
          opened
            ++ [⟨name, session.emission.scope.binding name, some session.bindings.size⟩]⟩
  | unbind {session next opened name binding number}
    (did : session.act (.unbind name number) = some next)
    : Step ⟨session, opened ++ [⟨name, binding, some number⟩]⟩ (.act (.unbind name number))
        ⟨next, opened⟩
  | look {session next opened action} (quiet : Action.Quiet action)
    (did : session.act action = some next)
    : Step ⟨session, opened⟩ (.act action) ⟨next, opened⟩
  | enter {session opened name}
    : Step ⟨session, opened⟩ (.enter name)
        ⟨session.enter name, opened ++ [⟨name, session.emission.scope.binding name, none⟩]⟩
  | leave {session opened name binding}
    : Step ⟨session, opened ++ [⟨name, binding, none⟩]⟩ (.leave name)
        ⟨session.leave name binding, opened⟩

/-- Moves that are all in turn. -/
inductive Run : Walk → List Move → Walk → Prop
  | nil {walk} : Run walk [] walk
  | cons {walk move next moves last} (step : Step walk move next) (rest : Run next moves last)
    : Run walk (move :: moves) last

/-- Only the last open binding may be undone, under its own name and by whoever made it. -/
def InTurn (walk : Walk) : Move → Prop
  | .act (.unbind name number) =>
      ∃ opening ∈ walk.opened.getLast?, opening.name = name ∧ opening.number = some number
  | .leave name =>
      ∃ opening ∈ walk.opened.getLast?, opening.name = name ∧ opening.number = none
  | .act _ | .enter _ => True

/-- The open bindings are a stack, and the scope is what this stack says. -/
structure IsStack (walk : Walk) : Prop where
  next : walk.scope.next = walk.opened.length
  ids : walk.opened.map (·.binding.id) = List.range walk.opened.length
  resolve
    : ∀ name,
        walk.scope.resolve? name
        = (walk.opened.findRev? (·.name == name)).map (·.binding.id)
  distinct
    : ∀ name other id,
        walk.scope.resolve? name = some id
        → walk.scope.resolve? other = some id
        → name = other
  below : ∀ name id, walk.scope.resolve? name = some id → id < walk.opened.length
  undo
    : ∀ move next, Step walk move next → move.Undoes
        → next.scope.next + 1 = walk.scope.next
  goes : ∀ move, walk.InTurn move → ∃ next, Step walk move next

end Walk

-----------------------------------------------------------------------------------------
-- Stacks of bindings
-----------------------------------------------------------------------------------------

/-- The scope in which all of these bindings are open. -/
inductive Stacked : List Opening → Scope → Prop
  | nil : Stacked [] .empty
  | snoc {opened scope} (name : String) (number : Option Nat) (under : Stacked opened scope)
    : Stacked (opened ++ [⟨name, scope.binding name, number⟩]) (scope.bind name)

namespace Stacked

variable {opened : List Opening} {scope : Scope}

/-- Undoing the last open binding leads back to the scope that it was made in. -/
theorem unbind {last : Opening} (stacked : Stacked (opened ++ [last]) scope)
    : Stacked opened (scope.unbind last.name last.binding) := by
  generalize whole : opened ++ [last] = all at stacked
  cases stacked with
  | nil => simp at whole
  | snoc name number under =>
      obtain ⟨rfl, same⟩ := List.append_inj' whole rfl
      cases same
      rw [Scope.unbind_bind]
      exact under

theorem next_eq (stacked : Stacked opened scope) : scope.next = opened.length := by
  induction stacked with
  | nil => rfl
  | snoc name number _ ih => simp [ih]

theorem ids_eq (stacked : Stacked opened scope)
    : opened.map (·.binding.id) = List.range opened.length := by
  induction stacked with
  | nil => rfl
  | snoc name number under ih => simp [ih, List.range_succ, Scope.binding, under.next_eq]

theorem resolve?_eq (stacked : Stacked opened scope) (name : String)
    : scope.resolve? name = (opened.findRev? (·.name == name)).map (·.binding.id) := by
  simp only [List.findRev?_eq_find?_reverse]
  induction stacked with
  | nil => simp
  | snoc added number under ih =>
      rw [Scope.resolve?_bind, List.reverse_concat, List.find?_cons, ih]
      by_cases same : name = added
      · simp [same, Scope.binding]
      · simp [same, beq_eq_false_iff_ne.mpr (Ne.symm same)]

theorem lt_next (stacked : Stacked opened scope) {name : String} {id : Nat}
    (found : scope.resolve? name = some id)
    : id < scope.next := by
  induction stacked with
  | nil => simp at found
  | snoc added number under ih =>
      rw [Scope.resolve?_bind] at found
      rw [Scope.next_bind]
      split at found
      next =>
        cases found
        exact Nat.lt_succ_self _
      next => exact Nat.lt_succ_of_lt (ih found)

/-- The name bound last has an id of its own, and the others had different ids before. -/
theorem resolve?_inj (stacked : Stacked opened scope) {name other : String} {id : Nat}
    (found : scope.resolve? name = some id) (also : scope.resolve? other = some id)
    : name = other := by
  induction stacked with
  | nil => simp at found
  | snoc added number under ih =>
      rw [Scope.resolve?_bind] at found also
      split at found
      next here =>
        split at also
        next there => exact here.trans there.symm
        next =>
          cases found
          exact absurd (under.lt_next also) (Nat.lt_irrefl _)
      next =>
        split at also
        next =>
          cases also
          exact absurd (under.lt_next found) (Nat.lt_irrefl _)
        next => exact ih found also

end Stacked

-----------------------------------------------------------------------------------------
-- What operations do to names
-----------------------------------------------------------------------------------------

theorem scope_useName (emission : Emission) (name : String) (loc : Location)
    : (emission.useName name loc).2.scope = emission.scope := by
  unfold useName
  split <;> rfl

theorem scope_useAgent (emission : Emission) (name : String) (loc : Location)
    : (emission.useAgent name loc).2.scope = emission.scope := by
  unfold useAgent
  split <;> rfl

namespace Session

variable {session next : Session} {name : String}

theorem of_act_bind (did : session.act (.bind name) = some next)
    : next.emission.scope = session.emission.scope.bind name
      ∧ next.bindings = session.bindings.push (session.emission.scope.binding name) := by
  cases did
  exact ⟨rfl, rfl⟩

theorem of_act_unbind {number : Nat} (did : session.act (.unbind name number) = some next)
    : ∃ binding,
        session.bindings[number]? = some binding
        ∧ next.emission.scope = session.emission.scope.unbind name binding
        ∧ next.bindings = session.bindings := by
  obtain ⟨binding, found, rfl⟩ := Option.map_eq_some_iff.mp did
  exact ⟨binding, found, rfl, rfl⟩

theorem of_act_quiet {action : Action} (quiet : action.Quiet)
    (did : session.act action = some next)
    : next.emission.scope = session.emission.scope ∧ next.bindings = session.bindings := by
  cases action with
  | bind name => cases quiet
  | unbind name number => cases quiet
  | resolve name =>
      cases did
      exact ⟨rfl, rfl⟩
  | useName name loc =>
      cases did
      exact ⟨scope_useName _ name loc, rfl⟩
  | useAgent name loc =>
      cases did
      exact ⟨scope_useAgent _ name loc, rfl⟩
  | report diagnostic =>
      cases did
      exact ⟨rfl, rfl⟩

end Session

namespace Walk

/-- The open bindings are stacked, and those with a number are kept under it. -/
structure Kept (walk : Walk) : Prop where
  stacked : Stacked walk.opened walk.scope
  numbered
    : ∀ opening ∈ walk.opened, ∀ number, opening.number = some number
        → walk.session.bindings[number]? = some opening.binding

variable {walk next : Walk} {move : Move}

theorem kept_start (layout : Layout) : (start layout).Kept := ⟨.nil, by simp [start]⟩

/-- Numbers stay, since bindings are only ever added behind those that were made. -/
theorem Kept.numbered_push (kept : walk.Kept) (opening : Opening) (added : Binding)
    (member : opening ∈ walk.opened) (number : Nat) (known : opening.number = some number)
    : (walk.session.bindings.push added)[number]? = some opening.binding := by
  have found := kept.numbered opening member number known
  have bound := (Array.getElem?_eq_some_iff.mp found).1
  rw [Array.getElem?_push, if_neg (Nat.ne_of_lt bound), found]

/-- A move in turn keeps the stack. -/
theorem Kept.step (kept : walk.Kept) (step : Step walk move next) : next.Kept := by
  cases step with
  | @bind session after opened name did =>
      obtain ⟨scope, bindings⟩ := Session.of_act_bind did
      refine ⟨?_, ?_⟩
      · rw [Walk.scope, scope]
        exact kept.stacked.snoc name _
      · intro opening member number known
        simp only [bindings]
        rcases List.mem_append.mp member with member | member
        · exact kept.numbered_push opening _ member number known
        · cases List.mem_singleton.mp member
          cases known
          exact Array.getElem?_push_size
  | @unbind session after opened name binding number did =>
      obtain ⟨other, found, scope, bindings⟩ := Session.of_act_unbind did
      have numbered := kept.numbered ⟨name, binding, some number⟩ (by simp) number rfl
      cases found.symm.trans numbered
      refine ⟨?_, ?_⟩
      · rw [Walk.scope, scope]
        exact kept.stacked.unbind
      · rw [bindings]
        exact fun opening member => kept.numbered opening (by simp [member])
  | look quiet did =>
      obtain ⟨scope, bindings⟩ := Session.of_act_quiet quiet did
      refine ⟨?_, ?_⟩
      · rw [Walk.scope, scope]
        exact kept.stacked
      · rw [bindings]
        exact kept.numbered
  | @enter session opened name =>
      refine ⟨kept.stacked.snoc name none, ?_⟩
      intro opening member number known
      rcases List.mem_append.mp member with member | member
      · exact kept.numbered opening member number known
      · cases List.mem_singleton.mp member
        cases known
  | leave =>
      refine ⟨kept.stacked.unbind, ?_⟩
      exact fun opening member => kept.numbered opening (by simp [member])

theorem Kept.run {moves : List Move} {last : Walk} (kept : walk.Kept)
    (run : Run walk moves last)
    : last.Kept := by
  induction run with
  | nil => exact kept
  | cons step _ ih => exact ih (kept.step step)

/-- A move that undoes a binding takes the last one off the stack. -/
theorem Step.length_opened (step : Step walk move next) (undoes : move.Undoes)
    : next.opened.length + 1 = walk.opened.length := by
  cases step with
  | bind | enter => cases undoes
  | unbind | leave => simp
  | @look _ _ _ action quiet =>
      cases action with
      | bind | unbind => cases quiet
      | _ => cases undoes

/-- Nothing but the order of undoing ever stops a run. -/
theorem Kept.exists_step (kept : walk.Kept) (turn : walk.InTurn move)
    : ∃ next, Step walk move next := by
  obtain ⟨session, opened⟩ := walk
  cases move with
  | act action =>
      cases action with
      | bind name => exact ⟨_, .bind rfl⟩
      | unbind name number =>
          obtain ⟨⟨name, binding, _⟩, last, rfl, rfl⟩ := turn
          obtain ⟨under, rfl⟩ := List.getLast?_eq_some_iff.mp last
          have found := kept.numbered ⟨name, binding, some number⟩ (by simp) number rfl
          exact ⟨_, .unbind (Option.map_eq_some_iff.mpr ⟨binding, found, rfl⟩)⟩
      | _ => exact ⟨_, .look trivial rfl⟩
  | enter name => exact ⟨_, .enter⟩
  | leave name =>
      obtain ⟨⟨name, binding, _⟩, last, rfl, rfl⟩ := turn
      obtain ⟨under, rfl⟩ := List.getLast?_eq_some_iff.mp last
      exact ⟨_, .leave⟩

theorem Kept.isStack (kept : walk.Kept) : walk.IsStack where
  next := kept.stacked.next_eq
  ids := kept.stacked.ids_eq
  resolve := kept.stacked.resolve?_eq
  distinct _ _ _ := kept.stacked.resolve?_inj
  below _ _ found := kept.stacked.next_eq ▸ kept.stacked.lt_next found
  undo move next step undoes := by
    rw [(kept.step step).stacked.next_eq, kept.stacked.next_eq]
    exact step.length_opened undoes
  goes _ := kept.exists_step

-----------------------------------------------------------------------------------------
-- Runs of scripts
-----------------------------------------------------------------------------------------

theorem run_append {front back : List Move} {last : Walk}
    : Run walk (front ++ back) last ↔ ∃ point, Run walk front point ∧ Run point back last := by
  induction front generalizing walk with
  | nil =>
      constructor
      · exact fun run => ⟨walk, .nil, run⟩
      · rintro ⟨_, ⟨⟩, run⟩
        exact run
  | cons move front ih =>
      constructor
      · rintro (_ | ⟨step, run⟩)
        obtain ⟨point, before, after⟩ := ih.mp run
        exact ⟨point, .cons step before, after⟩
      · rintro ⟨point, _ | ⟨step, before⟩, after⟩
        exact .cons step (ih.mpr ⟨point, before, after⟩)

/-- The scopes that are entered, among the open bindings. -/
def scopes (walk : Walk) : List Opening := walk.opened.filter (·.number.isNone)

theorem Step.act {action : Action} (step : Step walk (.act action) next)
    : walk.session.act action = some next.session ∧ next.scopes = walk.scopes := by
  cases step with
  | bind did | unbind did => exact ⟨did, by simp [scopes]⟩
  | look _ did => exact ⟨did, rfl⟩

/-- A script in turn runs to its end. It leaves just the scopes that it enters, so the binding
undone behind a body is the one that was made in front of it.
-/
theorem Run.script {script : Script} {last : Walk} (run : Run walk script.moves last)
    : script.run walk.session = some last.session ∧ last.scopes = walk.scopes := by
  induction script generalizing walk last with
  | done =>
      cases run
      exact ⟨rfl, rfl⟩
  | act action rest ih =>
      obtain _ | ⟨step, run⟩ := run
      obtain ⟨did, kept⟩ := step.act
      obtain ⟨result, scopes⟩ := ih run
      refine ⟨?_, scopes.trans kept⟩
      rw [Script.run, did]
      exact result
  | within name body rest hb hr =>
      obtain _ | ⟨entered, run⟩ := run
      obtain ⟨point, inside, behind⟩ := run_append.mp run
      obtain _ | ⟨left, run⟩ := behind
      cases entered
      cases left
      obtain ⟨ran, kept⟩ := hb inside
      obtain ⟨result, scopes⟩ := hr run
      -- The body leaves the scopes as they were, so the one left behind it is its own.
      simp only [Walk.scopes, List.filter_append] at kept
      obtain ⟨outer, own⟩ := List.append_inj' kept rfl
      cases own
      refine ⟨?_, scopes.trans outer⟩
      rw [Script.run_within, ran]
      exact result

end Walk

/-- As long as bindings are undone in turn, at every point of a run the open bindings are a
stack that the scope agrees with. Scripts in turn run to their end.
-/
theorem lifo_run_keeps_stack {layout : Layout} {moves : List Move} {last : Walk}
    (run : Walk.Run (.start layout) moves last)
    : last.IsStack
      ∧ (∀ front back, moves = front ++ back
        → ∃ point, Walk.Run (.start layout) front point
            ∧ Walk.Run point back last
            ∧ point.IsStack)
      ∧ ∀ script : Script, moves = script.moves
        → script.run (.start layout) = some last.session := by
  have kept := Walk.kept_start layout
  refine ⟨(kept.run run).isStack, ?_, ?_⟩
  · rintro front back rfl
    obtain ⟨point, before, behind⟩ := Walk.run_append.mp run
    exact ⟨point, before, behind, (kept.run before).isStack⟩
  · rintro script rfl
    exact run.script.1

/-- Binds a name twice, the second time for a scope, and looks at it before and behind the end
of the scope.
-/
def rebinding : Script :=
  .act (.bind "x")
    (.within "x" (.act (.bind "y") (.act (.resolve "x") (.act (.unbind "y" 1) .done)))
      (.act (.useName "x" .start) (.act (.unbind "x" 0) (.act (.useAgent "P" .start) .done))))

theorem rebinding_keeps_stack
    : ∃ last, Walk.Run (.start .standard) rebinding.moves last
        ∧ rebinding.run (.start .standard) = some last.session
        ∧ last.IsStack := by
  have run : ∃ last, Walk.Run (.start .standard) rebinding.moves last :=
    ⟨_, .cons (.bind rfl) <| .cons .enter <| .cons (.bind rfl) <| .cons (.look trivial rfl) <|
      .cons (.unbind rfl) <| .cons .leave <| .cons (.look trivial rfl) <| .cons (.unbind rfl) <|
      .cons (.look trivial rfl) .nil⟩
  obtain ⟨last, run⟩ := run
  obtain ⟨stack, _, scripts⟩ := lifo_run_keeps_stack run
  exact ⟨last, run, scripts rebinding rfl, stack⟩

end Emission

end PiCalculus
