import PiCalculus.Proofs.Conversion

/-! Names mean what their place in the tree says. Nodes are addressed by paths, and a name
refers to the innermost binder of its text whose scope contains its path. The text of a
converted program is that of the one resolved tree in which all references are these.
-/

namespace PiCalculus

/-- The way from a node of a tree to a node right below it. -/
inductive Turn where
  | next
  | left
  | right
deriving DecidableEq, Repr, Inhabited

namespace Agent

def child? : Agent → Turn → Option Agent
  | silent next _, .next
  | receive _ _ next _, .next
  | send _ _ next _, .next
  | compare _ _ next _, .next
  | restrict _ next _, .next => some next
  | choice left _ _, .left
  | parallel left _ _, .left => some left
  | choice _ right _, .right
  | parallel _ right _, .right => some right
  | _, _ => none

/-- The node that `path` leads to. -/
def at? : Agent → List Turn → Option Agent
  | agent, [] => some agent
  | agent, turn :: path => (agent.child? turn).bind (·.at? path)

/-- The name that a node binds in all of what is below it. -/
def bound? : Agent → Option String
  | receive _ object _ _ => some object
  | restrict name _ _ => some name
  | _ => none

/-- The names bound by the nodes strictly above the end of `path`, the outermost first. -/
def enclosing (agent : Agent) (path : List Turn) : List String :=
  (List.range path.length).filterMap fun length => (agent.at? (path.take length)).bind bound?

@[simp]
theorem enclosing_nil (agent : Agent) : agent.enclosing [] = [] := rfl

theorem enclosing_cons (agent : Agent) (turn : Turn) (path : List Turn)
    : agent.enclosing (turn :: path)
      = agent.bound?.toList ++ ((agent.child? turn).map (·.enclosing path)).getD [] := by
  simp only [enclosing, List.length_cons, List.range_succ_eq_map]
  cases hc : agent.child? turn <;> cases hb : agent.bound? <;>
    simp [List.filterMap_map, at?, hc, hb]

theorem enclosing_append_singleton (agent : Agent) (path : List Turn) (turn : Turn)
    : agent.enclosing (path ++ [turn])
      = agent.enclosing path ++ ((agent.at? path).bind bound?).toList := by
  simp only [enclosing, List.length_append, List.length_singleton, List.range_succ,
    List.filterMap_append]
  congr 1
  · apply List.filterMap_congr
    intro length hl
    rw [List.take_append_of_le_length (by grind)]
  · cases h : (agent.at? path).bind bound? <;> simp [h]

end Agent

namespace Term

def child? : Term → Turn → Option Term
  | silent next, .next
  | receive _ _ next, .next
  | send _ _ next, .next
  | compare _ _ next, .next
  | restrict _ next, .next => some next
  | choice left _, .left
  | parallel left _, .left => some left
  | choice _ right, .right
  | parallel _ right, .right => some right
  | _, _ => none

/-- The node that `path` leads to. -/
def at? : Term → List Turn → Option Term
  | term, [] => some term
  | term, turn :: path => (term.child? turn).bind (·.at? path)

end Term

-----------------------------------------------------------------------------------------
-- Lexical resolution
-----------------------------------------------------------------------------------------

namespace Declaration

/-- What can bind a name in a declaration: a parameter, or the node at the end of a path. -/
inductive Binder where
  | parameter (index : Nat)
  | node (path : List Turn)
deriving DecidableEq, Repr, Inhabited

/-- The scope of a binder contains the node at the end of `path`. A node is not in its own
scope.
-/
def Binder.Covers : Binder → List Turn → Prop
  | .parameter _, _ => True
  | .node above, path => above <+: path ∧ above ≠ path

/-- The first binder stands outside of the second. Parameters stand outside of the body, and
outside of the parameters behind them.
-/
inductive Binder.Outside : Binder → Binder → Prop
  | parameters {index later : Nat} (h : index < later)
    : Outside (.parameter index) (.parameter later)
  | body {index : Nat} {path : List Turn} : Outside (.parameter index) (.node path)
  | nodes {above path : List Turn} (hp : above <+: path) (hne : above ≠ path)
    : Outside (.node above) (.node path)

variable (declaration : Declaration)

/-- The name that a binder of this declaration introduces. -/
def boundBy? : Binder → Option String
  | .parameter index => declaration.parameters[index]?
  | .node path => (declaration.body.at? path).bind Agent.bound?

/-- Parameters are numbered in order, and any other binder by the number of binders around
it.
-/
def binderId : Binder → Nat
  | .parameter index => index
  | .node path => declaration.parameters.length + (declaration.body.enclosing path).length

/-- An occurrence of `name` in the node at the end of `path` refers to `binder`. -/
structure Refers (path : List Turn) (name : String) (binder : Binder) : Prop where
  binds : declaration.boundBy? binder = some name
  covers : binder.Covers path
  innermost
    : ∀ other,
        declaration.boundBy? other = some name
        → other.Covers path
        → other = binder ∨ other.Outside binder

/-- An occurrence of `name` in the node at the end of `path` carries `id`. -/
def Denotes (path : List Turn) (name : String) (id : Nat) : Prop :=
  ∃ binder, declaration.Refers path name binder ∧ declaration.binderId binder = id

end Declaration

/-- A node of a term stands for a node of an agent: it is of the same kind, its names carry
the ids that `denotes` gives them, a name that it binds carries `fresh`, and a call carries
the index that `declares` gives it.
-/
inductive Agent.NodeMatches (denotes : String → Nat → Prop) (fresh : Nat)
    (declares : String → Nat → Prop)
    : Agent → Term → Prop
  | inert {loc} : NodeMatches denotes fresh declares (.inert loc) .inert
  | silent {next loc below}
    : NodeMatches denotes fresh declares (.silent next loc) (.silent below)
  | receive {subject object next loc id below} (hs : denotes subject id)
    : NodeMatches denotes fresh declares (.receive subject object next loc)
        (.receive id fresh below)
  | send {subject object next loc left right below} (hs : denotes subject left)
    (ho : denotes object right)
    : NodeMatches denotes fresh declares (.send subject object next loc)
        (.send left right below)
  | compare {first second next loc left right below} (hl : denotes first left)
    (hr : denotes second right)
    : NodeMatches denotes fresh declares (.compare first second next loc)
        (.compare left right below)
  | restrict {name next loc below}
    : NodeMatches denotes fresh declares (.restrict name next loc) (.restrict fresh below)
  | choice {left right loc first second}
    : NodeMatches denotes fresh declares (.choice left right loc) (.choice first second)
  | parallel {left right loc first second}
    : NodeMatches denotes fresh declares (.parallel left right loc) (.parallel first second)
  | call {name arguments loc index ids} (hn : declares name index)
    (ha : List.Forall₂ denotes arguments ids)
    : NodeMatches denotes fresh declares (.call name arguments loc) (.call index ids)

namespace Program

/-- The agent `name` is declared once, under `index`. -/
def Declares (program : Program) (name : String) (index : Nat) : Prop :=
  program.names[index]? = some name
  ∧ ∀ other, program.names[other]? = some name → other = index

/-- A definition has the arity of a declaration, and the two bodies have the same paths and
match at the end of each.
-/
structure Defines (program : Program) (declaration : Declaration) (definition : Definition)
    : Prop where
  arity : definition.arity = declaration.parameters.length
  body
    : ∀ path,
        Option.Rel
          (Agent.NodeMatches (declaration.Denotes path) (declaration.binderId (.node path))
            program.Declares)
          (declaration.body.at? path) (definition.body.at? path)

/-- A system is the lexical resolution of a program: it has one definition for each
declaration, and starts the entry point on the entry point's own parameters.
-/
structure ResolvesTo (program : Program) (system : System) : Prop where
  definitions : List.Forall₂ program.Defines program.declarations system.definitions
  entry : program.Declares entryPoint system.entry
  slots
    : ∃ entry,
        program.declarations[system.entry]? = some entry
        ∧ system.slots = List.range entry.parameters.length

end Program

-----------------------------------------------------------------------------------------
-- Resolution under a threaded scope, path by path
-----------------------------------------------------------------------------------------

namespace Agent

/-- A node of a term stands for a node of an agent in this scope. -/
def MatchesIn (agents : Indices) (scope : Scope) : Agent → Term → Prop :=
  NodeMatches (fun name id => scope.resolve? name = some id) scope.next
    (fun name index => agents[name]? = some index)

variable {agents : Indices} {agent : Agent} {scope : Scope} {term : Term}

attribute [local simp] Option.bind_eq_some_iff Scope.bindAll bound? child? Term.child?

/-- A resolved node matches, and so do the nodes right below it under their own scope. -/
theorem matchesIn_of_resolve? (h : agent.resolve? agents scope = some term)
    : MatchesIn agents scope agent term
      ∧ ∀ turn,
          Option.Rel
            (fun below next =>
              below.resolve? agents (scope.bindAll agent.bound?.toList) = some next)
            (agent.child? turn) (term.child? turn) := by
  cases agent with
  | inert loc =>
      simp [resolve?] at h
      subst h
      refine ⟨.inert, ?_⟩
      intro turn
      cases turn <;> exact .none
  | silent next loc =>
      simp [resolve?] at h
      obtain ⟨below, h, rfl⟩ := h
      refine ⟨.silent, ?_⟩
      intro turn
      cases turn <;> simp [h]
  | receive subject object next loc =>
      simp [resolve?] at h
      obtain ⟨id, hs, below, h, rfl⟩ := h
      refine ⟨.receive hs, ?_⟩
      intro turn
      cases turn <;> simp [h]
  | send left right next loc =>
      simp [resolve?] at h
      obtain ⟨x, hx, y, hy, below, h, rfl⟩ := h
      refine ⟨.send hx hy, ?_⟩
      intro turn
      cases turn <;> simp [h]
  | compare left right next loc =>
      simp [resolve?] at h
      obtain ⟨x, hx, y, hy, below, h, rfl⟩ := h
      refine ⟨.compare hx hy, ?_⟩
      intro turn
      cases turn <;> simp [h]
  | restrict name next loc =>
      simp [resolve?] at h
      obtain ⟨below, h, rfl⟩ := h
      refine ⟨.restrict, ?_⟩
      intro turn
      cases turn <;> simp [h]
  | choice left right loc =>
      simp [resolve?] at h
      obtain ⟨first, hl, second, hr, rfl⟩ := h
      refine ⟨.choice, ?_⟩
      intro turn
      cases turn <;> simp [hl, hr]
  | parallel left right loc =>
      simp [resolve?] at h
      obtain ⟨first, hl, second, hr, rfl⟩ := h
      refine ⟨.parallel, ?_⟩
      intro turn
      cases turn <;> simp [hl, hr]
  | call name arguments loc =>
      simp [resolve?] at h
      obtain ⟨index, hn, ids, ha, rfl⟩ := h
      refine ⟨.call hn (mapM_eq_some_iff.mp ha), ?_⟩
      intro turn
      cases turn <;> simp

theorem resolve?_of_matchesIn (hm : MatchesIn agents scope agent term)
    (hc : ∀ turn,
      Option.Rel
        (fun below next =>
          below.resolve? agents (scope.bindAll agent.bound?.toList) = some next)
        (agent.child? turn) (term.child? turn))
    : agent.resolve? agents scope = some term := by
  cases hm with
  | inert => rfl
  | silent | restrict => simpa [resolve?] using hc .next
  | receive hs => simpa [resolve?, hs] using hc .next
  | send hx hy | compare hx hy => simpa [resolve?, hx, hy] using hc .next
  | choice | parallel =>
      have hl := hc .left
      have hr := hc .right
      simp at hl hr
      simp [resolve?, hl, hr]
  | call hn ha => simp [resolve?, hn, Scope.resolveAll?, mapM_eq_some_iff.mpr ha]

theorem sizeOf_child?_lt {below : Agent} {turn : Turn} (h : agent.child? turn = some below)
    : sizeOf below < sizeOf agent := by
  cases agent <;> cases turn <;> simp at h <;> subst h <;> simp <;> omega

theorem forall_path_iff {holds : List Turn → Prop}
    : (∀ path, holds path) ↔ holds [] ∧ ∀ turn path, holds (turn :: path) := by
  constructor
  · intro h
    exact ⟨h [], fun turn path => h (turn :: path)⟩
  · intro h path
    cases path with
    | nil => exact h.1
    | cons turn path => exact h.2 turn path

/-- Resolving an agent means that its nodes match at all paths, each in the scope that the
binders above it make, by induction on the size of the agent.
-/
theorem resolve?_eq_some_iff_at {agent : Agent} {scope : Scope} {term : Term}
    : agent.resolve? agents scope = some term
      ↔ ∀ path,
          Option.Rel (MatchesIn agents (scope.bindAll (agent.enclosing path)))
            (agent.at? path) (term.at? path) := by
  have hs : agent.resolve? agents scope = some term ↔ _ :=
    ⟨matchesIn_of_resolve?, fun h => resolve?_of_matchesIn h.1 h.2⟩
  rw [hs, forall_path_iff]
  refine and_congr Option.rel_some_some.symm (forall_congr' fun turn => ?_)
  simp only [at?, Term.at?, enclosing_cons]
  cases ha : agent.child? turn with
  | none =>
      cases term.child? turn with
      | none => exact iff_of_true .none fun _ => .none
      | some next => exact iff_of_false nofun fun h => nomatch h []
  | some below =>
      cases term.child? turn with
      | none => exact iff_of_false nofun fun h => nomatch h []
      | some next =>
          have := sizeOf_child?_lt ha
          rw [Option.rel_some_some, resolve?_eq_some_iff_at]
          simp
termination_by sizeOf agent

end Agent

namespace Scope

theorem next_bindAll (scope : Scope) (names : List String)
    : (scope.bindAll names).next = scope.next + names.length := by
  induction names generalizing scope with
  | nil => rfl
  | cons name names ih =>
      simp only [bindAll, List.foldl_cons] at ih ⊢
      rw [ih, next_bind, List.length_cons]
      omega

/-- The name bound last is the one that counts, by induction on the names from the end. -/
theorem resolve?_bindAll_eq_some_iff {names : List String} {name : String} {id : Nat}
    : (empty.bindAll names).resolve? name = some id ↔ LastAt names name id := by
  induction names using List.reverseRecOn generalizing id with
  | nil => simp [bindAll, LastAt]
  | append_singleton names added ih =>
      have hn := next_bindAll .empty names
      simp only [bindAll, List.foldl_append, List.foldl_cons, List.foldl_nil, resolve?_bind,
        lastAt_append_singleton] at ih hn ⊢
      rw [hn]
      split
      · simp [empty, eq_comm]
      · exact ih

end Scope

-----------------------------------------------------------------------------------------
-- Binders and the names in scope
-----------------------------------------------------------------------------------------

namespace Declaration

/-- The names in scope at the end of `path`, the outermost first. -/
def namesAt (declaration : Declaration) (path : List Turn) : List String :=
  declaration.parameters ++ declaration.body.enclosing path

variable {declaration : Declaration} {path : List Turn} {name : String}

theorem namesAt_append_singleton (turn : Turn)
    : declaration.namesAt (path ++ [turn])
      = declaration.namesAt path ++ (declaration.boundBy? (.node path)).toList := by
  simp [namesAt, boundBy?, Agent.enclosing_append_singleton]

theorem Binder.covers_append_singleton {binder : Binder} {turn : Turn}
    : binder.Covers (path ++ [turn]) ↔ binder.Covers path ∨ binder = .node path := by
  cases binder with
  | parameter index => simp [Covers]
  | node above =>
      simp only [Covers, List.prefix_concat_iff, Binder.node.injEq]
      constructor
      · intro hc
        obtain ⟨hp, hne⟩ := hc
        by_cases he : above = path
        · exact .inr he
        · exact .inl ⟨hp.resolve_left hne, he⟩
      · intro hc
        rcases hc with ⟨hp, _⟩ | rfl
        · refine ⟨.inr hp, ?_⟩
          intro he
          subst he
          have hl := hp.length_le
          simp only [List.length_append, List.length_singleton] at hl
          omega
        · exact ⟨.inr List.prefix_rfl, by simp⟩

/-- The id of a binder is its place among the names in scope, wherever it is in scope. -/
theorem getElem?_namesAt_binderId {binder : Binder}
    (hb : declaration.boundBy? binder = some name) (hc : binder.Covers path)
    : (declaration.namesAt path)[declaration.binderId binder]? = some name := by
  induction path using List.reverseRecOn with
  | nil =>
      cases binder with
      | parameter index => simpa [namesAt, binderId, boundBy?] using hb
      | node above => exact absurd (List.prefix_nil.mp hc.1) hc.2
  | append_singleton path turn ih =>
      rw [namesAt_append_singleton]
      rcases Binder.covers_append_singleton.mp hc with hc | rfl
      · have hi := ih hc
        rwa [List.getElem?_append_left (List.getElem?_eq_some_iff.mp hi).1]
      · simp [hb, binderId, namesAt]

/-- Every name in scope comes from a binder, by induction on the path from its end. -/
theorem exists_binder_of_getElem? {id : Nat} (h : (declaration.namesAt path)[id]? = some name)
    : ∃ binder,
        declaration.boundBy? binder = some name
        ∧ binder.Covers path
        ∧ declaration.binderId binder = id := by
  induction path using List.reverseRecOn with
  | nil => exact ⟨.parameter id, by simpa [namesAt, boundBy?] using h, trivial, rfl⟩
  | append_singleton path turn ih =>
      rw [namesAt_append_singleton, List.getElem?_append] at h
      split at h
      next hi =>
        obtain ⟨binder, hb, hc, hid⟩ := ih h
        exact ⟨binder, hb, Binder.covers_append_singleton.mpr (.inl hc), hid⟩
      next hi =>
        -- Only the node at the end of `path` is left.
        have hb : declaration.boundBy? (.node path) = some name
            ∧ id = (declaration.namesAt path).length := by
          cases hb : declaration.boundBy? (.node path) with
          | none => simp [hb] at h
          | some bound =>
              simp only [hb, Option.toList_some, List.getElem?_singleton] at h
              grind
        refine ⟨.node path, hb.1, Binder.covers_append_singleton.mpr (.inr rfl), ?_⟩
        simp [hb.2, binderId, namesAt]

/-- Of two binders in scope at one place, one stands outside of the other. -/
theorem Binder.Covers.nested {binder other : Binder} (hb : binder.Covers path)
    (ho : other.Covers path)
    : binder = other ∨ binder.Outside other ∨ other.Outside binder := by
  cases binder with
  | parameter index =>
      cases other with
      | parameter later =>
          rcases Nat.lt_trichotomy index later with h | rfl | h
          · exact .inr (.inl (.parameters h))
          · exact .inl rfl
          · exact .inr (.inr (.parameters h))
      | node below => exact .inr (.inl .body)
  | node above =>
      cases other with
      | parameter later => exact .inr (.inr .body)
      | node below =>
          by_cases he : above = below
          · exact .inl (congrArg _ he)
          rcases List.prefix_or_prefix_of_prefix hb.1 ho.1 with h | h
          · exact .inr (.inl (.nodes h he))
          · exact .inr (.inr (.nodes h (Ne.symm he)))

theorem Binder.Outside.binderId_lt {binder other : Binder} (h : binder.Outside other)
    (hb : declaration.boundBy? binder = some name)
    : declaration.binderId binder < declaration.binderId other := by
  cases h with
  | parameters h => exact h
  | body =>
      have hi := (List.getElem?_eq_some_iff.mp hb).1
      exact Nat.lt_add_right _ hi
  | nodes hp hne =>
      have hn := getElem?_namesAt_binderId hb ⟨hp, hne⟩
      simpa [namesAt, binderId] using (List.getElem?_eq_some_iff.mp hn).1

/-- The innermost binder of a name is the last one among the names in scope. -/
theorem denotes_iff_lastAt {id : Nat}
    : declaration.Denotes path name id ↔ LastAt (declaration.namesAt path) name id := by
  constructor
  · intro hd
    obtain ⟨binder, h, rfl⟩ := hd
    refine ⟨getElem?_namesAt_binderId h.binds h.covers, ?_⟩
    intro later hl hn
    obtain ⟨other, hb, hc, rfl⟩ := exists_binder_of_getElem? hn
    rcases h.innermost other hb hc with rfl | ho
    · omega
    · have hlt := ho.binderId_lt hb
      omega
  · intro h
    obtain ⟨hn, hl⟩ := h
    obtain ⟨binder, hb, hc, rfl⟩ := exists_binder_of_getElem? hn
    refine ⟨binder, ⟨hb, hc, ?_⟩, rfl⟩
    intro other hob hoc
    rcases hoc.nested hc with he | ho | ho
    · exact .inl he
    · exact .inr ho
    · exact absurd (getElem?_namesAt_binderId hob hoc) (hl _ (ho.binderId_lt hb))

end Declaration

namespace Program

variable {program : Program}

theorem lastAt_iff_declares (hn : program.names.Nodup) {name : String} {index : Nat}
    : LastAt program.names name index ↔ program.Declares name index := by
  refine and_congr_right fun hi => ?_
  have hlt := (List.getElem?_eq_some_iff.mp hi).1
  constructor
  · intro _ other ho
    exact ((List.getElem?_inj hlt hn).mp (hi.trans ho.symm)).symm
  · intro h later hl ho
    exact absurd (h later ho) (by omega)

/-- Lexical resolution of one declaration is resolution under the scope of its parameters. -/
theorem defines_iff_resolve? (hn : program.names.Nodup) {declaration : Declaration}
    {definition : Definition}
    : program.Defines declaration definition
      ↔ declaration.resolve? program.indices = some definition := by
  have hs (path : List Turn)
      : declaration.scope.bindAll (declaration.body.enclosing path)
        = Scope.empty.bindAll (declaration.namesAt path) := by
    simp [Declaration.scope, Scope.bindAll, Declaration.namesAt]
  have hd (path : List Turn)
      : declaration.Denotes path
        = fun name id =>
            (Scope.empty.bindAll (declaration.namesAt path)).resolve? name = some id := by
    funext name id
    rw [Declaration.denotes_iff_lastAt, Scope.resolve?_bindAll_eq_some_iff]
  have hf (path : List Turn)
      : declaration.binderId (.node path)
        = (Scope.empty.bindAll (declaration.namesAt path)).next := by
    simp [Scope.next_bindAll, Scope.empty, Declaration.namesAt, Declaration.binderId]
  have hi : program.Declares = fun name index => program.indices[name]? = some index := by
    funext name index
    rw [getElem?_indices_eq_some_iff, lastAt_iff_declares hn]
  rw [Declaration.resolve?_eq_some_iff, Agent.resolve?_eq_some_iff_at]
  simp only [Agent.MatchesIn, hs, ← hd, ← hf, ← hi]
  exact ⟨fun h => ⟨h.arity, h.body⟩, fun h => ⟨h.1, h.2⟩⟩

/-- Lexical resolution is what resolution under a threaded scope computes. -/
theorem resolvesTo_iff_resolve? (hn : program.names.Nodup) {system : System}
    : program.ResolvesTo system ↔ program.resolve? = some system := by
  have hd : program.Defines
      = fun declaration definition =>
          declaration.resolve? program.indices = some definition := by
    funext declaration definition
    exact propext (defines_iff_resolve? hn)
  simp only [resolve?_eq_some_iff, entry?_eq_some_iff, lastAt_iff_declares hn,
    mapM_eq_some_iff, ← hd]
  constructor
  · intro h
    obtain ⟨definitions, entry, declaration, hi, hs⟩ := h
    exact ⟨hn, definitions, declaration, ⟨hi, entry⟩, hs⟩
  · intro h
    obtain ⟨_, definitions, declaration, ⟨hi, entry⟩, hs⟩ := h
    exact ⟨definitions, entry, declaration, hi, hs⟩

/-- A converted program has exactly one lexical resolution, and its text is the text of that
resolution.
-/
theorem convert_resolves_lexically {layout : Layout} {text : String}
    (h : program.convert layout = .ok text)
    : (∃! system, program.ResolvesTo system)
      ∧ ∀ system, program.ResolvesTo system → text = system.text layout := by
  obtain ⟨system, hs, rfl⟩ := convert_eq_ok_iff.mp h
  have hn := (resolve?_eq_some_iff.mp hs).1
  simp only [resolvesTo_iff_resolve? hn, hs, Option.some.injEq]
  refine ⟨⟨system, rfl, fun _ h => h.symm⟩, ?_⟩
  intro other he
  rw [he]

/-- The second of two equal parameters counts, and a received name hides it, but only behind
its own prefix.
-/
def shadowing : Program :=
  let echo := Agent.send "x" "x" (.inert .start) .start
  ⟨[⟨Program.entryPoint, ["x", "x"], .parallel (.receive "x" "x" echo .start) echo .start,
    .start⟩]⟩

theorem shadowing_resolves_lexically
    : shadowing.convert ⟨""⟩
        = .ok ("(lambda id': PiIdentifier . pi_definition(0, zero))[0 -> pi_definition(2,\n"
          ++ "parallel_composition(\ninput_prefix(1, 2,\noutput_prefix(2, 2,\nzero\n)\n),\n"
          ++ "output_prefix(1, 1,\nzero\n)\n)\n)],\nidentifier(0, [0, 1])")
      ∧ ∃! system, shadowing.ResolvesTo system := by
  refine ⟨?converts, (convert_resolves_lexically ?converts).1⟩
  decide +kernel

end Program

end PiCalculus
