import WaitDefer.Proofs.Rotation.Inside

/-!
# Names that capture others

Rotation makes names up for routines, counters and parameters, and puts calls of the runtime into the
code. Marking refuses reserved names where they are declared, but not where they are assigned, and it
does not look for declarations of the runtime's names. So one name may capture another:

* `Func.ConfinesCapture`: only if the user's code assigns a name of the made-up form, or binds the
  runtime's function, or if the settings call that function by a made-up name;
* `Func.confinesCapture_of_lower`: this holds whenever a function is hoisted and rotated;
* `assigningAfterWait_captured`: and each of them happens.
-/

namespace WaitDefer

open Rotation

namespace Node

/-- The names that a node assigns: the target of an assignment, and what a callback binds. -/
def assigns : Node → List Ident
  | statement s => s.kind.assigned
  | expr e => e.bound
  | _ => []

/-- The name of a function that was made up, or of a counter: no other name is declared with a value
after hoisting. -/
def invented : Node → List String
  | func f => f.name.toList.map Ident.name
  | n => n.valued.map Ident.name

theorem mem_declares_of_declared? {n : Node} {x : Ident} (h : n.declared? = some x) :
    x.name ∈ n.declares := by
  cases n with
  | statement s =>
    obtain ⟨id, kind, span⟩ := s
    cases kind with
    | declare name init =>
      cases h
      exact List.mem_singleton_self _
    | _ => cases h
  | _ => cases h

end Node

/-- The names of the routines and counters of a unit. -/
def Func.invented (max : NodeId) (f : Func) : List String := (f.unitNodes max).flatMap Node.invented

/-- A function assigns some names what it is called with, and does nothing else. -/
structure Func.AssignsArguments (config : Config) (bindings : List Ident) (f : Func) : Prop where
  params : f.params.map Ident.name =
    (List.range bindings.length).map fun k => config.reservedPrefix ++ "a" ++ toString k
  body : f.body.statements.map Statement.kind =
    (bindings.zip f.params).map fun p => .assign (.ident p.1) (.ident p.2)

/-- A name in a unit `g` captures another one only if the unit `f` that it was made of, or the
settings, are to blame. -/
structure Func.ConfinesCapture (config : Config) (max : NodeId) (f g : Func) : Prop where
  /-- Routines and counters have made-up names. -/
  invented : ∀ x ∈ g.invented max, config.MakesUp x
  /-- A function that was made up with parameters is the callback of one of the user's: it assigns
  the names bound there, which are none of its own, unless the user's has the name of a parameter. -/
  callbacks : ∀ h, .func h ∈ g.unitNodes max → h.params ≠ [] →
    ∃ bindings, (∃ n ∈ f.body.ownNodes, bindings ∈ n.deferred) ∧
      h.AssignsArguments config bindings ∧
      ∀ x ∈ bindings, x.name ∈ h.bindings →
        ∃ k < bindings.length, x.name = config.reservedPrefix ++ "a" ++ toString k
  /-- A routine or a counter is assigned only if its name is assigned in the user's code. -/
  targets : ∀ n ∈ g.allNodes, ∀ x ∈ n.assigns, x.name ∈ g.invented max →
    ∃ m ∈ f.allNodes, ∃ y ∈ m.assigns, y.name = x.name
  /-- A function around a counter binds the name by which counters are made only if the user's does,
  or if it is a made-up name itself. -/
  maker : ∀ h, h = g ∨ .func h ∈ g.unitNodes max → (∃ n ∈ h.unitNodes max, n.valued ≠ []) →
    config.runtime.newCounter ∈ h.bindings →
      config.runtime.newCounter ∈ f.bindings ∨ config.MakesUp config.runtime.newCounter

/-! ## What is made up -/

section
variable {config : Config} {max : NodeId} {given : List Ident → Prop}

/-- The statements of a callback. -/
theorem Callbacks.kinds_assignments (bindings params : List Ident) (ids : IdSupply) :
    (assignments bindings params ids).1.map Statement.kind =
      (bindings.zip params).map fun p => .assign (.ident p.1) (.ident p.2) := by
  induction bindings generalizing params ids with
  | nil => rfl
  | cons b bs ih =>
    cases params with
    | nil => rfl
    | cons p ps => rw [assignments_cons, List.map_cons, ih, List.zip_cons_cons, List.map_cons]

namespace Func.AssignsArguments

variable {bindings : List Ident} {f : Func}

/-- A callback holds nothing but assignments. -/
theorem exists_kind (h : f.AssignsArguments config bindings) {s : Statement}
    (hs : s ∈ f.body.statements) : ∃ x p : Ident, s.kind = .assign (.ident x) (.ident p) := by
  have kind := List.mem_map_of_mem hs (f := Statement.kind)
  rw [h.body] at kind
  obtain ⟨p, -, same⟩ := List.mem_map.mp kind
  exact ⟨p.1, p.2, same.symm⟩

theorem quiet (h : f.AssignsArguments config bindings) {enter : Func → Bool} :
    ∀ n ∈ f.body.nodes enter, n.valued = [] ∧ n.declares = [] := by
  intro n hn
  rw [Block.nodes_eq, List.mem_cons, List.mem_flatMap] at hn
  rcases hn with rfl | ⟨s, hs, hn⟩
  · exact ⟨rfl, rfl⟩
  · obtain ⟨x, p, assigns⟩ := h.exists_kind hs
    obtain ⟨id, kind, span⟩ := s
    cases assigns
    simp only [Statement.nodes, StatementKind.nodes, Expr.nodes, List.mem_cons, List.mem_append,
      List.not_mem_nil, or_false] at hn
    rcases hn with rfl | (rfl | rfl) | rfl | rfl <;> exact ⟨rfl, rfl⟩

/-- The names that a callback binds are those of its parameters. -/
theorem bindings_eq (h : f.AssignsArguments config bindings) : f.bindings =
    (List.range bindings.length).map fun k => config.reservedPrefix ++ "a" ++ toString k := by
  have nothing : f.body.ownNodes.flatMap Node.declares = [] :=
    List.flatMap_eq_nil_iff.mpr fun n hn => (h.quiet n hn).2
  rw [Func.bindings, nothing, List.append_nil, h.params]

end Func.AssignsArguments

/-- What is known of the nodes that are made up, if certain names may be bound together. -/
def Node.MadeUp (config : Config) (given : List Ident → Prop) : Node → Prop
  | func f => (∀ x ∈ f.name, config.MakesUp x.name) ∧
      (f.params ≠ [] → ∃ bindings, given bindings ∧ f.AssignsArguments config bindings)
  | n => ∀ x ∈ n.valued, config.MakesUp x.name

/-- This, of all that is inside a function that was made up. -/
def Traits.madeUp (config : Config) (max : NodeId) (given : List Ident → Prop) : Traits where
  func f := ∀ n ∈ f.nodes fun g => max < g.id, n.MadeUp config given
  deferred := given
  valued x := config.MakesUp x.name

theorem Node.MadeUp.invented {n : Node} (h : n.MadeUp config given) :
    ∀ x ∈ n.invented, config.MakesUp x := by
  cases n with
  | func f => exact List.forall_mem_map.mpr fun x hx => h.1 x (Option.mem_toList.mp hx)
  | _ => exact List.forall_mem_map.mpr h

theorem Block.madeUp {b : Block} (carries : Carries (.madeUp config max given) b.ownNodes) :
    ∀ n ∈ b.nodes fun g => max < g.id, n.MadeUp config given := by
  intro n hn
  rcases own_or_inside hn with own | ⟨m, hm, f, hf, hn⟩
  · have valued := (carries n own).valued
    cases n with
    | func f => exact absurd (whole (entered_cases _ f) b own) Bool.false_ne_true
    | _ => exact valued
  · exact (carries m hm).functions f hf n hn

theorem Func.madeUp {f : Func} (self : (Node.func f).MadeUp config given)
    (carries : Carries (.madeUp config max given) f.body.ownNodes) :
    ∀ n ∈ f.nodes fun g => max < g.id, n.MadeUp config given := by
  obtain ⟨id, name, params, body, span⟩ := f
  intro n hn
  rw [nodes] at hn
  split at hn
  · simp only [List.mem_cons, List.mem_append, List.mem_map] at hn
    rcases hn with rfl | (⟨i, -, rfl⟩ | ⟨i, -, rfl⟩) | hn
    · exact self
    · exact List.forall_mem_nil _
    · exact List.forall_mem_nil _
    · exact Block.madeUp carries n hn
  · cases hn

theorem Func.extends_madeUp : (Traits.madeUp config max given).Extends
    ⟨fun _ => True, config.MakesUp, fun _ => True⟩ config.reservedPrefix where
  routine i j name body span _ made inside :=
    Func.madeUp ⟨fun x hx => by cases hx; exact made, fun some => absurd rfl some⟩
      (Carries.block_iff.mpr inside)
  continuation g _ _ unnamed bare inside :=
    Func.madeUp ⟨by simp [unnamed], fun some => absurd bare some⟩ inside
  callback i j params bindings ids span _ _ named bound :=
    Func.madeUp ⟨by simp, fun _ => ⟨bindings, bound, named, Callbacks.kinds_assignments ..⟩⟩
      (Carries.block_iff.mpr (Callbacks.carries_assignments bindings params ids))
  counter _ _ made := made

end

/-! ## Capture as weight -/

/-- A node declares no name of one kind, and assigns none of another. -/
structure Node.Spares (declared assigned : String → Bool) (n : Node) : Prop where
  declares : ∀ x ∈ n.declares, declared x = false
  assigns : ∀ x ∈ n.assigns, assigned x.name = false

namespace Weighing

/-- Every node counts for the names of one kind that it declares, and those of another that it
assigns. -/
def mentions (enter : NodeId → Bool) (declared assigned : String → Bool) : Weighing String where
  enter i _ _ := enter i
  func _ _ _ := 0
  block _ := 0
  statement _ names titles targets := ↑(((names ++ titles).map Ident.name).filter declared ++
    (targets.map Ident.name).filter assigned)
  binding x := ↑([x.name].filter assigned)

variable {enter : NodeId → Bool} {declared assigned : String → Bool}

theorem mentions_eq_zero {n : Node} :
    (mentions enter declared assigned).node n = 0 ↔ n.Spares declared assigned := by
  have none (p : String → Bool) (is : List String) :
      is.filter p = [] ↔ ∀ x ∈ is, p x = false := by
    simp only [List.filter_eq_nil_iff, Bool.not_eq_true]
  cases n with
  | statement s =>
    have declares : (Node.statement s).declares =
        (s.kind.declared ++ s.kind.titled).map Ident.name := by
      obtain ⟨id, kind, span⟩ := s
      cases kind <;> rfl
    rw [node, mentions, Multiset.coe_eq_zero, List.append_eq_nil_iff, none, none, ← declares,
      List.forall_mem_map]
    exact ⟨fun h => ⟨h.1, h.2⟩, fun h => ⟨h.declares, h.assigns⟩⟩
  | expr e =>
    have binding (x : Ident) :
        (mentions enter declared assigned).binding x = 0 ↔ assigned x.name = false := by
      rw [mentions, Multiset.coe_eq_zero, none, List.forall_mem_singleton]
    rw [node, bagOf_eq_zero_iff]
    simp only [binding]
    exact ⟨fun h => ⟨List.forall_mem_nil _, h⟩, fun h => h.assigns⟩
  | _ => exact ⟨fun _ => ⟨List.forall_mem_nil _, List.forall_mem_nil _⟩, fun _ => rfl⟩

theorem ofBlock_mentions {b : Block} : (mentions enter declared assigned).ofBlock b = 0 ↔
    ∀ n ∈ b.nodes fun f => enter f.id, n.Spares declared assigned := by
  rw [ofBlock, bagOf_eq_zero_iff]
  simp only [mentions_eq_zero]
  exact Iff.rfl

theorem charges_mentions (enter : NodeId → Bool) (declared assigned : String → Bool)
    (reserved : String) (new : NodeId → Prop) :
    (mentions enter declared assigned).Charges reserved new (fun _ => 0)
      fun name => ↑([name].filter declared) where
  block _ := le_refl _
  statement _ := le_refl _
  assignment _ _ := by simp [mentions]
  callback _ _ _ := le_refl _
  routine _ _ _ _ := by simp [mentions]
  counter _ _ _ := by simp [mentions]
  continuation i j body span _ calls := by
    have inside : bagOf (mentions enter declared assigned).ofStatement body = 0 := by
      refine bagOf_eq_zero fun s hs => ?_
      obtain ⟨k, call, rfl, nothing⟩ := calls s hs
      rw [callWith_eq, nothing]
      rfl
    rw [expr_eq]
    simp only [Expr.bound, Expr.operands, Expr.functions, bagOf_nil, bagOf_cons, func_eq, block_eq,
      inside]
    simp [mentions]

theorem hoists_mentions : (mentions enter declared assigned).Hoists (fun _ => 0)
    fun x => declared x.name = false ∧ assigned x.name = false where
  assigns i x spared := by simp [mentions, spared]
  declares i x spared := by simp [mentions, spared]

end Weighing

/-! ## Functions -/

namespace Func

section
variable {config : Config} {max : NodeId} {f : Func} {marking : Marking} {ds out : List Statement}
  {given rest : Multiset NodeId} {names : Multiset String} {made : Multiset Func}

/-- What is made up for a function that is hoisted and rotated. -/
theorem madeUp_lower (old : ∀ n ∈ f.body.ownNodes, ∀ h ∈ n.functions, h.id ≤ max)
    (declares : DeclaresEach f.declaredNames ds given)
    (turned : Turned config marking.table [] (.run (ds ++ f.body.undeclared.statements) none out)
      rest names made)
    (makes : ∀ x ∈ names, config.MakesUp x) :
    ∀ n ∈ unitNodes max { f with body := { f.body with statements := out } },
      n.MadeUp config fun bindings => ∃ m ∈ f.body.ownNodes, bindings ∈ m.deferred := by
  refine Block.madeUp (carries_lower extends_madeUp (fun n hn => ⟨fun h hh k hk => ?_, ?_, ?_⟩)
    declares turned ⟨fun _ _ => trivial, makes, fun _ _ => trivial⟩)
  · rw [nodes_of_old (old n hn h hh)] at hk
    cases hk
  · exact fun bindings bound => ⟨n, hn, bound⟩
  · exact fun _ _ => trivial

/-- Rotation neither declares nor assigns a name that is spared by the function and by the names
taken. -/
theorem spares_lower (enter : NodeId → Bool) (declared assigned : String → Bool)
    (spared : ∀ n ∈ f.body.nodes fun h => enter h.id, n.Spares declared assigned)
    (lets : ∀ n ∈ f.body.ownNodes, ∀ x, n.declared? = some x → assigned x.name = false)
    (declares : DeclaresEach f.declaredNames ds given)
    (turned : Turned config marking.table [] (.run (ds ++ f.body.undeclared.statements) none out)
      rest names made)
    (others : ∀ x ∈ names, declared x = false) :
    ∀ n ∈ Block.nodes (fun h => enter h.id) { f.body with statements := out },
      n.Spares declared assigned := by
  have lawful : ∀ n ∈ f.body.ownNodes, ∀ x, n.declared? = some x →
      declared x.name = false ∧ assigned x.name = false := by
    intro n hn x isLet
    have own := spared n ((f.body.ownNodes_subperm _).subset hn)
    exact ⟨own.declares x.name (Node.mem_declares_of_declared? isLet), lets n hn x isLet⟩
  have weight := weighs_body (Weighing.charges_mentions enter declared assigned _ fun _ => True)
    Weighing.hoists_mentions lawful declares turned fun _ _ => trivial
  have nothing : names.bind (fun x => (↑([x].filter declared) : Multiset String)) = 0 := by
    refine Multiset.eq_zero_of_forall_notMem fun y hy => ?_
    obtain ⟨x, hx, hy⟩ := Multiset.mem_bind.mp hy
    simp [others x hx] at hy
  rw [nothing, Weighing.ofBlock_mentions.mpr spared] at weight
  refine Weighing.ofBlock_mentions.mp (Multiset.le_zero.mp ((Multiset.le_add_right _ _).trans
    (weight.trans_eq ?_)))
  simp

/-- A made-up name is assigned in the result only if it is in the function. -/
theorem assigns_lower (ok : f.marking config = .ok marking)
    (declares : DeclaresEach f.declaredNames ds given)
    (turned : Turned config marking.table [] (.run (ds ++ f.body.undeclared.statements) none out)
      rest names made)
    {x : Ident} (isName : config.MakesUp x.name) {n : Node}
    (hn : n ∈ allNodes { f with body := { f.body with statements := out } }) (hx : x ∈ n.assigns) :
    ∃ m ∈ f.allNodes, ∃ y ∈ m.assigns, y.name = x.name := by
  by_contra unassigned
  have spared := spares_lower (fun _ => true) (fun _ => false) (· == x.name)
    (fun m hm => ⟨fun _ _ => rfl, fun y hy => ?_⟩) (fun m hm y isLet => ?_) declares turned
    fun _ _ => rfl
  · rw [allNodes_eq] at hn
    simp only [List.mem_cons, List.mem_append, List.mem_map] at hn
    rcases hn with rfl | (⟨i, -, rfl⟩ | ⟨i, -, rfl⟩) | hn
    · cases hx
    · cases hx
    · cases hx
    · simpa using (spared n hn).assigns x hx
  · rw [beq_eq_false_iff_ne]
    exact fun same => unassigned ⟨m, mem_allNodes_of_body hm, y, hy, same⟩
  · rw [beq_eq_false_iff_ne]
    intro same
    have unreserved := not_reserved_of_marking ok hm isLet
    rw [same, config.reserved_of_makesUp isName] at unreserved
    cases unreserved

/-- A unit in which functions are old is the own code of its function. -/
theorem own_of_old (old : ∀ n ∈ f.body.ownNodes, ∀ h ∈ n.functions, h.id ≤ max) {n : Node}
    (hn : n ∈ f.unitNodes max) : n ∈ f.body.ownNodes := by
  rcases Block.own_or_inside hn with own | ⟨m, hm, h, hh, hn⟩
  · exact own
  · rw [nodes_of_old (old m hm h hh)] at hn
    cases hn

/-- The result declares what the function does, and made-up names. -/
theorem declares_lower (old : ∀ n ∈ f.body.ownNodes, ∀ h ∈ n.functions, h.id ≤ max)
    (declares : DeclaresEach f.declaredNames ds given)
    (turned : Turned config marking.table [] (.run (ds ++ f.body.undeclared.statements) none out)
      rest names made)
    (makes : ∀ x ∈ names, config.MakesUp x) {n : Node}
    (hn : n ∈ unitNodes max { f with body := { f.body with statements := out } }) {x : String}
    (hx : x ∈ n.declares) : x ∈ f.bindings ∨ config.MakesUp x := by
  by_contra other
  rw [not_or] at other
  have spared := spares_lower (max < ·) (· == x) (fun _ => false)
    (fun m hm => ⟨fun y hy => ?_, fun _ _ => rfl⟩) (fun _ _ _ _ => rfl) declares turned
    fun y hy => ?_
  · simpa using (spared n hn).declares x hx
  · rw [beq_eq_false_iff_ne]
    rintro rfl
    exact other.1 (List.mem_append_right _ (List.mem_flatMap.mpr ⟨m, own_of_old old hm, hy⟩))
  · rw [beq_eq_false_iff_ne]
    rintro rfl
    exact other.2 (makes y hy)

/-- **Rotation confines capture**: a name in the result captures another only if the user's own
names have the made-up form, or bind the runtime's function. -/
theorem confinesCapture_of_lower {g : Func} {s s' : Supply} (ok : f.marking config = .ok marking)
    (reserved : s.names.reserved = config.reservedPrefix) (proper : s.ids.Proper)
    (ran : f.lower ⟨config, marking.table⟩ s = (.ok g, s')) (enough : s'.ids.exhausted = false)
    (old : ∀ n ∈ f.body.ownNodes, ∀ h ∈ n.functions, h.id ≤ max) :
    f.ConfinesCapture config max g := by
  obtain ⟨names, numbered, ds, out, given, rest, made, -, declares, same, turned⟩ :=
    (f.gives_lower config _ s s' g reserved ran).gave proper enough
  have makes : ∀ x ∈ names, config.MakesUp x := by
    intro x hx
    obtain ⟨n, -, -, isName⟩ := numbered.between x hx
    exact ⟨n, isName⟩
  have known := madeUp_lower old declares turned makes
  rw [← same] at known
  have invented : ∀ x ∈ g.invented max, config.MakesUp x := by
    intro x hx
    obtain ⟨n, hn, hx⟩ := List.mem_flatMap.mp hx
    exact (known n hn).invented x hx
  refine ⟨invented, fun h hh some => ?_, fun n hn x hx overwritten => ?_,
    fun h within ⟨k, hk, holds⟩ bound => ?_⟩
  · obtain ⟨bindings, bound, assigns⟩ := (known _ hh).2 some
    refine ⟨bindings, bound, assigns, fun x _ own => ?_⟩
    rw [assigns.bindings_eq] at own
    obtain ⟨k, hk, same⟩ := List.mem_map.mp own
    exact ⟨k, List.mem_range.mp hk, same.symm⟩
  · rw [same] at hn
    exact assigns_lower ok declares turned (invented _ overwritten) hn hx
  · have body : g.HasBody max h.body := by
      rcases within with rfl | hh
      · exact .inl rfl
      · exact hasBody_of_mem hh
    rcases List.mem_append.mp bound with param | declared
    · rcases within with rfl | hh
      · rw [same] at param
        exact .inl (List.mem_append_left _ param)
      · -- a callback holds no counter
        obtain ⟨bindings, -, assigns⟩ := (known _ hh).2 fun none => by simp [none] at param
        exact absurd (assigns.quiet k hk).1 holds
    · obtain ⟨n, hn, declared⟩ := List.mem_flatMap.mp declared
      have inUnit := body.mem_unitNodes hn
      rw [same] at inUnit
      exact declares_lower old declares turned makes inUnit declared

end

end Func

/-! ## Capture -/

/-- The body is `wait { a(defer(x)); } x = 1;`, where `x` stands for the name that is assigned. -/
def assigningAfterWait (param target : String) : Func :=
  let name (n : String) : Ident := ⟨n, default⟩
  let call : Expr := .call (.ident (name "a")) [.defer [name target] default] default
  let waits : Statement := ⟨2, .wait ⟨3, [⟨4, .expr call, default⟩], default⟩, default⟩
  let assigns : Statement := ⟨5, .assign (.ident (name target)) (.int 1 default), default⟩
  ⟨0, some (name "f"), [name param], ⟨1, [waits, assigns], default⟩, default⟩

theorem confinesCapture_of_lower_assigningAfterWait : ∃ marking g s',
    (assigningAfterWait "c" "x").marking {} = .ok marking ∧
    (assigningAfterWait "c" "x").lower ⟨{}, marking.table⟩ ⟨.above 5, .new "__"⟩ = (.ok g, s') ∧
    (assigningAfterWait "c" "x").ConfinesCapture {} 5 g := by
  have lowers : (assigningAfterWait "c" "x").LowersTo {} 5 fun _ => true :=
    Func.lowersTo_of_run (by decide) (by decide +kernel)
  obtain ⟨-, marking, g, s', ok, ran, enough, -⟩ := lowers
  exact ⟨marking, g, s', ok, ran,
    Func.confinesCapture_of_lower ok rfl (IdSupply.proper_above 5) ran enough (by decide +kernel)⟩

namespace Func

/-- A function that was made up assigns one of its own parameters. -/
def assignsParam (max : NodeId) (g : Func) : Bool :=
  (g.unitNodes max).any fun
    | .func h => h.params.any fun p => h.body.ownNodes.any fun n => n.assigns.any (·.name == p.name)
    | _ => false

/-- A routine or a counter is assigned. -/
def assignsInvented (max : NodeId) (g : Func) : Bool :=
  g.allNodes.any fun n => n.assigns.any fun x => (g.invented max).contains x.name

/-- A counter is made by a call of a name that the function binds. -/
def bindsMaker (g : Func) : Bool :=
  g.body.ownNodes.any fun
    | .statement ⟨_, .declare _ (some (.call (.ident callee) [] _)), _⟩ =>
      g.bindings.contains callee.name
    | _ => false

end Func

/-- A callback assigns its parameter to itself, a routine and a counter are overwritten, and a
parameter or a routine is called in place of the runtime. -/
theorem assigningAfterWait_captured :
    (assigningAfterWait "c" "__a0").LowersTo {} 5 (Func.assignsParam 5) ∧
    (assigningAfterWait "c" "__k1").LowersTo {} 5 (Func.assignsInvented 5) ∧
    (assigningAfterWait "c" "__deferrals2").LowersTo {} 5 (Func.assignsInvented 5) ∧
    (assigningAfterWait "newDeferralCounter" "x").LowersTo {} 5 Func.bindsMaker ∧
    (assigningAfterWait "c" "x").LowersTo { runtime := { newCounter := "__k1" } } 5
      Func.bindsMaker :=
  ⟨Func.lowersTo_of_run (by decide) (by decide +kernel),
    Func.lowersTo_of_run (by decide) (by decide +kernel),
    Func.lowersTo_of_run (by decide) (by decide +kernel),
    Func.lowersTo_of_run (by decide) (by decide +kernel),
    Func.lowersTo_of_run (by decide +kernel) (by decide +kernel)⟩

end WaitDefer
