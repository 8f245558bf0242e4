import WaitDefer.Proofs.Rotation.Scoped

/-!
# Inside rotated code

Rotation makes functions and counters up, and moves what was there. So whatever holds of the
functions in code, and of every function that is made up around such, holds of the functions in the
rotated code; and likewise for what is bound by a `defer` and what is declared with a value:

* `Traits`, `Carries`: what is right inside of some nodes has certain traits;
* `Block.Lowered.carries`: the body of a wait-block without its callbacks;
* `Turned.carries`: rotated code;
* `Func.carries_lower`: a function that is hoisted and rotated.
-/

namespace WaitDefer

open Build

/-! ## Traits -/

/-- The name that a statement declares together with a value. -/
def StatementKind.valued : StatementKind → List Ident
  | declare name (some _) => [name]
  | _ => []

namespace Node

/-- The names that a `defer` binds, together. -/
def deferred : Node → List (List Ident)
  | expr (.defer bindings _) => [bindings]
  | _ => []

def valued : Node → List Ident
  | statement s => s.kind.valued
  | _ => []

end Node

/-- Traits of what is right inside a node. -/
structure Traits where
  func : Func → Prop
  /-- Of the names that a `defer` binds. -/
  deferred : List Ident → Prop
  /-- Of a name that is declared with a value. -/
  valued : Ident → Prop

namespace Traits

/-- A trait of functions only. -/
def only (P : Func → Prop) : Traits := ⟨P, fun _ => True, fun _ => True⟩

/-- The same traits, whatever the names that are declared with a value. -/
def unvalued (T : Traits) : Traits := { T with valued := fun _ => True }

end Traits

/-- What is right inside a node has some traits. -/
structure Node.Meets (T : Traits) (n : Node) : Prop where
  functions : ∀ f ∈ n.functions, T.func f
  deferred : ∀ xs ∈ n.deferred, T.deferred xs
  valued : ∀ x ∈ n.valued, T.valued x

/-- What is right inside of some nodes has some traits. -/
def Carries (T : Traits) (ns : List Node) : Prop := ∀ n ∈ ns, n.Meets T

/-- What is known of what is taken for rotated code: of ids, of names, and of the continuations that
are made of them. -/
structure Taken where
  id : NodeId → Prop
  name : String → Prop
  continuation : Func → Prop

structure Taken.Covers (k : Taken) (ids : Multiset NodeId) (names : Multiset String)
    (made : Multiset Func) : Prop where
  ids : ∀ i ∈ ids, k.id i
  names : ∀ x ∈ names, k.name x
  made : ∀ g ∈ made, k.continuation g

/-- What is taken for a unit has ids above the given one. -/
def Taken.new (max : NodeId) : Taken := ⟨(max < ·), fun _ => True, fun _ => True⟩

theorem Taken.Covers.new {max : NodeId} {ids : Multiset NodeId} {names : Multiset String}
    {made : Multiset Func} (h : ∀ i ∈ ids, max < i) : (Taken.new max).Covers ids names made :=
  ⟨h, fun _ _ => trivial, fun _ _ => trivial⟩

/-- Less is covered, too. -/
theorem Taken.Covers.less {k : Taken} {ids more : Multiset NodeId} {names others : Multiset String}
    {made further : Multiset Func} (h : k.Covers ids names made) (fewer : more ⊆ ids)
    (fewerNames : others ⊆ names) (fewerMade : further ⊆ made) : k.Covers more others further :=
  ⟨fun i hi => h.ids i (fewer hi), fun x hx => h.names x (fewerNames hx),
    fun g hg => h.made g (fewerMade hg)⟩

theorem Taken.covers_add {k : Taken} {ids more : Multiset NodeId} {names others : Multiset String}
    {made further : Multiset Func} : k.Covers (ids + more) (names + others) (made + further) ↔
      k.Covers ids names made ∧ k.Covers more others further := by
  constructor
  · intro h
    exact ⟨⟨fun i hi => h.ids i (Multiset.mem_add.mpr (.inl hi)),
        fun x hx => h.names x (Multiset.mem_add.mpr (.inl hx)),
        fun g hg => h.made g (Multiset.mem_add.mpr (.inl hg))⟩,
      ⟨fun i hi => h.ids i (Multiset.mem_add.mpr (.inr hi)),
        fun x hx => h.names x (Multiset.mem_add.mpr (.inr hx)),
        fun g hg => h.made g (Multiset.mem_add.mpr (.inr hg))⟩⟩
  · rintro ⟨first, second⟩
    exact ⟨fun i hi => (Multiset.mem_add.mp hi).elim (first.ids i) (second.ids i),
      fun x hx => (Multiset.mem_add.mp hx).elim (first.names x) (second.names x),
      fun g hg => (Multiset.mem_add.mp hg).elim (first.made g) (second.made g)⟩

/-- What is made up for code with some traits has them again: routines and continuations around such
code, the callbacks of wait-blocks, and counters. -/
structure Traits.Extends (T : Traits) (k : Taken) (reserved : String) : Prop where
  routine (i j : NodeId) (name : String) (body : List Statement) (span : Span) : k.id i →
    k.name name → Carries T (body.flatMap Statement.ownNodes) →
      T.func ⟨i, some ⟨name, span⟩, [], ⟨j, body, span⟩, span⟩
  continuation (g : Func) : k.id g.id → k.continuation g → g.name = none → g.params = [] →
    Carries T g.body.ownNodes → T.func g
  callback (i j : NodeId) (params bindings : List Ident) (ids : IdSupply) (span : Span) : k.id i →
    params ≠ [] → params.map Ident.name =
      (List.range bindings.length).map (fun n => reserved ++ "a" ++ toString n) →
      T.deferred bindings →
        T.func ⟨i, none, params, ⟨j, (Callbacks.assignments bindings params ids).1, span⟩, span⟩
  counter (name : String) (span : Span) : k.name name → T.valued ⟨name, span⟩

section
variable {T : Traits} {k : Taken} {reserved : String}

/-! ## Part by part -/

theorem Node.meets_block (b : Block) : (Node.block b).Meets T :=
  ⟨List.forall_mem_nil _, List.forall_mem_nil _, List.forall_mem_nil _⟩

theorem Node.meets_statement {s : Statement} (functions : s.kind.functions = [])
    (valued : s.kind.valued = []) : (Node.statement s).Meets T := by
  refine ⟨?_, List.forall_mem_nil _, ?_⟩
  · rw [Node.functions, functions]
    exact List.forall_mem_nil _
  · rw [Node.valued, valued]
    exact List.forall_mem_nil _

namespace Carries

variable {as bs : List Node}

theorem nil : Carries T [] := fun _ h => by cases h

theorem cons_iff {n : Node} : Carries T (n :: as) ↔ n.Meets T ∧ Carries T as :=
  List.forall_mem_cons

theorem append_iff : Carries T (as ++ bs) ↔ Carries T as ∧ Carries T bs :=
  List.forall_mem_append

theorem flatMap_iff {α : Type} {g : α → List Node} {l : List α} :
    Carries T (l.flatMap g) ↔ ∀ a ∈ l, Carries T (g a) := by
  simp only [Carries, List.mem_flatMap]
  exact ⟨fun h a ha n hn => h n ⟨a, ha, hn⟩, fun h n ⟨a, ha, hn⟩ => h a ha n hn⟩

theorem perm (h : Carries T as) (p : bs.Perm as) : Carries T bs := fun n hn => h n (p.mem_iff.mp hn)

theorem idents (is : List Ident) : Carries T (is.map .ident) := by
  intro n hn
  obtain ⟨i, -, rfl⟩ := List.mem_map.mp hn
  exact ⟨List.forall_mem_nil _, List.forall_mem_nil _, List.forall_mem_nil _⟩

theorem functions (fs : List Func) : Carries T (fs.flatMap (Func.nodes fun _ => false)) := by
  intro n hn
  obtain ⟨f, -, hn⟩ := List.mem_flatMap.mp hn
  exact absurd hn (Func.not_mem_nodes n f)

/-- What functions have as a trait is all that counts if nothing else does. -/
theorem only_iff {P : Func → Prop} : Carries (.only P) as ↔ ∀ n ∈ as, ∀ f ∈ n.functions, P f :=
  ⟨fun h n hn => (h n hn).functions, fun h n hn => ⟨h n hn, fun _ _ => trivial, fun _ _ => trivial⟩⟩

end Carries

theorem Expr.carries_iff {e : Expr} : Carries T e.ownNodes ↔
    (Node.expr e).Meets T ∧ ∀ o ∈ e.operands, Carries T o.ownNodes := by
  rw [ownNodes, nodes_parts, Carries.cons_iff, Carries.append_iff, Carries.append_iff,
    Carries.flatMap_iff]
  exact ⟨fun h => ⟨h.1, h.2.1.1⟩, fun h => ⟨h.1, ⟨h.2, .idents _⟩, .functions _⟩⟩

theorem Block.carries_iff {b : Block} :
    Carries T b.ownNodes ↔ ∀ s ∈ b.statements, Carries T s.ownNodes := by
  rw [ownNodes, nodes_eq, Carries.cons_iff, Carries.flatMap_iff]
  exact ⟨fun h => h.2, fun h => ⟨Node.meets_block b, h⟩⟩

/-- What is known of the parts of a statement that carries some traits. -/
structure StatementKind.CarriesParts (T : Traits) (kind : StatementKind) : Prop where
  functions : ∀ f ∈ kind.functions, T.func f
  valued : ∀ x ∈ kind.valued, T.valued x
  exprs : ∀ e ∈ kind.tests ++ kind.operands, Carries T e.ownNodes
  headers : ∀ h ∈ kind.headers, Carries T h.ownNodes
  blocks : ∀ b ∈ kind.blocks, Carries T b.ownNodes

theorem Statement.carries_iff {s : Statement} :
    Carries T s.ownNodes ↔ s.kind.CarriesParts T := by
  have split : Carries T s.ownNodes ↔
      (Node.statement s).Meets T ∧ Carries T (s.kind.nodes fun _ => false) := by
    rw [ownNodes, nodes_eq, Carries.cons_iff]
  have parts := s.kind.nodes_perm fun _ => false
  have sorted : Carries T (s.kind.nodes fun _ => false) ↔
      (∀ e ∈ s.kind.tests ++ s.kind.operands, Carries T e.ownNodes) ∧
        (∀ h ∈ s.kind.headers, Carries T h.ownNodes) ∧
          ∀ b ∈ s.kind.blocks, Carries T b.ownNodes := by
    refine ⟨fun h => ?_, fun h => Carries.perm ?_ parts⟩
    · have h := Carries.perm h parts.symm
      simp only [Carries.append_iff, Carries.flatMap_iff] at h
      exact ⟨List.forall_mem_append.mpr ⟨h.1.1.1.1.2, h.1.1.1.2⟩, h.1.1.2, h.1.2⟩
    · obtain ⟨exprs, headers, blocks⟩ := h
      simp only [Carries.append_iff, Carries.flatMap_iff]
      obtain ⟨tests, operands⟩ := List.forall_mem_append.mp exprs
      exact ⟨⟨⟨⟨⟨.idents _, tests⟩, operands⟩, headers⟩, blocks⟩,
        Carries.flatMap_iff.mp (.functions _)⟩
  rw [split, sorted]
  exact ⟨fun h => ⟨h.1.functions, h.1.valued, h.2.1, h.2.2.1, h.2.2.2⟩,
    fun h => ⟨⟨h.functions, List.forall_mem_nil _, h.valued⟩, h.exprs, h.headers, h.blocks⟩⟩

/-- Nothing inside an expression declares a name. -/
theorem Expr.carries_unvalued {e : Expr} (h : Carries T.unvalued e.ownNodes) :
    Carries T e.ownNodes := by
  induction e using Expr.inductOn with
  | step e ih =>
    obtain ⟨self, operands⟩ := carries_iff.mp h
    refine carries_iff.mpr ⟨⟨self.functions, self.deferred, List.forall_mem_nil _⟩, fun o ho => ?_⟩
    exact ih o ho (operands o ho)

theorem Expr.carries_leaf {e : Expr} (functions : e.functions = [])
    (deferred : (Node.expr e).deferred = []) (operands : e.operands = []) : Carries T e.ownNodes := by
  rw [carries_iff, operands]
  refine ⟨⟨?_, ?_, List.forall_mem_nil _⟩, List.forall_mem_nil _⟩
  · rw [Node.functions, functions]
    exact List.forall_mem_nil _
  · rw [deferred]
    exact List.forall_mem_nil _

theorem Expr.carries_ident (name : Ident) : Carries T (ident name).ownNodes :=
  carries_leaf rfl rfl rfl

theorem Expr.carries_call {callee : Expr} {arguments : List Expr} {span : Span}
    (inside : ∀ e ∈ callee :: arguments, Carries T e.ownNodes) :
    Carries T (call callee arguments span).ownNodes :=
  carries_iff.mpr
    ⟨⟨List.forall_mem_nil _, List.forall_mem_nil _, List.forall_mem_nil _⟩, inside⟩

theorem Expr.carries_memberNamed (object property : String) (span : Span) :
    Carries T (memberNamed object property span).ownNodes :=
  carries_iff.mpr ⟨⟨List.forall_mem_nil _, List.forall_mem_nil _, List.forall_mem_nil _⟩,
    List.forall_mem_singleton.mpr (carries_ident _)⟩

theorem Expr.carries_callNamed (name : String) (span : Span) :
    Carries T (callNamed name span).ownNodes :=
  carries_call (List.forall_mem_singleton.mpr (carries_ident _))

theorem Expr.carries_func {f : Func} : Carries T (func f).ownNodes ↔ T.func f := by
  rw [carries_iff]
  exact ⟨fun h => h.1.functions f (List.mem_singleton_self f),
    fun h => ⟨⟨List.forall_mem_singleton.mpr h, List.forall_mem_nil _, List.forall_mem_nil _⟩,
      List.forall_mem_nil _⟩⟩

theorem Expr.Congruent.bound {E : Expr → Expr → Prop} {F : Func → Func → Prop} {e e' : Expr}
    (h : e.Congruent E F e') : e'.bound = e.bound := by
  cases h <;> rfl

theorem Expr.Congruent.deferred {E : Expr → Expr → Prop} {F : Func → Func → Prop} {e e' : Expr}
    (h : e.Congruent E F e') : (Node.expr e').deferred = (Node.expr e).deferred := by
  cases h <;> rfl

theorem StatementKind.Congruent.valued {E : Expr → Expr → Prop} {S : Statement → Statement → Prop}
    {B : Block → Block → Prop} {F : Func → Func → Prop} {kind kind' : StatementKind}
    (h : kind.Congruent E S B F kind') : kind'.valued = kind.valued := by
  cases h with
  | declare name init => cases init <;> rfl
  | _ => rfl

/-! ## Callbacks -/

/-- If all ids taken have a property, the result has one. -/
def Build.taking (new : NodeId → Prop) : Triples IdSupply Unit where
  Of x Q := Takes x fun ids a => (∀ i ∈ ids, new i) → Q () a
  pure h := .pure fun _ => h ()
  bind hx hf := hx.bind fun a => (hf a).weaken fun _ _ q _ p isNew =>
    q (fun i hi => isNew i (Multiset.mem_add.mpr (.inr hi)))
      (p fun i hi => isNew i (Multiset.mem_add.mpr (.inl hi)))

theorem Build.taking_of {α : Type} {x : Draw α} {Q : Unit → α → Prop} :
    (taking new).Of x Q ↔ Takes x fun ids a => (∀ i ∈ ids, new i) → Q () a := Iff.rfl

theorem Callbacks.takes_assigned (bindings params : List Ident) :
    Takes (assignments bindings params) fun _ ss => ∃ ids, ss = (assignments bindings params ids).1 := by
  have later : Takes (assignments bindings params) fun _ _ => True := by
    unfold assignments
    induction bindings.zip params with
    | nil => exact .pure trivial
    | cons p ps ih =>
      rw [List.mapM_cons]
      exact (takes_statement _ _).bind fun s => ih.bind fun ss => .pure fun _ _ _ _ => trivial
  exact fun s => ⟨(later s).1, fun _ _ => ⟨s, rfl⟩⟩

section
variable (extend : T.Extends k reserved)
include extend

theorem Callbacks.carries_lower {c : Callbacks} (same : c.names.reserved = reserved)
    (bindings : List Ident) (span : Span) :
    (taking k.id).Of (c.lower bindings span) fun _ e =>
      T.deferred bindings → Carries T e.ownNodes := by
  have member := Expr.carries_memberNamed (T := T) c.counter c.method span
  unfold lower
  dsimp only
  split
  · exact Triples.pure _ fun _ _ => Expr.carries_call (List.forall_mem_singleton.mpr member)
  · rename_i bound
    refine taking_of.mpr ((takes_assigned bindings _).bind fun ss =>
      (takes_closure _ _ _).bind fun e => .pure ?_)
    rintro _ ⟨i, j, rfl, rfl⟩ _ ⟨ids, rfl⟩ isNew deferred
    refine Expr.carries_call (List.forall_mem_cons.mpr ⟨member, ?_⟩)
    refine List.forall_mem_singleton.mpr (Expr.carries_func.mpr ?_)
    refine extend.callback i j _ bindings ids span (isNew i (by simp)) ?_ ?_ deferred
    · cases bindings with
      | nil => exact absurd rfl bound
      | cons b bs => exact List.cons_ne_nil _ _
    · rw [← same]
      rw [c.names_params, List.range_eq_range']
      rfl

/-- Callbacks that are lowered hold nothing but what they assign. -/
theorem Callbacks.relates_carries {c : Callbacks} (same : c.names.reserved = reserved) :
    c.Relates (taking k.id)
      (fun _ e e' => Carries T e.ownNodes → Carries T e'.ownNodes)
      (fun _ s s' => Carries T s.ownNodes → Carries T s'.ownNodes)
      fun _ b b' => Carries T b.ownNodes → Carries T b'.ownNodes where
  callback bindings span :=
    Triples.weaken _ (Callbacks.carries_lower extend same bindings span) fun _ _ inside carries =>
      inside ((Expr.carries_iff.mp carries).1.deferred bindings (List.mem_singleton_self bindings))
  expr _ congruent carries := by
    have alike := congruent.alike
    rw [Expr.carries_iff] at carries ⊢
    refine ⟨⟨fun f hf => ?_, ?_, List.forall_mem_nil _⟩, fun o ho => ?_⟩
    · obtain ⟨f₀, hf₀, rfl⟩ := exists_left_of_forall₂ alike.functions hf
      exact carries.1.functions f₀ hf₀
    · rw [congruent.deferred]
      exact carries.1.deferred
    · obtain ⟨o₀, ho₀, inside⟩ := exists_left_of_forall₂ alike.operands ho
      exact inside (carries.2 o₀ ho₀)
  block same carries := by
    rw [Block.carries_iff] at carries ⊢
    intro s hs
    obtain ⟨s₀, hs₀, inside⟩ := exists_left_of_forall₂ same hs
    exact inside (carries s₀ hs₀)
  wait _ carries := carries
  statement _ congruent carries := by
    have alike := congruent.alike
    rw [Statement.carries_iff] at carries ⊢
    refine ⟨fun f hf => ?_, ?_, fun e he => ?_, fun h hh => ?_, fun b hb => ?_⟩
    · obtain ⟨f₀, hf₀, rfl⟩ := exists_left_of_forall₂ alike.functions hf
      exact carries.functions f₀ hf₀
    · rw [congruent.valued]
      exact carries.valued
    · obtain ⟨e₀, he₀, inside⟩ :=
        exists_left_of_forall₂ (List.rel_append alike.tests alike.operands) he
      exact inside (carries.exprs e₀ he₀)
    · obtain ⟨h₀, hh₀, inside⟩ := exists_left_of_forall₂ alike.headers hh
      exact inside (carries.headers h₀ hh₀)
    · obtain ⟨b₀, hb₀, inside⟩ := exists_left_of_forall₂ alike.blocks hb
      exact inside (carries.blocks b₀ hb₀)

end

theorem Block.Lowered.carries {config : Config} (extend : T.Extends k config.reservedPrefix)
    {counter : String} {b b' : Block} {ids : Multiset NodeId}
    (h : b.Lowered config counter b' ids) (isNew : ∀ i ∈ ids, k.id i)
    (carries : Carries T b.ownNodes) : Carries T b'.ownNodes := by
  obtain ⟨names, s, s', same, run, proper, enough, rfl⟩ := h.rewritten
  let c : Callbacks := ⟨counter, config.runtime.defer, names⟩
  have inside := (taking_of.mp
    ((Callbacks.relates_carries extend (c := c) same).block_rewrite b) s).2 proper
  rw [run] at inside
  exact inside enough isNew carries

/-! ## Rotated code -/

/-- The own code of a piece before it is rotated. -/
def Weaving.nodesBefore : Weaving → List Node
  | run ss _ _ => ss.flatMap Statement.ownNodes
  | pivot s _ _ => s.ownNodes
  | arms as _ _ => Arm.listNodes (fun _ => false) as
  | choice b _ _ => b.toList.flatMap Block.ownNodes

theorem Carries.statement {i : NodeId} {kind : StatementKind} {span : Span}
    (functions : kind.functions = []) (valued : kind.valued = [])
    (h : Carries T (kind.nodes fun _ => false)) : Carries T (Statement.ownNodes ⟨i, kind, span⟩) := by
  rw [Statement.ownNodes, Statement.nodes_eq, Carries.cons_iff]
  exact ⟨Node.meets_statement functions valued, h⟩

theorem Carries.block_iff {i : NodeId} {ss : List Statement} {span : Span} :
    Carries T (Block.ownNodes ⟨i, ss, span⟩) ↔ Carries T (ss.flatMap Statement.ownNodes) := by
  rw [Block.carries_iff, Carries.flatMap_iff]

theorem Carries.callWith {i : NodeId} {call : Expr} (h : Carries T call.ownNodes) :
    Carries T (Statement.callWith i call).ownNodes := .statement rfl rfl h

theorem Carries.exiting {i : NodeId} {exit : Option Expr} {span : Span}
    (h : ∀ e ∈ exit, Carries T e.ownNodes) :
    Carries T (Statement.ownNodes ⟨i, .exiting exit, span⟩) := by
  cases exit with
  | none => exact .statement rfl rfl .nil
  | some call => exact .statement rfl rfl (h call rfl)

theorem Carries.branchWith {i j : NodeId} {condition : Expr} {yes : Block} {no : Statement}
    {span : Span} (test : Carries T condition.ownNodes) (inYes : Carries T yes.ownNodes)
    (inNo : Carries T no.ownNodes) :
    Carries T (Statement.branchWith i j condition yes no span).ownNodes := by
  refine .statement rfl rfl (append_iff.mpr ⟨append_iff.mpr ⟨test, inYes⟩, block_iff.mpr ?_⟩)
  simpa using inNo

/-- What a callback assigns has nothing inside. -/
theorem Callbacks.carries_assignments {T : Traits} (bindings params : List Ident)
    (ids : IdSupply) :
    Carries T ((assignments bindings params ids).1.flatMap Statement.ownNodes) := by
  induction bindings generalizing params ids with
  | nil => exact .nil
  | cons b bs ih =>
    cases params with
    | nil => exact .nil
    | cons p ps =>
      rw [assignments_cons, List.flatMap_cons, Carries.append_iff]
      refine ⟨.statement rfl rfl (Carries.append_iff.mpr ⟨?_, ?_⟩), ih ps _⟩
      · exact Expr.carries_ident b
      · exact Expr.carries_ident p

section
variable (extend : T.Extends k reserved)
include extend

theorem Carries.routineWith {i j l : NodeId} {name : String} {body : List Statement} {span : Span}
    (isNew : k.id j) (made : k.name name) (h : Carries T (body.flatMap Statement.ownNodes)) :
    Carries T (Statement.routineWith i j l name body span).ownNodes := by
  rw [Statement.ownNodes_routineWith, cons_iff]
  refine ⟨⟨?_, List.forall_mem_nil _, List.forall_mem_nil _⟩, .nil⟩
  exact List.forall_mem_singleton.mpr (extend.routine j l name body span isNew made h)

theorem Expr.ResumesBy.carries {span : Span} {after : Option Expr} {value : Expr}
    {made : Multiset Func} (h : value.ResumesBy span after made)
    (isNew : ∀ i ∈ unitIdsOf made, k.id i) (continues : ∀ g ∈ made, k.continuation g)
    (goesOn : ∀ e ∈ after, Carries T e.ownNodes) : Carries T value.ownNodes := by
  cases h with
  | routine => exact carries_ident _
  | continuation i j l =>
    refine Expr.carries_func.mpr (extend.continuation _ (isNew _ ?_)
      (continues _ (Multiset.mem_singleton_self _)) rfl rfl ?_)
    · rw [unitIdsOf_singleton]
      exact List.mem_cons_self
    · refine Carries.block_iff.mpr (Carries.flatMap_iff.mpr fun s hs => ?_)
      obtain ⟨call, known, rfl⟩ := List.mem_map.mp hs
      exact .callWith (goesOn call (Option.mem_toList.mp known))

end

theorem LoopHead.Pieces.carries {body : Block} {restart : Expr} {exit : Statement} {span : Span}
    {head : LoopHead} {parts : Wiring.LoopParts} {ids : Multiset NodeId}
    (h : head.Pieces body restart exit span parts ids) (again : Carries T restart.ownNodes)
    (test : ∀ e ∈ head.test?, Carries T e.ownNodes)
    (headers : ∀ s ∈ head.statements, Carries T s.ownNodes) (inBody : Carries T body.ownNodes)
    (atExit : Carries T exit.ownNodes) :
    Carries T (parts.before.flatMap Statement.ownNodes) ∧
      Carries T (parts.restart.flatMap Statement.ownNodes) ∧
        Carries T (parts.next.flatMap Statement.ownNodes) := by
  have inHead {before after : Option Statement}
      (headers : ∀ s ∈ before.toList ++ after.toList, Carries T s.ownNodes) :
      Carries T (before.toList.flatMap Statement.ownNodes) ∧
        Carries T (after.toList.flatMap Statement.ownNodes) := by
    obtain ⟨first, last⟩ := List.forall_mem_append.mp headers
    exact ⟨Carries.flatMap_iff.mpr first, Carries.flatMap_iff.mpr last⟩
  obtain ⟨id, ss, place⟩ := body
  cases h with
  | whileDo =>
    refine ⟨.nil, ?_, ?_⟩
    · simpa using Carries.branchWith (test _ rfl) inBody atExit
    · simpa using Carries.callWith again
  | @doWhile condition i j k l =>
    refine ⟨.nil, Carries.block_iff.mp inBody, ?_⟩
    have restarts : Carries T (Block.ownNodes ⟨l, [.callWith k restart], span⟩) :=
      Carries.block_iff.mpr (by simpa using Carries.callWith again)
    simpa using Carries.branchWith (test _ rfl) restarts atExit
  | counting =>
    obtain ⟨first, last⟩ := inHead headers
    refine ⟨first, ?_, ?_⟩
    · simpa using Carries.branchWith (test _ rfl) inBody atExit
    · rw [List.flatMap_append, Carries.append_iff]
      exact ⟨last, by simpa using Carries.callWith again⟩
  | endless =>
    obtain ⟨first, last⟩ := inHead headers
    refine ⟨first, Carries.block_iff.mp inBody, ?_⟩
    rw [List.flatMap_append, Carries.append_iff]
    exact ⟨last, by simpa using Carries.callWith again⟩

/-- **What is inside rotated code** is what was there, and what is made up around it. -/
theorem Turned.carries {config : Config} (extend : T.Extends k config.reservedPrefix)
    {t : MarkTable} {loops : LoopStack} {piece : Weaving} {ids : Multiset NodeId}
    {names : Multiset String} {made : Multiset Func}
    (h : Turned config t loops piece ids names made) (covers : k.Covers ids names made)
    (carries : Carries T piece.nodesBefore)
    (goesOn : ∀ e ∈ piece.goesOn, Carries T e.ownNodes)
    (around : ∀ loop ∈ loops, Carries T loop.next.ownNodes ∧
      ∀ e ∈ loop.exit, Carries T e.ownNodes) : Carries T piece.nodesAfter := by
  induction h with
  | done => exact .nil
  | @goOn loops call i =>
    rw [Weaving.nodesAfter, List.flatMap_singleton]
    exact .callWith (goesOn call rfl)
  | @keep loops s ss out tail ids names made unmarked rest ih =>
    rw [Weaving.nodesBefore, List.flatMap_cons, Carries.append_iff] at carries
    rw [Weaving.nodesAfter, List.flatMap_cons, Carries.append_iff]
    exact ⟨carries.1, ih covers carries.2 goesOn around⟩
  | @jump loops loop s ss tail kind label isJump target =>
    obtain ⟨next, exit⟩ := around loop (LoopStack.mem_of_target? target)
    rw [Weaving.nodesAfter, List.flatMap_singleton]
    cases kind with
    | leave => exact .exiting exit
    | resume => exact .statement rfl rfl next
  | @last loops s wired tail ids names made marked pivot ih =>
    rw [Weaving.nodesBefore, List.flatMap_singleton] at carries
    rw [Weaving.nodesAfter, List.flatMap_singleton]
    exact ih covers carries goesOn around
  | @split loops s wired ss out tail name i j l ids more names others made further marked rest pivot
      ihRest ihPivot =>
    rw [Weaving.nodesBefore, List.flatMap_cons, Carries.append_iff] at carries
    have first : k.Covers ids names made :=
      covers.less (fun _ h => by simp [h]) (fun _ h => by simp [h]) (fun _ h => by simp [h])
    have second : k.Covers more others further :=
      covers.less (fun _ h => by simp [h]) (fun _ h => by simp [h]) (fun _ h => by simp [h])
    have inRest := ihRest first carries.2 goesOn around
    have inPivot := ihPivot second carries.1
      (fun e he => by
        cases he
        exact Expr.carries_callNamed _ _) around
    rw [Weaving.nodesAfter, List.flatMap_cons, List.flatMap_singleton, Carries.append_iff]
    exact ⟨.routineWith extend (covers.ids j (by simp)) (covers.names name (by simp)) inRest,
      inPivot⟩
  | @block loops s body out after ids names made isBlock inner ih =>
    obtain ⟨id, kind, span⟩ := s
    cases isBlock
    have parts := Statement.carries_iff.mp carries
    have inBody := ih covers (Carries.flatMap_iff.mpr
      (Block.carries_iff.mp (parts.blocks body List.mem_cons_self))) goesOn around
    exact .statement rfl rfl (Carries.block_iff.mpr inBody)
  | @branch loops s condition yes no no' out after ids more names others made further isBranch
      inYes inNo ihYes ihNo =>
    obtain ⟨id, kind, span⟩ := s
    cases isBranch
    have parts := Statement.carries_iff.mp carries
    obtain ⟨first, second⟩ := Taken.covers_add.mp covers
    have inYes := ihYes first (Carries.flatMap_iff.mpr
      (Block.carries_iff.mp (parts.blocks yes List.mem_cons_self))) goesOn around
    have inNo := ihNo second (Carries.flatMap_iff.mpr fun b hb =>
      parts.blocks b (List.mem_cons_of_mem _ hb)) goesOn around
    have test := parts.exprs condition List.mem_cons_self
    refine .statement rfl rfl ?_
    cases no' with
    | none => exact Carries.append_iff.mpr ⟨test, Carries.block_iff.mpr inYes⟩
    | some b =>
      rw [Weaving.nodesAfter, Option.toList_some, List.flatMap_singleton] at inNo
      exact Carries.append_iff.mpr
        ⟨Carries.append_iff.mpr ⟨test, Carries.block_iff.mpr inYes⟩, inNo⟩
  | @switch loops s subject arms arms' otherwise otherwise' after ids more names others made further
      isSwitch inArms inRest ihArms ihRest =>
    obtain ⟨id, kind, span⟩ := s
    cases isSwitch
    have parts := Statement.carries_iff.mp carries
    obtain ⟨first, second⟩ := Taken.covers_add.mp covers
    have before : Carries T (Arm.listNodes (fun _ => false) arms) := by
      refine .perm (Carries.append_iff.mpr ⟨?_, ?_⟩) (Arm.listNodes_perm _ arms)
      · exact Carries.flatMap_iff.mpr fun e he =>
          parts.exprs e (List.mem_append_left _ (List.mem_cons_of_mem _ he))
      · exact Carries.flatMap_iff.mpr fun b hb => parts.blocks b (List.mem_append_left _ hb)
    have inArms := ihArms first before goesOn around
    have inRest := ihRest second (Carries.flatMap_iff.mpr fun b hb =>
      parts.blocks b (List.mem_append_right _ hb)) goesOn around
    have subject := parts.exprs subject List.mem_cons_self
    refine .statement rfl rfl ?_
    cases otherwise' with
    | none => exact Carries.append_iff.mpr ⟨subject, inArms⟩
    | some b =>
      rw [Weaving.nodesAfter, Option.toList_some, List.flatMap_singleton] at inRest
      exact Carries.append_iff.mpr ⟨Carries.append_iff.mpr ⟨subject, inArms⟩, inRest⟩
  | @wait loops s body body' out after counter value i given ids names made here isWait lowered
      resumes inner ih =>
    obtain ⟨id, kind, span⟩ := s
    cases isWait
    have parts := Statement.carries_iff.mp carries
    have inBody := lowered.carries extend (fun i hi => covers.ids i (by simp [hi]))
      (parts.blocks body List.mem_cons_self)
    have value := resumes.carries extend (fun i hi => covers.ids i (by simp [hi]))
      (fun g hg => covers.made g (by simp [hg])) goesOn
    have below : k.Covers ids names made :=
      covers.less (fun _ h => by simp [h]) (fun _ h => by simp [h]) (fun _ h => by simp [h])
    have inside := ih below
      (Carries.flatMap_iff.mpr (Block.carries_iff.mp inBody))
      (fun e he => by
        cases he
        exact Expr.carries_call (List.forall_mem_cons.mpr
          ⟨Expr.carries_memberNamed _ _ _, List.forall_mem_singleton.mpr value⟩)) around
    refine .statement rfl rfl (Carries.block_iff.mpr ?_)
    rw [List.flatMap_cons, Carries.append_iff]
    refine ⟨Statement.carries_iff.mpr ?_, inside⟩
    exact {
      functions := List.forall_mem_nil _
      valued := List.forall_mem_singleton.mpr
        (extend.counter counter span (covers.names counter (by simp)))
      exprs := List.forall_mem_singleton.mpr (Expr.carries_callNamed _ _)
      headers := List.forall_mem_nil _
      blocks := List.forall_mem_nil _ }
  | @loop loops s label head body out after routines parts i₁ j₁ k₁ i₂ j₂ k₂ x y z ids more names
      made isLoop inner pieces ih =>
    obtain ⟨id, kind, span⟩ := s
    cases isLoop
    have carries := Statement.carries_iff.mp carries
    have below : k.Covers ids names made :=
      covers.less (fun _ h => by simp [h]) (fun _ h => by simp [h]) fun g hg => hg
    have next : Carries T (Expr.callNamed routines.next span).ownNodes :=
      Expr.carries_callNamed _ _
    have inside := ih below
      (Carries.flatMap_iff.mpr (Block.carries_iff.mp (carries.blocks body List.mem_cons_self)))
      (fun e he => by
        cases he
        exact next)
      (fun loop hl => by
        rcases List.mem_cons.mp hl with rfl | hl
        · exact ⟨next, goesOn⟩
        · exact around loop hl)
    obtain ⟨before, restart, after⟩ := pieces.carries (Expr.carries_callNamed _ _)
      (fun e he => carries.exprs e (List.mem_append_left _ (Option.mem_toList.mpr he)))
      carries.headers (Carries.block_iff.mpr inside) (.exiting goesOn)
    refine .statement rfl rfl (Carries.block_iff.mpr ?_)
    simp only [List.flatMap_append, List.flatMap_cons, List.flatMap_nil, List.append_nil,
      Carries.append_iff]
    exact ⟨before,
      .routineWith extend (covers.ids j₁ (by simp)) (covers.names _ (by simp)) restart,
      .routineWith extend (covers.ids j₂ (by simp)) (covers.names _ (by simp)) after,
      .callWith (Expr.carries_callNamed _ _)⟩
  | noArms => exact .nil
  | @arm loops a arms arms' out after ids more names others made further inArm rest ihArm ihRest =>
    obtain ⟨first, second⟩ := Taken.covers_add.mp covers
    obtain ⟨test, body, span⟩ := a
    rw [Weaving.nodesBefore, Arm.listNodes, Carries.append_iff, Carries.append_iff] at carries
    obtain ⟨⟨atTest, inBody⟩, others⟩ := carries
    have inArm := ihArm first
      (Carries.flatMap_iff.mpr (Block.carries_iff.mp inBody)) goesOn around
    have inRest := ihRest second others goesOn around
    exact Carries.append_iff.mpr
      ⟨Carries.append_iff.mpr ⟨atTest, Carries.block_iff.mpr inArm⟩, inRest⟩
  | @chosen loops b out after ids names made inner ih =>
    rw [Weaving.nodesBefore, Option.toList_some, List.flatMap_singleton] at carries
    rw [Weaving.nodesAfter, Option.toList_some, List.flatMap_singleton]
    exact Carries.block_iff.mpr
      (ih covers (Carries.flatMap_iff.mpr (Block.carries_iff.mp carries)) goesOn around)
  | @missing loops call i j span =>
    rw [Weaving.nodesAfter, Option.toList_some, List.flatMap_singleton, Carries.block_iff,
      List.flatMap_singleton]
    exact .callWith (goesOn call rfl)
  | absent => exact .nil

/-! ## Functions -/

theorem StatementKind.valued_undeclared (kind : StatementKind) : kind.undeclared.valued = [] := by
  cases kind with
  | declare name init => cases init <;> rfl
  | branch condition yes no => cases no <;> rfl
  | switch subject arms otherwise => cases otherwise <;> rfl
  | loop label head body => cases head <;> rfl
  | _ => rfl

/-- After hoisting no name is declared with a value. -/
theorem Block.carries_undeclared {b : Block} (carries : Carries T.unvalued b.ownNodes) :
    Carries T b.undeclared.ownNodes := by
  induction b using Block.inductOn (Q := fun s : Statement => Carries T.unvalued s.ownNodes →
      Carries T s.undeclared.ownNodes) with
  | block b ih =>
    rw [Block.undeclared_eq, Block.carries_iff]
    intro s' hs'
    obtain ⟨s, hs, rfl⟩ := List.mem_map.mp hs'
    exact ih s hs (Block.carries_iff.mp carries s hs)
  | statement s headers blocks =>
    rename_i carries
    have parts := Statement.carries_iff.mp carries
    rw [Statement.undeclared_eq, Statement.carries_iff]
    refine ⟨fun f hf => ?_, fun x hx => ?_, fun e he => ?_, fun h hh => ?_, fun b hb => ?_⟩
    · rw [StatementKind.functions_undeclared] at hf
      exact parts.functions f hf
    · rw [StatementKind.valued_undeclared] at hx
      cases hx
    · rcases List.mem_append.mp he with he | he
      · rw [StatementKind.tests_undeclared] at he
        exact Expr.carries_unvalued (parts.exprs e (List.mem_append_left _ he))
      · obtain ⟨more, trivial, operands⟩ := s.kind.operands_undeclared
        rw [operands] at he
        rcases List.mem_append.mp he with he | he
        · rcases trivial e he with ⟨name, -, rfl⟩ | ⟨span, rfl⟩ <;>
            exact Expr.carries_leaf rfl rfl rfl
        · exact Expr.carries_unvalued (parts.exprs e (List.mem_append_right _ he))
    · rw [StatementKind.headers_undeclared] at hh
      obtain ⟨x, hx, rfl⟩ := List.mem_map.mp hh
      exact headers x hx (parts.headers x hx)
    · rw [StatementKind.blocks_undeclared] at hb
      obtain ⟨x, hx, rfl⟩ := List.mem_map.mp hb
      exact blocks x hx (parts.blocks x hx)

/-- What is inside a unit, and made up around such, is inside when it is hoisted and rotated. -/
theorem Func.carries_lower {config : Config} (extend : T.Extends k config.reservedPrefix)
    {t : MarkTable} {f : Func} (carries : Carries T.unvalued f.body.ownNodes)
    {ds out : List Statement} {given rest : Multiset NodeId} {used : Multiset String}
    {made : Multiset Func} (declares : DeclaresEach f.declaredNames ds given)
    (turned : Turned config t [] (.run (ds ++ f.body.undeclared.statements) none out) rest used
      made)
    (covers : k.Covers rest used made) :
    Carries T (Block.ownNodes { f.body with statements := out }) := by
  have body := Block.carries_iff.mp (Block.carries_undeclared carries)
  have tops : ∀ d ∈ ds, Carries T d.ownNodes := by
    intro d hd
    obtain ⟨x, -, same⟩ := declares.exists_of_mem hd
    rw [same]
    exact .statement rfl rfl (.idents [x])
  refine Carries.block_iff.mpr (Turned.carries extend turned covers (Carries.flatMap_iff.mpr ?_)
    (by simp [Weaving.goesOn]) (by simp))
  exact fun s hs => (List.mem_append.mp hs).elim (tops s) (body s)

end

end WaitDefer
