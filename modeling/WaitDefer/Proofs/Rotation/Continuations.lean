import WaitDefer.Proofs.Rotation.Inside

/-!
# Continuations

What a counter is given goes on with what follows its wait-block. If this is more than a routine, it
is a function made for the purpose, and the call that hands it over may be copied, with its ids:

* `continuations`: such functions among some nodes;
* `Linked`: code that consists of continuations, one inside the other;
* `Turned.linked`: the continuations that rotation makes are such code;
* `Func.continuations_lower`: rotated code has no continuations but these, and those there before.
-/

namespace WaitDefer

open Rotation

/-- A function that only goes on with what follows a wait-block: it was not there before, and it has
neither a name nor parameters. -/
def Func.isContinuation (max : NodeId) (f : Func) : Bool :=
  decide (max < f.id) && f.name.isNone && f.params.isEmpty

/-- The continuation that a node is. -/
def Node.continuation? (max : NodeId) : Node → Option Func
  | .func f => if f.isContinuation max then some f else none
  | _ => none

/-- The continuations among some nodes. -/
def continuations (max : NodeId) (ns : List Node) : Multiset Func :=
  ↑(ns.filterMap (Node.continuation? max))

section
variable {max : NodeId} {ns ms : List Node} {f g : Func}

theorem mem_continuations :
    g ∈ continuations max ns ↔ .func g ∈ ns ∧ g.isContinuation max = true := by
  rw [continuations, Multiset.mem_coe, List.mem_filterMap]
  constructor
  · rintro ⟨n, hn, same⟩
    cases n with
    | func f =>
      rw [Node.continuation?] at same
      split at same
      · cases same
        exact ⟨hn, ‹_›⟩
      · cases same
    | _ => cases same
  · rintro ⟨hn, known⟩
    exact ⟨_, hn, if_pos known⟩

theorem continuations_cons (n : Node) :
    continuations max (n :: ns) = ↑(n.continuation? max).toList + continuations max ns := by
  rw [continuations, List.filterMap_cons]
  cases n.continuation? max with
  | none => exact (zero_add _).symm
  | some g => rfl

theorem continuations_append :
    continuations max (ns ++ ms) = continuations max ns + continuations max ms := by
  rw [continuations, List.filterMap_append]
  rfl

theorem continuations_flatMap {α : Type} (h : α → List Node) (as : List α) :
    continuations max (as.flatMap h) = bagOf (fun a => continuations max (h a)) as := by
  induction as with
  | nil => rfl
  | cons a as ih => rw [List.flatMap_cons, continuations_append, ih, bagOf_cons]

theorem continuations_idents (is : List Ident) : continuations max (is.map .ident) = 0 := by
  refine Multiset.eq_zero_of_forall_notMem fun g hg => ?_
  obtain ⟨i, -, same⟩ := List.mem_map.mp (mem_continuations.mp hg).1
  cases same

theorem continuations_perm (h : ns.Perm ms) : continuations max ns = continuations max ms :=
  Multiset.coe_eq_coe.mpr (h.filterMap _)

theorem continuations_le (max : NodeId) (h : ns.Subperm ms) : continuations max ns ≤ continuations max ms := by
  obtain ⟨l, perm, sub⟩ := h
  rw [← continuations_perm perm]
  exact Multiset.coe_le.mpr (sub.filterMap _).subperm

theorem Func.continuations_eq (max : NodeId) (f : Func) : continuations max f.allNodes =
    ↑((Node.func f).continuation? max).toList +
      continuations max (f.body.nodes fun _ => true) := by
  rw [allNodes_eq, continuations_cons, continuations_append, continuations_append,
    continuations_idents, continuations_idents, zero_add, zero_add]

theorem Expr.continuations_eq (e : Expr) : continuations max (e.nodes fun _ => true) =
    bagOf (fun n => continuations max n.allNodes) e.components := by
  rw [nodes_parts, continuations_cons, continuations_append, continuations_append,
    continuations_idents, continuations_flatMap, continuations_flatMap, components, bagOf_append,
    bagOf_map, bagOf_map, add_zero]
  exact zero_add _

theorem Block.continuations_eq (b : Block) : continuations max (b.nodes fun _ => true) =
    bagOf (fun s => continuations max (s.nodes fun _ => true)) b.statements := by
  rw [nodes_eq, continuations_cons, continuations_flatMap]
  exact zero_add _

theorem Statement.continuations_eq (s : Statement) : continuations max (s.nodes fun _ => true) =
    bagOf (fun n => continuations max n.allNodes) s.kind.components := by
  rw [nodes_eq, continuations_cons, continuations_perm (StatementKind.nodes_perm _ s.kind),
    bagOf_perm s.kind.components_perm]
  simp only [continuations_append, continuations_idents, continuations_flatMap, bagOf_append,
    bagOf_map, zero_add]
  exact zero_add _

/-! ## Continuations inside of each other -/

/-- All ids of some nodes are ids of continuations, each of which is there once. -/
structure Linked (max : NodeId) (ns : List Node) : Prop where
  ids : (↑(ns.filterMap Node.id?) : Multiset NodeId) = unitIdsOf (continuations max ns)
  nodup : (continuations max ns).Nodup

theorem Linked.nil : Linked max [] := ⟨rfl, Multiset.nodup_zero⟩

/-- A node with no id adds nothing. -/
theorem Linked.cons {n : Node} (h : Linked max ns) (noId : n.id? = none) : Linked max (n :: ns) := by
  have nothing : n.continuation? max = none := by
    cases n <;> first | rfl | cases noId
  constructor
  · rw [List.filterMap_cons, noId, continuations_cons, nothing]
    simpa using h.ids
  · rw [continuations_cons, nothing]
    simpa using h.nodup

theorem Expr.linked_ident (name : Ident) : Linked max ((ident name).nodes fun _ => true) := by
  rw [nodes]
  exact (Linked.nil.cons rfl).cons rfl

theorem Expr.linked_callNamed (name : Ident) (span : Span) :
    Linked max ((call (.ident name) [] span).nodes fun _ => true) := by
  have parts : (call (.ident name) [] span).nodes (fun _ => true) =
      .expr (call (.ident name) [] span) :: (ident name).nodes fun _ => true := by
    rw [nodes_parts]
    simp [operands, names, functions]
  rw [parts]
  exact (linked_ident name).cons rfl

/-- A call that hands over something is linked if that is. -/
theorem Expr.linked_wait {counter method : String} {value : Expr} {place span : Span}
    (h : Linked max (value.nodes fun _ => true)) :
    Linked max ((call (.memberNamed counter method place) [value] span).nodes fun _ => true) := by
  have parts : (call (.memberNamed counter method place) [value] span).nodes (fun _ => true) =
      .expr (call (.memberNamed counter method place) [value] span) ::
        .expr (.memberNamed counter method place) :: .expr (.ident ⟨counter, place⟩) ::
          .ident ⟨counter, place⟩ :: (value.nodes fun _ => true) := by
    simp [nodes, listNodes, memberNamed]
  rw [parts]
  exact (((h.cons rfl).cons rfl).cons rfl).cons rfl

theorem Func.isContinuation_continuation {i : NodeId} (isNew : max < i) (j k : NodeId)
    (after : Option Expr) (span : Span) :
    (continuation i j k after span).isContinuation max = true := by
  simp [isContinuation, continuation, isNew]

/-- The walk of a continuation, and then that of the call it goes on with. -/
theorem Func.allNodes_continuation (i j k : NodeId) (after : Option Expr) (span : Span) :
    (continuation i j k after span).allNodes = .func (continuation i j k after span) ::
      .block (continuation i j k after span).body :: after.toList.flatMap fun call =>
        .statement (.callWith k call) :: call.nodes fun _ => true := by
  cases after <;> rfl

/-- What goes on is not inside of itself. -/
theorem Func.not_mem_continuations {call : Expr}
    (larger : continuations max g.allNodes = {g} + continuations max (call.nodes fun _ => true)) :
    g ∉ continuations max (call.nodes fun _ => true) := by
  intro inside
  have whole : Whole (fun _ => true) (call.nodes fun _ => true) := Expr.whole (whole_cases _) call
  have le := continuations_le max (whole _ (mem_continuations.mp inside).1)
  have fewer := Multiset.card_le_card le
  rw [Node.walk, ← allNodes, larger, Multiset.card_add, Multiset.card_singleton] at fewer
  omega

/-- A continuation is linked if what it goes on with is. -/
theorem Func.linked_continuation {i : NodeId} (isNew : max < i) (j k : NodeId)
    {after : Option Expr} (span : Span)
    (goesOn : ∀ e ∈ after, Linked max (e.nodes fun _ => true)) :
    Linked max (continuation i j k after span).allNodes := by
  have known := isContinuation_continuation isNew j k after span
  have self : (Node.func (continuation i j k after span)).continuation? max =
      some (continuation i j k after span) := if_pos known
  cases after with
  | none =>
    have alone : continuations max (continuation i j k none span).allNodes =
        {continuation i j k none span} := by
      rw [allNodes_continuation, continuations_cons, self]
      rfl
    constructor
    · rw [alone, unitIdsOf_singleton, unitIds_continuation_none]
      rfl
    · rw [alone]
      exact Multiset.nodup_singleton _
  | some call =>
    obtain ⟨ids, nodup⟩ := goesOn call rfl
    have both : continuations max (continuation i j k (some call) span).allNodes =
        {continuation i j k (some call) span} +
          continuations max (call.nodes fun _ => true) := by
      rw [allNodes_continuation, Option.toList_some, List.flatMap_singleton, continuations_cons,
        continuations_cons, continuations_cons, self]
      rfl
    constructor
    · rw [both, unitIdsOf_add, unitIdsOf_singleton, unitIds_continuation_some, ← ids,
        allNodes_continuation, Option.toList_some, List.flatMap_singleton]
      rfl
    · rw [both, Multiset.singleton_add, Multiset.nodup_cons]
      exact ⟨not_mem_continuations both, nodup⟩

end

/-! ## Rotated code -/

section
variable {config : Config} {t : MarkTable} {max : NodeId}

/-- What a counter is given is linked, and so is what is made for it. -/
theorem Expr.ResumesBy.linked {span : Span} {after : Option Expr} {value : Expr}
    {made : Multiset Func} (h : value.ResumesBy span after made)
    (isNew : ∀ i ∈ unitIdsOf made, max < i)
    (goesOn : ∀ e ∈ after, Linked max (e.nodes fun _ => true)) :
    Linked max (value.nodes fun _ => true) ∧ ∀ g ∈ made, Linked max g.allNodes := by
  cases h with
  | @routine name place => exact ⟨linked_ident name, by simp⟩
  | continuation i j k =>
    have isNew : max < i := by
      refine isNew i ?_
      rw [unitIdsOf_singleton]
      exact List.mem_cons_self
    have linked := Func.linked_continuation isNew j k span goesOn
    refine ⟨?_, fun g hg => ?_⟩
    · rw [nodes]
      exact linked.cons rfl
    · obtain rfl := Multiset.mem_singleton.mp hg
      exact linked

/-- **The continuations that rotation makes hold nothing but continuations**, if what follows the code
does. -/
theorem Turned.linked {loops : LoopStack} {piece : Weaving} {ids : Multiset NodeId}
    {names : Multiset String} {made : Multiset Func}
    (h : Turned config t loops piece ids names made) (isNew : ∀ i ∈ ids, max < i)
    (goesOn : ∀ e ∈ piece.goesOn, Linked max (e.nodes fun _ => true)) :
    ∀ g ∈ made, Linked max g.allNodes := by
  have both {fs gs : Multiset Func} (first : ∀ g ∈ fs, Linked max g.allNodes)
      (second : ∀ g ∈ gs, Linked max g.allNodes) : ∀ g ∈ fs + gs, Linked max g.allNodes :=
    fun g hg => (Multiset.mem_add.mp hg).elim (first g) (second g)
  have routine (name : String) (span : Span) : ∀ e ∈ some (Expr.callNamed name span),
      Linked max (e.nodes fun _ => true) := by
    intro e he
    cases he
    exact Expr.linked_callNamed _ _
  induction h with
  | done | goOn | jump | noArms | missing | absent => exact fun g hg => by cases hg
  | keep _ _ ih | last _ _ ih | block _ _ ih | chosen _ ih => exact ih isNew goesOn
  | split marked rest pivot ihRest ihPivot =>
    exact both (ihRest (fun i hi => isNew i (by simp [hi])) goesOn)
      (ihPivot (fun i hi => isNew i (by simp [hi])) (routine _ _))
  | branch _ _ _ ihFirst ihSecond | switch _ _ _ ihFirst ihSecond | arm _ _ ihFirst ihSecond =>
    exact both (ihFirst (fun i hi => isNew i (by simp [hi])) goesOn)
      (ihSecond (fun i hi => isNew i (by simp [hi])) goesOn)
  | wait isWait lowered resumes inner ih =>
    obtain ⟨value, here⟩ := resumes.linked (fun i hi => isNew i (by simp [hi])) goesOn
    refine both here (ih (fun i hi => isNew i (by simp [hi])) fun e he => ?_)
    cases he
    exact Expr.linked_wait value
  | loop isLoop inner pieces ih => exact ih (fun i hi => isNew i (by simp [hi])) (routine _ _)

end

/-! ## Functions -/

variable {max : NodeId} {given : Multiset Func}

/-- Code has no continuations but those that the functions inside have. -/
theorem Block.continuations_subset {b : Block}
    (inside : Carries (.only fun h => continuations max h.allNodes ⊆ given) b.ownNodes) :
    continuations max (b.nodes fun _ => true) ⊆ given := by
  intro g hg
  obtain ⟨mem, known⟩ := mem_continuations.mp hg
  rcases own_or_inside mem with mem | ⟨n, hn, h, hh, mem⟩
  · exact absurd (whole (entered_cases _ g) b mem) Bool.false_ne_true
  · exact (inside n hn).functions h hh (mem_continuations.mpr ⟨mem, known⟩)

namespace Func

/-- The continuation that a function is, and those that the functions inside have. -/
theorem continuations_subset {f : Func} (own : f.isContinuation max = true → f ∈ given)
    (inside : Carries (.only fun h => continuations max h.allNodes ⊆ given) f.body.ownNodes) :
    continuations max f.allNodes ⊆ given := by
  rw [f.continuations_eq max]
  intro g hg
  rcases Multiset.mem_add.mp hg with hg | hg
  · rw [Node.continuation?] at hg
    split at hg
    · obtain rfl := Multiset.mem_singleton.mp hg
      exact own ‹_›
    · cases hg
  · exact Block.continuations_subset inside hg

theorem extends_continuations (reserved : String) :
    (Traits.only fun h => continuations max h.allNodes ⊆ given).Extends
      ⟨(max < ·), fun _ => True, (· ∈ given)⟩ reserved where
  routine i j name body span _ _ inside := by
    refine continuations_subset (fun known => ?_) (Carries.block_iff.mpr inside)
    simp [isContinuation] at known
  continuation g _ mem _ _ inside := continuations_subset (fun _ => mem) inside
  callback i j params bindings ids span _ notEmpty _ _ := by
    refine continuations_subset (fun known => ?_)
      (Carries.block_iff.mpr (Callbacks.carries_assignments bindings params ids))
    simp [isContinuation, notEmpty] at known
  counter _ _ _ := trivial

/-- **A function that is hoisted and rotated has no continuations** but those that it had before, and
those that were made for it. -/
theorem continuations_lower {config : Config} {t : MarkTable} {f : Func} {ds out : List Statement}
    {ids rest : Multiset NodeId} {names : Multiset String} {made : Multiset Func}
    (before : continuations max (f.body.nodes fun _ => true) ⊆ given) (sub : made ⊆ given)
    (declares : DeclaresEach f.declaredNames ds ids)
    (turned : Turned config t [] (.run (ds ++ f.body.undeclared.statements) none out) rest names
      made)
    (isNew : ∀ i ∈ rest, max < i) :
    continuations max (Block.nodes (fun _ => true) { f.body with statements := out }) ⊆ given := by
  have carries : Carries (.only fun h => continuations max h.allNodes ⊆ given) f.body.ownNodes := by
    refine Carries.only_iff.mpr fun n hn h hh g hg => before ?_
    obtain ⟨mem, known⟩ := mem_continuations.mp hg
    exact mem_continuations.mpr ⟨Block.mem_nodes_of_inside hn hh mem, known⟩
  exact Block.continuations_subset (carries_lower (extends_continuations config.reservedPrefix)
    carries declares turned ⟨isNew, fun _ _ => trivial, fun g hg => sub hg⟩)

end Func

end WaitDefer
