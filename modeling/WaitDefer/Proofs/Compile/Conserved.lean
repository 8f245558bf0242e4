import WaitDefer.Proofs.Compile.Unit
import WaitDefer.Proofs.Rotation.Kept

/-!
# No code is lost or copied

Hoisting and rotation move statements around. Each is there once afterwards, unless it follows a
jump to a rotated loop, after which nothing is run:

* `Block.labelled_undeclared`: hoisting leaves the traits of code alone;
* `Func.Conserved`: what is there again, once;
* `Func.conserved_of_lower`: so it is, after hoisting and rotation.
-/

namespace WaitDefer

/-! ## Hoisting -/

section
variable {w : Scope}

theorem StatementKind.operands_traits_undeclared (kind : StatementKind) :
    bagOf (Expr.traits w) kind.undeclared.operands = bagOf (Expr.traits w) kind.operands := by
  obtain ⟨more, trivial, operands⟩ := kind.operands_undeclared
  have nothing : bagOf (Expr.traits w) more = 0 := by
    apply bagOf_eq_zero
    intro e he
    rcases trivial e he with ⟨name, -, rfl⟩ | ⟨span, rfl⟩
    · exact Expr.traits_ident name
    · rw [Expr.traits_eq]
      rfl
  rw [operands, bagOf_append, nothing, zero_add]

/-- An assignment in place of a declaration has the traits of the declaration. -/
theorem Block.labelled_undeclared (b : Block) : b.undeclared.labelled w = b.labelled w := by
  induction b using Block.inductOn (Q := fun s : Statement =>
      s.undeclared.plain w.config = s.plain w.config ∧ s.undeclared.labelled w = s.labelled w) with
  | block b ih =>
    rw [labelled_eq, labelled_eq, undeclared_eq, bagOf_map]
    exact bagOf_congr_mem fun s hs => (ih s hs).2
  | statement s headers blocks =>
    have plain : s.undeclared.plain w.config = s.plain w.config := by
      rw [Statement.plain_eq, Statement.plain_eq, Statement.undeclared_eq,
        StatementKind.plain_undeclared_of_parts w.config (fun h hh => (headers h hh).1)
          fun b _ => b.plain_undeclared w.config]
    have share : s.undeclared.share w = s.share w := by
      rw [Statement.share, Statement.share, Node.traits_of_plain_eq plain, Statement.undeclared_eq,
        StatementKind.tests_undeclared, StatementKind.operands_traits_undeclared,
        StatementKind.functions_undeclared]
    refine ⟨plain, ?_⟩
    rw [Statement.labelled_eq, Statement.labelled_eq, share, Statement.undeclared_eq,
      StatementKind.headers_undeclared, StatementKind.blocks_undeclared, bagOf_map, bagOf_map,
      bagOf_congr_mem fun h hh => (headers h hh).2, bagOf_congr_mem blocks]

end

/-! ## Own code -/

section
variable {config : Config} {f : Func} {m : Marking} {max : NodeId}

theorem Func.mem_lost {t : MarkTable} {i : NodeId} :
    i ∈ f.lost t ↔ ∃ d ∈ f.dropped t, i ∈ (Node.statement d).ownIds := by
  simp only [lost, dropped, Node.lost, List.mem_flatMap]
  constructor
  · rintro ⟨n, hn, d, hd, hi⟩
    exact ⟨d, ⟨n, hn, hd⟩, hi⟩
  · rintro ⟨d, ⟨n, hn, hd⟩, hi⟩
    exact ⟨n, hn, d, hd, hi⟩

theorem Func.dropped_mem_ownNodes {t : MarkTable} {d : Statement} (h : d ∈ f.dropped t) :
    .statement d ∈ f.body.ownNodes := by
  obtain ⟨n, hn, hd⟩ := List.mem_flatMap.mp h
  cases n with
  | block b =>
    refine Node.ownNodes_trans (n := .block f.body) hn (Node.child_mem_ownNodes ?_)
    refine List.mem_map_of_mem ?_
    rw [← Statement.upToJump_append_afterJump t b.statements]
    exact List.mem_append_right _ hd
  | _ => cases hd

/-- In a marked function, a marked jump leads to a rotated loop. -/
theorem Func.jumpsOut_of_marking (distinct : (Node.block f.body).ownIds.Nodup)
    (simple : f.HasSimpleHeads) (ok : f.marking config = .ok m) {s : Statement}
    (hs : .statement s ∈ f.body.ownNodes) (isJump : s.kind.isJump = true)
    (marked : m.table.hasAny s.id .split = true) : s.jumpsOut m.table = true := by
  rw [Statement.jumpsOut, isJump, Bool.true_and]
  refine ((MarkTable.hasAny_split_iff _ _).mp marked).resolve_left fun awaits => ?_
  obtain ⟨n, hn, waits⟩ := (has_await_iff distinct simple ok hs rfl).mp awaits
  -- a jump holds no other code
  obtain ⟨id, kind, span⟩ := s
  cases kind with
  | jump kind label =>
    rw [List.mem_singleton.mp hn] at waits
    cases waits
  | _ => cases isJump

/-- The code of a marked function is sieved, hoisted or not. -/
theorem Func.sieved_body (distinct : (Node.block f.body).ownIds.Nodup)
    (simple : f.HasSimpleHeads) (ok : f.marking config = .ok m) {b : Block}
    (hb : b = f.body ∨ b = f.body.undeclared) :
    SievedRun m.table (f.lost m.table) b.statements := by
  have sieved : Sieved m.table (f.lost m.table) (.block f.body) := by
    refine Node.sieved distinct (fun s hs => jumpsOut_of_marking distinct simple ok hs)
      (fun i _ => Iff.rfl) (.inl ⟨_, rfl⟩)
  have same : (Node.block b).plain config = (Node.block f.body).plain config := by
    rcases hb with rfl | rfl
    · rfl
    · rw [Node.plain, Node.plain, Block.plain_undeclared]
  exact (sieved.of_plain_eq same).run

/-- **A rotated function has the traits that its own code had**, without those of code that is
lost. -/
theorem Func.traits_rotated (fit : f.Fit max) (ok : f.marking config = .ok m)
    {step : Rotation Func} (rotates : f.IsRotation ⟨config, m.table⟩ step) {s : Supply}
    (reserved : s.names.reserved = config.reservedPrefix) (promises : s.ids.Promises (max < ·))
    (last : (step s).2.ids.exhausted = true → max < NodeId.last) :
    ∃ g s', step s = (.ok g, s') ∧
      ∀ enter : Func → Bool, (∀ h : Func, max < h.id → enter h = true) →
        g.body.traits ⟨config, m.table, max, enter⟩ =
          remaining (f.lost m.table) (f.body.labelled ⟨config, m.table, max, enter⟩) := by
  have unused := fit.unused ok
  generalize run : step s = r at last
  obtain ⟨r, s'⟩ := r
  obtain ⟨b, ds, out, entries, hb, rfl, declares, woven, -⟩ :=
    isRotation_spec fit.distinct fit.simple ok unused rotates reserved promises run last
  refine ⟨_, s', rfl, fun enter enters => ?_⟩
  have rotated := woven.keeps (w := ⟨config, m.table, max, enter⟩) unused enters
    (by simp [Weaving.goesOn]) (by simp) (sieved_body fit.distinct fit.simple ok hb)
  have declared : bagOf (Statement.traits ⟨config, m.table, max, enter⟩) ds = 0 := by
    apply bagOf_eq_zero
    intro d hd
    obtain ⟨i, name, hi, rfl⟩ := declares d hd
    rw [Statement.traits_eq, Statement.share, Statement.traits_new unused hi]
    rfl
  rw [Block.traits_eq, bagOf_append, declared, zero_add, rotated, ← Block.labelled_eq]
  rcases hb with rfl | rfl
  · rfl
  · rw [Block.labelled_undeclared]

end

/-! ## What is counted -/

/-- The id of a statement. -/
def Node.statementId? : Node → Option NodeId
  | .statement s => some s.id
  | _ => none

/-- What a statement tests if it is marked or was made up, plain. -/
def Node.asked (config : Config) (t : MarkTable) (max : NodeId) : Node → List Expr
  | .statement s =>
    if t.hasAny s.id .split || decide (max < s.id) then s.kind.tests.map (Expr.plain config)
    else []
  | _ => []

namespace Func

/-- The ids of the statements in a function, functions inside entered. -/
def statementIds (f : Func) : List NodeId := f.allNodes.filterMap Node.statementId?

/-- The ids of the statements in what follows a marked jump, functions inside entered. -/
def droppedIds (t : MarkTable) (f : Func) : List NodeId :=
  (f.dropped t).flatMap fun d => (Node.statement d).allNodes.filterMap Node.statementId?

/-- The nodes of a function's own code that are reached. -/
def reached (t : MarkTable) (f : Func) : List Node :=
  f.body.ownNodes.filter fun n => n.statementId?.all fun i => decide (i ∉ f.droppedIds t)

/-- What a function has in it is in another one that is made of it, once. -/
structure Conserved (config : Config) (t : MarkTable) (max : NodeId) (f g : Func) : Prop where
  /-- Each statement is there once, unless it follows a marked jump. -/
  once : ∀ i ∈ f.statementIds, i ∉ f.droppedIds t → g.statementIds.count i = 1
  /-- What follows a marked jump is not there. -/
  never : ∀ i ∈ f.droppedIds t, i ∉ g.statementIds
  /-- An unmarked statement says the same, with assignments for declarations and without its
  callbacks. What looks like a lowered callback counts as one, see `Expr.isCallbackMethod`. -/
  content : ∀ s, .statement s ∈ f.reached t → t.hasAny s.id .split = false →
    ∃ s', .statement s' ∈ g.unitNodes max ∧ s'.id = s.id ∧ s'.plain config = s.plain config
  /-- What marked statements test is tested once. -/
  tests : ((g.unitNodes max).flatMap (Node.asked config t max)).Perm
    ((f.reached t).flatMap (Node.asked config t max))

end Func

/-! ## Traits of nodes -/

namespace Trait

def id? : Trait → Option NodeId
  | .id i => some i
  | _ => none

def test? : Trait → Option Expr
  | .test e => some e
  | _ => none

end Trait

section
variable {w : Scope}

theorem Node.traits_list (s : Statement) : (Node.statement s).traits w =
    ↑(if w.table.hasAny s.id .split then
        .id s.id :: s.kind.tests.map fun e => Trait.test (e.plain w.config)
      else if w.max < s.id then s.kind.tests.map fun e => Trait.test (e.plain w.config)
      else [.id s.id, .content (s.plain w.config)]) := by
  simp only [traits, bagOf_single]
  split
  · rfl
  · split <;> rfl

theorem Node.tests_traits (n : Node) :
    (n.traits w).filterMap Trait.test? = ↑(n.asked w.config w.table w.max) := by
  cases n with
  | statement s =>
    have tests : (s.kind.tests.map fun e => Trait.test (e.plain w.config)).filterMap Trait.test? =
        s.kind.tests.map (Expr.plain w.config) := by
      rw [List.filterMap_map, ← List.filterMap_eq_map]
      rfl
    rw [traits_list, Multiset.filterMap_coe, asked]
    cases marked : w.table.hasAny s.id .split with
    | true => simp [List.filterMap_cons, tests, Trait.test?]
    | false => by_cases new : w.max < s.id <;> simp [List.filterMap_cons, new, tests, Trait.test?]
  | _ => rfl

theorem Node.ids_traits {j : NodeId} (old : j ≤ w.max) (n : Node) :
    ((n.traits w).filterMap Trait.id?).count j = n.statementId?.toList.count j := by
  cases n with
  | statement s =>
    have tests : (s.kind.tests.map fun e => Trait.test (e.plain w.config)).filterMap Trait.id? =
        [] := by
      rw [List.filterMap_map, List.filterMap_eq_nil_iff]
      exact fun _ _ => rfl
    rw [traits_list, Multiset.filterMap_coe, Multiset.coe_count, statementId?]
    cases marked : w.table.hasAny s.id .split with
    | true => simp [tests, Trait.id?]
    | false =>
      by_cases new : w.max < s.id
      · have : s.id ≠ j := fun same => absurd (same ▸ new) (Nat.not_lt.mpr old)
        simp [new, tests, this]
      · simp [List.filterMap_cons, new, Trait.id?]
  | _ => rfl

theorem Trait.eq_id {x : Trait} {j : NodeId} (h : x.id? = some j) : x = .id j := by
  cases x with
  | id i => exact congrArg Trait.id (Option.some.inj h)
  | _ => cases h

theorem Node.mem_traits_id {j : NodeId} (old : j ≤ w.max) {n : Node} :
    .id j ∈ n.traits w ↔ n.statementId? = some j := by
  have counts := ids_traits old n
  have inBag : .id j ∈ n.traits w ↔ j ∈ (n.traits w).filterMap Trait.id? := by
    rw [Multiset.mem_filterMap]
    exact ⟨fun h => ⟨_, h, rfl⟩, fun ⟨x, hx, h⟩ => Trait.eq_id h ▸ hx⟩
  rw [inBag, ← Multiset.count_pos, counts, List.count_pos_iff, Option.mem_toList]

theorem count_ids {j : NodeId} (old : j ≤ w.max) (ns : List Node) :
    ((bagOf (Node.traits w) ns).filterMap Trait.id?).count j =
      (ns.filterMap Node.statementId?).count j := by
  induction ns with
  | nil => rfl
  | cons n ns ih =>
    have own := n.ids_traits old
    rw [bagOf_cons, Multiset.filterMap_add, Multiset.count_add, ih, own, List.filterMap_cons]
    cases n.statementId? with
    | none => simp
    | some i => simp [List.count_cons, add_comm]

theorem tests_bag (ns : List Node) : (bagOf (Node.traits w) ns).filterMap Trait.test? =
    ↑(ns.flatMap (Node.asked w.config w.table w.max)) := by
  induction ns with
  | nil => rfl
  | cons n ns ih =>
    rw [bagOf_cons, Multiset.filterMap_add, ih, n.tests_traits, List.flatMap_cons,
      Multiset.coe_add]

theorem Node.mem_traits_content {n : Node} {s : Statement}
    (h : .content (s.plain w.config) ∈ n.traits w) :
    ∃ s', n = .statement s' ∧ s'.plain w.config = s.plain w.config := by
  cases n with
  | statement s' =>
    rw [traits_list, Multiset.mem_coe] at h
    split at h
    · simp at h
    · split at h <;> simp at h
      exact ⟨s', rfl, h.symm⟩
  | _ => cases h

theorem Block.map_labelled (b : Block) : (b.labelled w).map Prod.snd = b.traits w := by
  rw [labelled_eq, traits_eq, map_bagOf]
  exact bagOf_congr_mem fun s _ => s.map_labelled

/-- Functions that are not entered leave no traits in an expression. -/
theorem Expr.traits_of_old {e : Expr}
    (old : ∀ f, .expr (.func f) ∈ e.ownNodes → w.enter f = false) : e.traits w = 0 := by
  induction e using Expr.inductOn with
  | step e ih =>
    have operands : bagOf (Expr.traits w) e.operands = 0 :=
      bagOf_eq_zero fun o ho => ih o ho fun f hf => old f (Expr.mem_nodes_of_operand ho hf)
    have functions : bagOf (Func.traits w) e.functions = 0 := by
      apply bagOf_eq_zero
      intro f hf
      apply Func.traits_of_not_enter
      cases e <;> simp only [Expr.functions, List.not_mem_nil, List.mem_singleton] at hf
      subst hf
      exact old f List.mem_cons_self
    rw [traits_eq, operands, functions, add_zero]

theorem Statement.mem_share {s : Statement} {x : Trait}
    (h : x ∈ (Node.statement s).traits w) : x ∈ s.share w := by
  rw [share]
  exact Multiset.mem_add.mpr (.inl (Multiset.mem_add.mpr (.inl (Multiset.mem_add.mpr (.inl h)))))

/-- In code with old functions only, a statement has its own traits and no others. -/
theorem Statement.share_of_raw {s : Statement} (raw : (Node.statement s).Raw w.max)
    (leaves : ∀ f : Func, f.id ≤ w.max → w.enter f = false) :
    s.share w = (Node.statement s).traits w := by
  have parts := Node.raw_statement.mp raw
  have exprs : ∀ e ∈ s.kind.tests ++ s.kind.operands, e.traits w = 0 := fun e he =>
    Expr.traits_of_old fun f hf => leaves f (parts.exprs e he f hf)
  rw [share, bagOf_eq_zero fun e he => exprs e (List.mem_append_left _ he),
    bagOf_eq_zero fun e he => exprs e (List.mem_append_right _ he),
    bagOf_eq_zero fun f hf => Func.traits_of_not_enter (leaves f (parts.functions f hf)),
    add_zero, add_zero, add_zero]

end

/-! ## Dropped code -/

namespace Func

variable {config : Config} {f : Func} {t : MarkTable} {max : NodeId}

theorem mem_lost_of_dropped {n : Node} {d : Statement} {i : NodeId} (hd : d ∈ f.dropped t)
    (hn : n ∈ (Node.statement d).ownNodes) (hi : n.id? = some i) : i ∈ f.lost t :=
  mem_lost.mpr ⟨d, hd, Node.mem_ownIds hn hi⟩

/-- In own code with distinct ids, a node with a lost id is among what is dropped. -/
theorem exists_dropped (distinct : (Node.block f.body).ownIds.Nodup) {n : Node} {i : NodeId}
    (hn : n ∈ f.body.ownNodes) (hi : n.id? = some i) (lost : i ∈ f.lost t) :
    ∃ d ∈ f.dropped t, n ∈ (Node.statement d).ownNodes := by
  obtain ⟨d, hd, inside⟩ := mem_lost.mp lost
  obtain ⟨k, hk, same⟩ := List.mem_filterMap.mp inside
  have own : k ∈ f.body.ownNodes :=
    Node.ownNodes_trans (n := .block f.body) (dropped_mem_ownNodes hd) hk
  have := Node.eq_of_id (n := .block f.body) distinct hn own hi same
  exact ⟨d, hd, this ▸ hk⟩

/-- Traits are looked for in all functions. -/
def everywhere (config : Config) (t : MarkTable) (max : NodeId) : Scope :=
  ⟨config, t, max, fun _ => true⟩

/-- Traits are looked for in functions that are part of the unit. -/
def ofUnit (config : Config) (t : MarkTable) (max : NodeId) : Scope :=
  ⟨config, t, max, fun h => decide (max < h.id)⟩

/-- What is dropped has the traits with lost labels. -/
theorem mem_droppedIds (config : Config) (distinct : (Node.block f.body).ownIds.Nodup)
    {j : NodeId} (old : j ≤ max) :
    j ∈ f.droppedIds t ↔ ∃ p ∈ f.body.labelled (everywhere config t max),
      p.1 ∈ f.lost t ∧ p.2 = .id j := by
  have inStatement (d : Statement) : j ∈ (Node.statement d).allNodes.filterMap Node.statementId? ↔
      .id j ∈ (d.labelled (everywhere config t max)).map Prod.snd := by
    rw [Statement.map_labelled, Statement.traits, mem_bagOf, List.mem_filterMap]
    exact exists_congr fun n => and_congr_right fun _ => (Node.mem_traits_id old).symm
  simp only [droppedIds, List.mem_flatMap, inStatement, Multiset.mem_map]
  constructor
  · rintro ⟨d, hd, p, hp, same⟩
    obtain ⟨n, hn, labels⟩ := mem_bagOf.mp hp
    refine ⟨p, mem_bagOf.mpr ⟨n, ?_, labels⟩, ?_, same⟩
    · exact Node.ownNodes_trans (n := .block f.body) (dropped_mem_ownNodes hd) hn
    · exact mem_lost_of_dropped hd hn (Node.id?_of_mem_labels labels)
  · rintro ⟨p, hp, lost, same⟩
    obtain ⟨n, hn, labels⟩ := mem_bagOf.mp hp
    obtain ⟨d, hd, inside⟩ := exists_dropped distinct hn (Node.id?_of_mem_labels labels) lost
    exact ⟨d, hd, p, mem_bagOf.mpr ⟨n, inside, labels⟩, same⟩

theorem statementIds_eq (f : Func) :
    f.statementIds = (f.body.nodes fun _ => true).filterMap Node.statementId? := by
  have idents (is : List Ident) : (is.map Node.ident).filterMap Node.statementId? = [] := by
    rw [List.filterMap_map, List.filterMap_eq_nil_iff]
    exact fun _ _ => rfl
  rw [statementIds, allNodes_eq, List.filterMap_cons, List.filterMap_append,
    List.filterMap_append, idents, idents]
  rfl

theorem droppedIds_subset (t : MarkTable) : f.droppedIds t ⊆ f.statementIds := by
  intro i hi
  obtain ⟨d, hd, hi⟩ := List.mem_flatMap.mp hi
  obtain ⟨n, hn, same⟩ := List.mem_filterMap.mp hi
  have within : Whole (fun _ => true) (f.body.nodes fun _ => true) :=
    Block.whole (whole_cases _) f.body
  have inside : .statement d ∈ f.body.nodes fun _ => true :=
    (f.body.ownNodes_subperm _).subset (dropped_mem_ownNodes hd)
  rw [statementIds_eq]
  exact List.mem_filterMap.mpr ⟨n, (within _ inside).subset hn, same⟩

theorem statementIds_sublist (ns : List Node) :
    (ns.filterMap Node.statementId?).Sublist (ns.filterMap Node.id?) := by
  induction ns with
  | nil => exact .slnil
  | cons n ns ih =>
    cases n with
    | statement s => exact ih.cons_cons s.id
    | func g => exact ih.cons g.id
    | block b => exact ih.cons b.id
    | expr e => exact ih
    | ident x => exact ih

/-- A statement is either dropped or there again. -/
theorem count_remaining (config : Config) (t : MarkTable) (distinct : f.ids.Nodup) {j : NodeId}
    (hj : j ∈ f.statementIds) (old : j ≤ max) :
    ((remaining (f.lost t) (f.body.labelled (everywhere config t max))).filterMap
      Trait.id?).count j = if j ∈ f.droppedIds t then 0 else 1 := by
  have parts := congrArg (fun x => (x.filterMap Trait.id?).count j)
    (remaining_add_lost (f.lost t) (f.body.labelled (everywhere config t max)))
  have once : f.statementIds.count j = 1 :=
    List.count_eq_one_of_mem (distinct.sublist (statementIds_sublist _)) hj
  have all : ((f.body.traits (everywhere config t max)).filterMap Trait.id?).count j = 1 := by
    rw [← once, statementIds_eq]
    exact count_ids (w := everywhere config t max) old _
  simp only [Multiset.filterMap_add, Multiset.count_add, Block.map_labelled, all] at parts
  have dropped : j ∈ f.droppedIds t ↔ j ∈ (((f.body.labelled (everywhere config t max)).filter
      fun p => p.1 ∈ f.lost t).map Prod.snd).filterMap Trait.id? := by
    rw [mem_droppedIds config (nodup_ownIds distinct).1 old, Multiset.mem_filterMap]
    simp only [Multiset.mem_map, Multiset.mem_filter]
    constructor
    · rintro ⟨p, hp, lost, same⟩
      exact ⟨p.2, ⟨p, ⟨hp, lost⟩, rfl⟩, by rw [same]; rfl⟩
    · rintro ⟨_, ⟨p, ⟨hp, lost⟩, rfl⟩, same⟩
      exact ⟨p, hp, lost, Trait.eq_id same⟩
  rw [← Multiset.count_pos] at dropped
  by_cases isDropped : j ∈ f.droppedIds t
  · have := dropped.mp isDropped
    rw [if_pos isDropped]
    omega
  · have := Nat.eq_zero_of_not_pos fun pos => isDropped (dropped.mpr pos)
    rw [if_neg isDropped]
    omega

/-- In own code with distinct ids, the id of a statement is dropped exactly if it is lost. -/
theorem own_mem_droppedIds (distinct : f.ids.Nodup) {s : Statement}
    (hs : .statement s ∈ f.body.ownNodes) : s.id ∈ f.droppedIds t ↔ s.id ∈ f.lost t := by
  constructor
  · intro dropped
    by_contra kept
    have inside : .statement s ∈ f.body.nodes fun _ => true :=
      (f.body.ownNodes_subperm _).subset hs
    have known : s.id ∈ f.statementIds := by
      rw [statementIds_eq]
      exact List.mem_filterMap.mpr ⟨_, inside, rfl⟩
    have none := count_remaining default t distinct known (Nat.le_refl s.id)
    rw [if_pos dropped, Multiset.count_eq_zero, Multiset.mem_filterMap] at none
    refine none ⟨.id s.id, mem_remaining ?_ kept, rfl⟩
    refine mem_bagOf.mpr ⟨_, hs, Multiset.mem_map.mpr ⟨_, ?_, rfl⟩⟩
    exact Statement.mem_share ((Node.mem_traits_id (Nat.le_refl s.id)).mpr rfl)
  · intro lost
    obtain ⟨d, hd, inside⟩ := exists_dropped (nodup_ownIds distinct).1 hs rfl lost
    have inside : .statement s ∈ (Node.statement d).allNodes :=
      (d.ownNodes_subperm _).subset inside
    exact List.mem_flatMap.mpr ⟨d, hd, List.mem_filterMap.mpr ⟨_, inside, rfl⟩⟩

theorem mem_reached (distinct : f.ids.Nodup) {s : Statement} :
    .statement s ∈ f.reached t ↔ .statement s ∈ f.body.ownNodes ∧ s.id ∉ f.lost t := by
  rw [reached, List.mem_filter, Node.statementId?]
  refine and_congr_right fun own => ?_
  rw [← own_mem_droppedIds distinct own]
  simp

end Func

/-! ## What is there again -/

namespace Func

variable {config : Config} {f : Func} {m : Marking} {max : NodeId}

/-- What is tested in code that is reached. -/
theorem tests_remaining {t : MarkTable} (distinct : f.ids.Nodup)
    (raw : (Node.block f.body).Raw max) :
    (remaining (f.lost t) (f.body.labelled (ofUnit config t max))).filterMap Trait.test? =
      ↑((f.reached t).flatMap (Node.asked config t max)) := by
  rw [Block.labelled, remaining_bagOf, filterMap_bagOf, reached, ← bagOf_filter]
  apply bagOf_congr_mem
  intro n hn
  cases n with
  | statement s =>
    have raw : (Node.statement s).Raw max :=
      ⟨fun g hg => raw.exprs g (Node.ownNodes_trans (n := .block f.body) hn hg),
        fun x hx => raw.statements x (Node.ownNodes_trans (n := .block f.body) hn hx)⟩
    have share := Statement.share_of_raw (w := ofUnit config t max) raw (by simp [ofUnit])
    have same := own_mem_droppedIds (t := t) distinct hn
    by_cases isLost : s.id ∈ f.lost t
    · rw [Node.labels, remaining_of_lost]
      · simp [Node.statementId?, same, isLost]
      · intro p hp
        obtain ⟨y, -, rfl⟩ := Multiset.mem_map.mp hp
        exact isLost
    · rw [Node.labels, remaining_share isLost, share, Node.tests_traits,
        if_pos (by simp [Node.statementId?, same, isLost])]
      rfl
  | _ => simp [Node.labels, Node.asked, remaining_zero]

/-- Rotation loses no statement and copies none, except that what follows a marked jump is left
out. -/
theorem conserved_of_rotation (distinct : f.ids.Nodup) (simple : f.HasSimpleHeads)
    (bound : ∀ i ∈ f.ids, i ≤ max) (ok : f.marking config = .ok m) {step : Rotation Func}
    (rotates : f.IsRotation ⟨config, m.table⟩ step) {s : Supply}
    (reserved : s.names.reserved = config.reservedPrefix) (promises : s.ids.Promises (max < ·))
    (last : (step s).2.ids.exhausted = true → max < NodeId.last) :
    ∃ g s', step s = (.ok g, s') ∧ f.Conserved config m.table max g := by
  have fit := Func.fit distinct simple bound
  obtain ⟨g, s', ran, traits⟩ := traits_rotated fit ok rotates reserved promises last
  have known : ∀ i ∈ f.statementIds, i ≤ max := fun i hi =>
    bound i ((statementIds_sublist _).subset hi)
  have counts : ∀ i ∈ f.statementIds,
      g.statementIds.count i = if i ∈ f.droppedIds m.table then 0 else 1 := by
    intro i hi
    rw [← count_remaining config _ distinct hi (known i hi), everywhere,
      ← traits _ (fun _ _ => rfl), statementIds_eq]
    exact (count_ids (w := everywhere config m.table max) (known i hi) _).symm
  refine ⟨g, s', ran, ?_, ?_, ?_, ?_⟩
  · intro i hi kept
    rw [counts i hi, if_neg kept]
  · intro i hi
    have inside : i ∈ f.statementIds := droppedIds_subset _ hi
    rw [← List.count_eq_zero, counts i inside, if_pos hi]
  · intro x hx unmarked
    obtain ⟨own, kept⟩ := (mem_reached distinct).mp hx
    have old : ¬ max < x.id := Nat.not_lt.mpr (fit.old _ (Node.mem_ownIds own rfl))
    have content : Trait.content (x.plain config) ∈
        (Node.statement x).traits (ofUnit config m.table max) := by
      rw [Node.traits_list]
      simp [ofUnit, unmarked, old]
    have inside : Trait.content (x.plain config) ∈ g.body.traits (ofUnit config m.table max) := by
      rw [ofUnit, traits _ (by simp)]
      exact mem_remaining (mem_bagOf.mpr ⟨_, own, Multiset.mem_map.mpr
        ⟨_, Statement.mem_share content, rfl⟩⟩) kept
    obtain ⟨n, hn, content⟩ := mem_bagOf.mp inside
    obtain ⟨x', rfl, same⟩ := Node.mem_traits_content (w := ofUnit config m.table max) content
    have id : x'.id = x.id := by simpa using congrArg Statement.id same
    exact ⟨x', hn, id, same⟩
  · rw [← Multiset.coe_eq_coe]
    have rotated := tests_bag (w := ofUnit config m.table max) (g.unitNodes max)
    have same := traits (fun h => decide (max < h.id)) (by simp)
    rw [← tests_remaining distinct fit.raw]
    exact rotated.symm.trans (congrArg (Multiset.filterMap Trait.test?) same)

/-- **Hoisting and rotation lose no statement and copy none**, in a marked function with distinct
ids, except that what follows a marked jump is left out. What is not marked says the same as before,
and what is marked tests the same. -/
theorem conserved_of_lower (distinct : f.ids.Nodup) (simple : f.HasSimpleHeads)
    (bound : ∀ i ∈ f.ids, i ≤ max) (ok : f.marking config = .ok m) {s : Supply}
    (reserved : s.names.reserved = config.reservedPrefix) (promises : s.ids.Promises (max < ·))
    (last : (f.lower ⟨config, m.table⟩ s).2.ids.exhausted = true → max < NodeId.last) :
    ∃ g s', f.lower ⟨config, m.table⟩ s = (.ok g, s') ∧ f.Conserved config m.table max g :=
  conserved_of_rotation distinct simple bound ok (.inr rfl) reserved promises last

end Func

/-- The body is `while (c) { wait { a(defer()); } if (c) { break; a(); } let x = c; } a();`: the
call after `break` is dropped. -/
def leavingEarly : Func :=
  let name (n : String) : Ident := ⟨n, default⟩
  let call (i : NodeId) (arguments : List Expr) : Statement :=
    ⟨i, .expr (.call (.ident (name "a")) arguments default), default⟩
  let waits : Statement := ⟨4, .wait ⟨5, [call 6 [.defer [] default]], default⟩, default⟩
  let leaves : Block := ⟨8, [⟨9, .jump .leave none, default⟩, call 10 []], default⟩
  let branch : Statement := ⟨7, .branch (.ident (name "c")) leaves none, default⟩
  let x : Statement := ⟨11, .declare (name "x") (some (.ident (name "c"))), default⟩
  let loop : Statement := ⟨2, .loop none (.whileDo (.ident (name "c")))
    ⟨3, [waits, branch, x], default⟩, default⟩
  ⟨0, some (name "f"), [name "c"], ⟨1, [loop, call 12 []], default⟩, default⟩

theorem conserved_of_lower_leavingEarly : ∃ m, leavingEarly.marking {} = .ok m ∧
    ∃ g s', leavingEarly.lower ⟨{}, m.table⟩ ⟨.above 12, .new "__"⟩ = (.ok g, s') ∧
      leavingEarly.Conserved {} m.table 12 g := by
  obtain ⟨m, ok⟩ : ∃ m, leavingEarly.marking {} = .ok m :=
    Func.marking_eq_ok (by decide +kernel) (by decide +kernel)
  exact ⟨m, ok, Func.conserved_of_lower (by decide) (by decide) (by decide) ok rfl
    (IdSupply.promises_above 12) fun _ => by decide⟩

end WaitDefer
