import WaitDefer.Proofs.Tree.Paths

/-!
# What lies around a node

In code with distinct ids, the nodes around another one are known by its id:

* `Node.around`: the nodes of own code around the one with some id, the outermost first;
* `Node.around_child`: those around a node in a child are those in the child, and the parent;
* `Node.gather`: what the statements of own code contribute, each with what lies around it;
  `gather_perm` reads it part by part.
-/

namespace WaitDefer
namespace Node

/-- A node lies around the one with id `i`. -/
def isAround (i : NodeId) (n : Node) : Bool := n.id? != some i && n.ownIds.contains i

/-- The nodes of own code around the one with id `i`, the outermost first. -/
def around (n : Node) (i : NodeId) : List Node := n.ownNodes.filter (isAround i)

theorem isAround_eq_true {n : Node} {i : NodeId} :
    n.isAround i = true ↔ n.id? ≠ some i ∧ i ∈ n.ownIds := by
  simp [isAround]

end Node

/-! ## The walk of a child is part of the walk -/

theorem Arm.infix_listNodes {enter : Func → Bool} {arms : List Arm} {a : Arm} (h : a ∈ arms) :
    a.body.nodes enter <:+: listNodes enter arms := by
  induction arms with
  | nil => cases h
  | cons b arms ih =>
    obtain ⟨test, body, span⟩ := b
    rcases List.mem_cons.mp h with rfl | h
    · exact List.infix_append_of_infix_left (List.suffix_append _ _).isInfix
    · exact List.infix_append_of_infix_right (ih h)

theorem LoopHead.infix_nodesBefore {enter : Func → Bool} {head : LoopHead} {s : Statement}
    (h : s ∈ head.statements) : s.nodes enter <:+: head.nodesBefore enter := by
  cases head with
  | counting init test update =>
    rw [nodesBefore_counting]
    rcases List.mem_append.mp h with h | h
    · apply List.infix_append_of_infix_left
      apply List.infix_append_of_infix_left
      exact List.infix_of_mem_flatten (List.mem_map_of_mem h)
    · apply List.infix_append_of_infix_right
      exact List.infix_of_mem_flatten (List.mem_map_of_mem h)
  | whileDo _ | doWhile _ => cases h

/-- What a statement holds is walked through in one go. -/
theorem StatementKind.infix_nodes {enter : Func → Bool} (kind : StatementKind) :
    (∀ h ∈ kind.headers, h.nodes enter <:+: kind.nodes enter) ∧
      ∀ b ∈ kind.blocks, b.nodes enter <:+: kind.nodes enter := by
  cases kind with
  | block body | wait body =>
    refine ⟨List.forall_mem_nil _, fun b hb => ?_⟩
    obtain rfl := List.mem_singleton.mp hb
    exact List.infix_rfl
  | branch condition yes no =>
    refine ⟨List.forall_mem_nil _, fun b hb => ?_⟩
    rcases List.mem_cons.mp hb with rfl | hb
    · cases no with
      | none => exact (List.suffix_append _ _).isInfix
      | some no => exact List.infix_append_of_infix_left (List.suffix_append _ _).isInfix
    · obtain rfl := Option.mem_toList.mp hb
      exact (List.suffix_append _ _).isInfix
  | switch subject arms otherwise =>
    refine ⟨List.forall_mem_nil _, fun b hb => ?_⟩
    rcases List.mem_append.mp hb with hb | hb
    · obtain ⟨a, ha, rfl⟩ := List.mem_map.mp hb
      have inArms : a.body.nodes enter <:+: subject.nodes enter ++ Arm.listNodes enter arms :=
        List.infix_append_of_infix_right (Arm.infix_listNodes ha)
      cases otherwise with
      | none => exact inArms
      | some b => exact List.infix_append_of_infix_left inArms
    · obtain rfl := Option.mem_toList.mp hb
      exact (List.suffix_append _ _).isInfix
  | loop label head body =>
    constructor
    · intro s hs
      apply List.infix_append_of_infix_left
      apply List.infix_append_of_infix_left
      exact LoopHead.infix_nodesBefore hs
    · intro b hb
      obtain rfl := List.mem_singleton.mp hb
      exact List.infix_append_of_infix_left (List.suffix_append _ _).isInfix
  | _ => exact ⟨List.forall_mem_nil _, List.forall_mem_nil _⟩

namespace Node

/-- A node comes first in its walk, and what a child holds comes in one go. -/
theorem exists_ownNodes_eq {n c : Node} (h : c ∈ n.children) :
    ∃ before after, n.ownNodes = n :: (before ++ c.ownNodes ++ after) := by
  obtain ⟨rest, first, inside⟩ : ∃ rest, n.ownNodes = n :: rest ∧ c.ownNodes <:+: rest := by
    cases n with
    | block b =>
      obtain ⟨s, hs, rfl⟩ := List.mem_map.mp h
      refine ⟨_, Block.nodes_eq _ b, ?_⟩
      exact List.infix_of_mem_flatten (List.mem_map_of_mem hs)
    | statement s =>
      refine ⟨_, Statement.nodes_eq _ s, ?_⟩
      rcases List.mem_append.mp h with h | h
      · obtain ⟨x, hx, rfl⟩ := List.mem_map.mp h
        exact s.kind.infix_nodes.1 x hx
      · obtain ⟨b, hb, rfl⟩ := List.mem_map.mp h
        exact s.kind.infix_nodes.2 b hb
    | _ => cases h
  obtain ⟨before, after, same⟩ := inside
  exact ⟨before, after, by rw [first, same]⟩

/-! ## Around a node -/

theorem around_self {n : Node} {i : NodeId} (distinct : n.ownIds.Nodup) (hi : n.id? = some i) :
    n.around i = [] := by
  apply List.filter_eq_nil_iff.mpr
  intro x hx around
  obtain ⟨differ, inside⟩ := isAround_eq_true.mp around
  obtain ⟨m, hm, im⟩ := List.mem_filterMap.mp inside
  have same : m = n := eq_of_id distinct (ownNodes_trans hx hm) n.self_mem_ownNodes im hi
  subst same
  cases hj : x.id? with
  | none =>
    have single : x.ownNodes = [x] := by cases x <;> simp [id?] at hj <;> rfl
    rw [single, List.mem_singleton] at hm
    rw [← hm, im] at hj
    cases hj
  | some j =>
    rcases (mem_ownNodes hj).mp hx with rfl | ⟨c, hc, inChild⟩
    · exact differ im
    · exact id_not_below distinct im hc (mem_ownIds (ownNodes_trans inChild hm) im)

/-- Around a node in a child lie the parent and what lies around it in the child. -/
theorem around_child {n c : Node} {i : NodeId} (distinct : n.ownIds.Nodup) (hc : c ∈ n.children)
    (hi : i ∈ c.ownIds) : n.around i = n :: c.around i := by
  obtain ⟨m, hm, im⟩ := List.mem_filterMap.mp hi
  obtain ⟨before, after, walk⟩ := exists_ownNodes_eq hc
  have self : n.isAround i = true := by
    apply isAround_eq_true.mpr
    refine ⟨fun same => id_not_below distinct same hc hi, mem_ownIds (ownNodes_of_child hc hm) im⟩
  -- what is around the node and no parent of it lies in the same child
  have ids : (n.id?.toList ++ (before.filterMap id? ++ c.ownIds ++ after.filterMap id?)).Nodup := by
    have same : n.ownIds =
        n.id?.toList ++ (before.filterMap id? ++ c.ownIds ++ after.filterMap id?) := by
      rw [ownIds, walk, List.filterMap_cons]
      cases n.id? <;> simp [ownIds]
    rwa [same] at distinct
  have apart : ∀ x, x ∈ before ∨ x ∈ after → ¬ x.isAround i = true := by
    intro x hx around
    obtain ⟨-, inside⟩ := isAround_eq_true.mp around
    obtain ⟨k, hk, ik⟩ := List.mem_filterMap.mp inside
    have own : x ∈ n.ownNodes := by
      rw [walk]
      simp only [List.mem_cons, List.mem_append]
      tauto
    obtain ⟨j, hj⟩ : ∃ j, x.id? = some j := by
      cases hj : x.id? with
      | some j => exact ⟨j, rfl⟩
      | none =>
        have single : x.ownNodes = [x] := by cases x <;> simp [id?] at hj <;> rfl
        rw [single, List.mem_singleton] at hk
        rw [← hk, ik] at hj
        cases hj
    have there : j ∈ before.filterMap id? ∨ j ∈ after.filterMap id? :=
      hx.imp (fun h => List.mem_filterMap.mpr ⟨x, h, hj⟩) fun h => List.mem_filterMap.mpr ⟨x, h, hj⟩
    have notHere : j ∉ n.id?.toList ++ c.ownIds := by
      intro here
      rw [List.nodup_append, List.nodup_append, List.nodup_append] at ids
      rcases List.mem_append.mp here with here | here <;> rcases there with there | there
      · exact ids.2.2 j here j (by simp [there]) rfl
      · exact ids.2.2 j here j (by simp [there]) rfl
      · exact ids.2.1.1.2.2 j there j here rfl
      · exact ids.2.1.2.2 j (by simp [here]) j there rfl
    rcases (mem_ownNodes hj).mp own with rfl | ⟨d, hd, inside⟩
    · exact notHere (by simp [hj])
    · have same := child_unique distinct hd hc (mem_ownIds (ownNodes_trans inside hk) ik) hi
      subst same
      exact notHere (List.mem_append_right _ (mem_ownIds inside hj))
  have none : ∀ l : List Node, (∀ x ∈ l, x ∈ before ∨ x ∈ after) → l.filter (isAround i) = [] :=
    fun l hl => List.filter_eq_nil_iff.mpr fun x hx => apart x (hl x hx)
  rw [around, walk, List.filter_cons_of_pos self, List.filter_append, List.filter_append,
    none before fun x hx => .inl hx, none after fun x hx => .inr hx]
  simp [around]

/-! ## Statement by statement -/

def statement? : Node → Option Statement
  | statement s => some s
  | _ => none

/-- The statements of own code in a node. -/
def statements (n : Node) : List Statement := n.ownNodes.filterMap statement?

theorem mem_statements {n : Node} {s : Statement} :
    s ∈ n.statements ↔ .statement s ∈ n.ownNodes := by
  rw [statements, List.mem_filterMap]
  constructor
  · rintro ⟨m, hm, same⟩
    cases m with
    | statement s' => exact Option.some.inj same ▸ hm
    | _ => cases same
  · intro h
    exact ⟨_, h, rfl⟩

theorem statements_perm (n : Node) :
    n.statements.Perm (n.statement?.toList ++ n.children.flatMap statements) := by
  apply filterMap_ownNodes
  intro m hm
  cases m with
  | statement s => cases hm
  | _ => rfl

/-- What the statements of own code contribute. `F` is given what lies around a statement, the
innermost first; `outward` lies around the whole node. -/
def gather {β : Type} (F : List Node → Statement → List β) (outward : List Node) (n : Node) :
    List β :=
  n.statements.flatMap fun s => F ((n.around s.id).reverse ++ outward) s

/-- A node contributes what it contributes itself, if it is a statement, and what its children
do. -/
theorem gather_perm {β : Type} (F : List Node → Statement → List β) (outward : List Node) {n : Node}
    (distinct : n.ownIds.Nodup) : (n.gather F outward).Perm
      (n.statement?.toList.flatMap (F outward) ++
        n.children.flatMap (gather F (n :: outward))) := by
  refine (n.statements_perm.flatMap_right _).trans (.of_eq ?_)
  rw [List.flatMap_append, List.flatMap_assoc]
  congr 1
  · cases n with
    | statement s => simp [statement?, around_self (i := s.id) distinct rfl]
    | _ => rfl
  · apply List.flatMap_congr
    intro c hc
    apply List.flatMap_congr
    intro s hs
    have inside : s.id ∈ c.ownIds := mem_ownIds (mem_statements.mp hs) rfl
    simp [around_child distinct hc inside]

end Node
end WaitDefer
