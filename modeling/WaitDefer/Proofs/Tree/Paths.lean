import WaitDefer.Proofs.Tree.Parts

/-!
# Ways down a unit

* `Node.Path n p m`: `p` lists the nodes from `n` down to `m`, both included;
* `path_of_mem`, `Path.mem`: a node holds another exactly if there is a way down to it;
* `Path.mem_of_between`, `nested_of_around`: with distinct ids, whatever lies around a node is on
  the way to it, and of two such nodes one lies in the other.
-/

namespace WaitDefer
namespace Node

/-- Induction over the blocks and statements of a unit. -/
theorem inductOn {P : Node → Prop} (step : ∀ n, (∀ c ∈ n.children, P c) → P n) (n : Node) : P n := by
  have forBlock : ∀ b, (∀ s ∈ b.statements, P (statement s)) → P (block b) := by
    intro b ih
    apply step
    intro c hc
    obtain ⟨s, hs, rfl⟩ := List.mem_map.mp hc
    exact ih s hs
  have forStatement : ∀ s : Statement, (∀ h ∈ s.kind.headers, P (statement h)) →
      (∀ b ∈ s.kind.blocks, P (block b)) → P (statement s) := by
    intro s headers blocks
    apply step
    intro c hc
    rcases List.mem_append.mp hc with hc | hc
    · obtain ⟨h, hh, rfl⟩ := List.mem_map.mp hc
      exact headers h hh
    · obtain ⟨b, hb, rfl⟩ := List.mem_map.mp hc
      exact blocks b hb
  cases n with
  | block b => exact Block.inductOn (P := fun b => P (block b)) forBlock forStatement b
  | statement s =>
    exact Statement.inductOn (P := fun b => P (block b)) (Q := fun s => P (statement s))
      forBlock forStatement s
  | _ => exact step _ (by simp [children])

theorem id?_of_child {n c : Node} (h : c ∈ n.children) : ∃ i, c.id? = some i := by
  cases n with
  | block b =>
    obtain ⟨s, -, rfl⟩ := List.mem_map.mp h
    exact ⟨_, rfl⟩
  | statement s =>
    rcases List.mem_append.mp h with h | h <;> obtain ⟨x, -, rfl⟩ := List.mem_map.mp h <;>
      exact ⟨_, rfl⟩
  | _ => simp [children] at h

theorem child_mem_ownNodes {n c : Node} (h : c ∈ n.children) : c ∈ n.ownNodes := by
  obtain ⟨i, hi⟩ := id?_of_child h
  exact (mem_ownNodes hi).mpr (.inr ⟨c, h, c.self_mem_ownNodes⟩)

theorem ownNodes_of_child {n c k : Node} (hc : c ∈ n.children) (hk : k ∈ c.ownNodes) :
    k ∈ n.ownNodes := by
  cases n with
  | block b =>
    obtain ⟨s, hs, rfl⟩ := List.mem_map.mp hc
    rw [ownNodes, Block.ownNodes, Block.nodes_eq]
    exact List.mem_cons_of_mem _ (List.mem_flatMap.mpr ⟨s, hs, hk⟩)
  | statement s =>
    rw [ownNodes, Statement.ownNodes, Statement.nodes_eq]
    apply List.mem_cons_of_mem
    rw [(StatementKind.nodes_perm _ s.kind).mem_iff]
    simp only [List.mem_append, List.mem_flatMap]
    rcases List.mem_append.mp hc with hc | hc
    · obtain ⟨h, hh, rfl⟩ := List.mem_map.mp hc
      exact .inl (.inl (.inr ⟨h, hh, hk⟩))
    · obtain ⟨b, hb, rfl⟩ := List.mem_map.mp hc
      exact .inl (.inr ⟨b, hb, hk⟩)
  | _ => simp [children] at hc

/-- What lies in a node of own code lies in the whole. -/
theorem ownNodes_trans {n m k : Node} (hm : m ∈ n.ownNodes) (hk : k ∈ m.ownNodes) :
    k ∈ n.ownNodes := by
  cases hi : m.id? with
  | none =>
    have single : m.ownNodes = [m] := by cases m <;> simp [id?] at hi <;> rfl
    rw [single, List.mem_singleton] at hk
    exact hk ▸ hm
  | some i =>
    induction n using inductOn with
    | step n ih =>
      rcases (mem_ownNodes hi).mp hm with rfl | ⟨c, hc, hmc⟩
      · exact hk
      · exact ownNodes_of_child hc (ih c hc hmc)

/-! ## Paths -/

/-- The way from a node down to one it holds, both ends included. -/
inductive Path : Node → List Node → Node → Prop
  | here (n : Node) : Path n [n] n
  | down {n c m : Node} {p : List Node} (child : c ∈ n.children) (rest : Path c p m) :
      Path n (n :: p) m

theorem path_of_mem {n m : Node} {i : NodeId} (hi : m.id? = some i) (h : m ∈ n.ownNodes) :
    ∃ p, Path n p m := by
  induction n using inductOn with
  | step n ih =>
    rcases (mem_ownNodes hi).mp h with rfl | ⟨c, hc, hm⟩
    · exact ⟨_, .here _⟩
    · obtain ⟨p, hp⟩ := ih c hc hm
      exact ⟨_, .down hc hp⟩

theorem Path.end_mem_ownNodes {n m : Node} {p : List Node} (h : Path n p m) : m ∈ n.ownNodes := by
  induction h with
  | here n => exact n.self_mem_ownNodes
  | down child _ ih => exact ownNodes_of_child child ih

theorem Path.mem {n m x : Node} {p : List Node} (h : Path n p m) (hx : x ∈ p) :
    x ∈ n.ownNodes ∧ m ∈ x.ownNodes := by
  induction h with
  | here n =>
    rw [List.mem_singleton] at hx
    subst hx
    exact ⟨x.self_mem_ownNodes, x.self_mem_ownNodes⟩
  | down child rest ih =>
    rcases List.mem_cons.mp hx with rfl | hx
    · exact ⟨x.self_mem_ownNodes, (Path.down child rest).end_mem_ownNodes⟩
    · exact ⟨ownNodes_of_child child (ih hx).1, (ih hx).2⟩

theorem Path.cons_cases {n m x : Node} {p : List Node} (h : Path n (x :: p) m) :
    x = n ∧ (p = [] ∧ m = n ∨ ∃ c ∈ n.children, Path c p m) := by
  cases h with
  | here => exact ⟨rfl, .inl ⟨rfl, rfl⟩⟩
  | down child rest => exact ⟨rfl, .inr ⟨_, child, rest⟩⟩

/-- A way down goes on from each of its nodes. -/
theorem Path.split {n m x : Node} {p q : List Node} (h : Path n (p ++ x :: q) m) :
    Path n (p ++ [x]) x ∧ Path x (x :: q) m := by
  induction p generalizing n with
  | nil =>
    obtain ⟨rfl, -⟩ := Path.cons_cases h
    exact ⟨.here _, h⟩
  | cons y p ih =>
    obtain ⟨rfl, ⟨empty, -⟩ | ⟨c, hc, rest⟩⟩ := Path.cons_cases h
    · simp at empty
    · obtain ⟨up, down⟩ := ih rest
      exact ⟨.down hc up, down⟩

/-- Two ways join where one ends and the other begins. -/
theorem Path.join {n m x : Node} {p q : List Node} (up : Path n (p ++ [x]) x)
    (down : Path x (x :: q) m) : Path n (p ++ x :: q) m := by
  induction p generalizing n with
  | nil =>
    obtain ⟨rfl, -⟩ := Path.cons_cases up
    exact down
  | cons y p ih =>
    obtain ⟨rfl, ⟨empty, -⟩ | ⟨c, hc, rest⟩⟩ := Path.cons_cases up
    · simp at empty
    · exact .down hc (ih rest)

theorem Path.exists_id {n m x : Node} {p : List Node} {i : NodeId} (path : Path n p m)
    (hn : n.id? = some i) (hx : x ∈ p) : ∃ j, x.id? = some j := by
  induction path generalizing i with
  | here n =>
    rw [List.mem_singleton] at hx
    exact ⟨i, hx ▸ hn⟩
  | down child _ ih =>
    rcases List.mem_cons.mp hx with rfl | hx
    · exact ⟨i, hn⟩
    · obtain ⟨j, hj⟩ := id?_of_child child
      exact ih hj hx

theorem Path.snoc {n m c : Node} {p : List Node} (path : Path n p m) (child : c ∈ m.children) :
    Path n (p ++ [c]) c := by
  induction path with
  | here n => exact .down child (.here c)
  | down first _ ih => exact .down first (ih child)

/-! ## Distinct ids -/

theorem eq_of_mem_flatMap_of_nodup {α β : Type} {f : α → List β} {l : List α}
    (h : (l.flatMap f).Nodup) {a b : α} {i : β} (ha : a ∈ l) (hb : b ∈ l)
    (hia : i ∈ f a) (hib : i ∈ f b) : a = b := by
  induction l with
  | nil => cases ha
  | cons x l ih =>
    rw [List.flatMap_cons, List.nodup_append] at h
    obtain ⟨-, hl, apart⟩ := h
    rcases List.mem_cons.mp ha with rfl | inA <;> rcases List.mem_cons.mp hb with rfl | inB
    · rfl
    · exact absurd rfl (apart i hia i (List.mem_flatMap.mpr ⟨b, inB, hib⟩))
    · exact absurd rfl (apart i hib i (List.mem_flatMap.mpr ⟨a, inA, hia⟩))
    · exact ih hl inA inB

theorem nodup_ownIds_of_child {n c : Node} (h : n.ownIds.Nodup) (hc : c ∈ n.children) :
    c.ownIds.Nodup := by
  have sub : (n.children.flatMap ownIds).Nodup := by
    cases n with
    | block b => rw [ownIds_block] at h; exact (List.nodup_cons.mp h).2
    | statement s => exact (List.nodup_cons.mp ((ownIds_statement s).nodup_iff.mp h)).2
    | _ => simp [children] at hc
  exact (List.nodup_flatMap.mp sub).1 c hc

theorem mem_ownIds {n m : Node} {i : NodeId} (hm : m ∈ n.ownNodes) (hi : m.id? = some i) :
    i ∈ n.ownIds :=
  List.mem_filterMap.mpr ⟨m, hm, hi⟩

theorem child_unique {n c d : Node} {i : NodeId} (h : n.ownIds.Nodup) (hc : c ∈ n.children)
    (hd : d ∈ n.children) (ic : i ∈ c.ownIds) (id : i ∈ d.ownIds) : c = d := by
  cases n with
  | block b =>
    rw [ownIds_block] at h
    exact eq_of_mem_flatMap_of_nodup (List.nodup_cons.mp h).2 hc hd ic id
  | statement s =>
    have h := (List.nodup_cons.mp ((ownIds_statement s).nodup_iff.mp h)).2
    exact eq_of_mem_flatMap_of_nodup h hc hd ic id
  | _ => simp [children] at hc

theorem id_not_below {n c : Node} {i : NodeId} (h : n.ownIds.Nodup) (hi : n.id? = some i)
    (hc : c ∈ n.children) : i ∉ c.ownIds := by
  intro mem
  cases n with
  | block b =>
    rw [ownIds_block] at h
    cases hi
    exact (List.nodup_cons.mp h).1 (List.mem_flatMap.mpr ⟨c, hc, mem⟩)
  | statement s =>
    have h := (ownIds_statement s).nodup_iff.mp h
    cases hi
    exact (List.nodup_cons.mp h).1 (List.mem_flatMap.mpr ⟨c, hc, mem⟩)
  | _ => simp [children] at hc

/-- In code with distinct ids, an id belongs to one node. -/
theorem eq_of_id {n m k : Node} {i : NodeId} (h : n.ownIds.Nodup) (hm : m ∈ n.ownNodes)
    (hk : k ∈ n.ownNodes) (im : m.id? = some i) (ik : k.id? = some i) : m = k := by
  induction n using inductOn with
  | step n ih =>
    rcases (mem_ownNodes im).mp hm with rfl | ⟨c, hc, hmc⟩
    · rcases (mem_ownNodes ik).mp hk with rfl | ⟨d, hd, hkd⟩
      · rfl
      · exact absurd (mem_ownIds hkd ik) (id_not_below h im hd)
    · rcases (mem_ownNodes ik).mp hk with rfl | ⟨d, hd, hkd⟩
      · exact absurd (mem_ownIds hmc im) (id_not_below h ik hc)
      · have same := child_unique h hc hd (mem_ownIds hmc im) (mem_ownIds hkd ik)
        subst same
        exact ih c hc (nodup_ownIds_of_child h hc) hmc hkd

/-- In code with distinct ids, whatever lies around a node is on the way to it. -/
theorem Path.mem_of_between {n m x : Node} {p : List Node} {i j : NodeId} (h : n.ownIds.Nodup)
    (hp : Path n p m) (im : m.id? = some i) (ix : x.id? = some j) (hx : x ∈ n.ownNodes)
    (hm : m ∈ x.ownNodes) : x ∈ p := by
  induction hp with
  | here n =>
    rcases (mem_ownNodes ix).mp hx with rfl | ⟨c, hc, hxc⟩
    · exact List.mem_cons_self
    · exact absurd (mem_ownIds (ownNodes_trans hxc hm) im) (id_not_below h im hc)
  | @down n c m p child rest ih =>
    rcases (mem_ownNodes ix).mp hx with rfl | ⟨d, hd, hxd⟩
    · exact List.mem_cons_self
    · have same := child_unique h child hd (mem_ownIds rest.end_mem_ownNodes im)
        (mem_ownIds (ownNodes_trans hxd hm) im)
      subst same
      exact List.mem_cons_of_mem _ (ih (nodup_ownIds_of_child h child) im hxd hm)

/-- In code with distinct ids, of two nodes around a third one lies in the other. -/
theorem nested_of_around {n m x y : Node} {i j k : NodeId} (h : n.ownIds.Nodup)
    (im : m.id? = some i) (ix : x.id? = some j) (iy : y.id? = some k) (hx : x ∈ n.ownNodes)
    (hy : y ∈ n.ownNodes) (hmx : m ∈ x.ownNodes) (hmy : m ∈ y.ownNodes) :
    x ∈ y.ownNodes ∨ y ∈ x.ownNodes := by
  obtain ⟨p, path⟩ := path_of_mem im (ownNodes_trans hx hmx)
  obtain ⟨p₁, p₂, rfl⟩ := List.append_of_mem (path.mem_of_between h im ix hx hmx)
  have memY := path.mem_of_between h im iy hy hmy
  obtain ⟨up, down⟩ := path.split
  rcases List.mem_append.mp memY with before | after
  · exact .inl (up.mem (List.mem_append_left _ before)).2
  · exact .inr (down.mem after).1

end Node
end WaitDefer
