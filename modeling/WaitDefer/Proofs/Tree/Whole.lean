import WaitDefer.Proofs.Tree.Alike

/-!
# Whole code

Code with the functions inside it, and theirs:

* `Cases`, `Func.whole`, `Block.whole`: induction over code, functions inside entered;
* `Expr.Every`, `Func.Every`, `Block.Every`, `Statement.Every`: a property of all nodes, part by
  part;
* `Module.whole`: with a node all its nodes are in the walk of a module;
* `Func.HasBody`, `Func.exists_body`: the bodies of a unit, which hold all its statements.
-/

namespace WaitDefer

/-! ## Induction -/

theorem Expr.sizeOf_function {e : Expr} {f : Func} (h : f ∈ e.functions) : sizeOf f < sizeOf e := by
  cases e with
  | func g =>
    rw [functions, List.mem_singleton] at h
    subst h
    simp
  | _ => cases h

theorem Statement.sizeOf_function {s : Statement} {f : Func} (h : f ∈ s.kind.functions) :
    sizeOf f < sizeOf s := by
  obtain ⟨id, kind, span⟩ := s
  cases kind with
  | func g =>
    rw [StatementKind.functions, List.mem_singleton] at h
    subst h
    simp; omega
  | _ => cases h

theorem Func.sizeOf_body (f : Func) : sizeOf f.body < sizeOf f := by
  cases f
  simp; omega

theorem Statement.sizeOf_expr {s : Statement} {e : Expr}
    (h : e ∈ s.kind.tests ++ s.kind.operands) : sizeOf e < sizeOf s := by
  obtain ⟨id, kind, span⟩ := s
  cases kind with
  | declare name init =>
    cases init <;> simp [StatementKind.tests, StatementKind.operands] at h
    subst h
    simp; omega
  | assign target value =>
    simp [StatementKind.tests, StatementKind.operands] at h
    rcases h with rfl | rfl <;> simp <;> omega
  | expr value =>
    simp [StatementKind.tests, StatementKind.operands] at h
    subst h
    simp; omega
  | ret value =>
    cases value <;> simp [StatementKind.tests, StatementKind.operands] at h
    subst h
    simp; omega
  | branch condition yes no =>
    simp [StatementKind.tests, StatementKind.operands] at h
    subst h
    simp; omega
  | switch subject arms otherwise =>
    simp only [StatementKind.tests, StatementKind.operands, List.append_nil, List.mem_cons,
      List.mem_map] at h
    rcases h with rfl | ⟨arm, harm, rfl⟩
    · simp; omega
    · have h₁ := List.sizeOf_lt_of_mem harm
      have h₂ : sizeOf arm.test < sizeOf arm := by cases arm; simp; omega
      simp; omega
  | loop label head body =>
    cases head with
    | counting init test update =>
      cases test <;> simp [StatementKind.tests, StatementKind.operands, LoopHead.test?] at h
      subst h
      simp; omega
    | whileDo _ | doWhile _ =>
      simp [StatementKind.tests, StatementKind.operands, LoopHead.test?] at h
      subst h
      simp; omega
  | _ => simp [StatementKind.tests, StatementKind.operands] at h

/-- The cases of an induction over code, functions inside entered. -/
structure Cases (E : Expr → Prop) (F : Func → Prop) (B : Block → Prop) (S : Statement → Prop) :
    Prop where
  expr : ∀ e, (∀ o ∈ e.operands, E o) → (∀ f ∈ e.functions, F f) → E e
  func : ∀ f, B f.body → F f
  block : ∀ b, (∀ s ∈ b.statements, S s) → B b
  statement : ∀ s, (∀ e ∈ s.kind.tests ++ s.kind.operands, E e) → (∀ h ∈ s.kind.headers, S h) →
    (∀ b ∈ s.kind.blocks, B b) → (∀ f ∈ s.kind.functions, F f) → S s

section
variable {E : Expr → Prop} {F : Func → Prop} {B : Block → Prop} {S : Statement → Prop}

mutual

theorem Expr.whole (cases : Cases E F B S) (e : Expr) : E e :=
  cases.expr e (fun o _ => Expr.whole cases o) fun f _ => Func.whole cases f
termination_by sizeOf e
decreasing_by
  · exact Expr.sizeOf_operand ‹_›
  · exact Expr.sizeOf_function ‹_›

theorem Func.whole (cases : Cases E F B S) (f : Func) : F f :=
  cases.func f (Block.whole cases f.body)
termination_by sizeOf f
decreasing_by exact f.sizeOf_body

theorem Block.whole (cases : Cases E F B S) (b : Block) : B b :=
  cases.block b fun s _ => Statement.whole cases s
termination_by sizeOf b
decreasing_by exact Block.sizeOf_statement ‹_›

theorem Statement.whole (cases : Cases E F B S) (s : Statement) : S s :=
  cases.statement s (fun e _ => Expr.whole cases e) (fun h _ => Statement.whole cases h)
    (fun b _ => Block.whole cases b) fun f _ => Func.whole cases f
termination_by sizeOf s
decreasing_by
  · exact Statement.sizeOf_expr ‹_›
  · exact Statement.sizeOf_header ‹_›
  · exact Statement.sizeOf_block ‹_›
  · exact Statement.sizeOf_function ‹_›

end

end

/-! ## Nodes of the parts -/

section
variable {enter : Func → Bool} {n : Node}

theorem Expr.mem_nodes_of_operand {e o : Expr} (ho : o ∈ e.operands) (hn : n ∈ o.nodes enter) :
    n ∈ e.nodes enter := by
  rw [nodes_parts]
  simp only [List.mem_cons, List.mem_append, List.mem_flatMap]
  exact .inr (.inl (.inl ⟨o, ho, hn⟩))

theorem Expr.mem_nodes_of_function {e : Expr} {f : Func} (hf : f ∈ e.functions)
    (hn : n ∈ f.nodes enter) : n ∈ e.nodes enter := by
  rw [nodes_parts]
  simp only [List.mem_cons, List.mem_append, List.mem_flatMap]
  exact .inr (.inr ⟨f, hf, hn⟩)

theorem Block.mem_nodes_of_statement {b : Block} {s : Statement} (hs : s ∈ b.statements)
    (hn : n ∈ s.nodes enter) : n ∈ b.nodes enter := by
  rw [nodes_eq]
  exact List.mem_cons_of_mem _ (List.mem_flatMap.mpr ⟨s, hs, hn⟩)

section
variable {s : Statement}

theorem Statement.mem_nodes_iff : n ∈ s.nodes enter ↔ n = .statement s ∨
    (∃ i ∈ s.kind.declared, .ident i = n) ∨
    (∃ e ∈ s.kind.tests ++ s.kind.operands, n ∈ e.nodes enter) ∨
    (∃ h ∈ s.kind.headers, n ∈ h.nodes enter) ∨ (∃ b ∈ s.kind.blocks, n ∈ b.nodes enter) ∨
    ∃ f ∈ s.kind.functions, n ∈ f.nodes enter := by
  rw [nodes_eq, List.mem_cons, (StatementKind.nodes_perm enter s.kind).mem_iff]
  simp only [List.mem_append, List.mem_map, List.mem_flatMap, or_assoc, or_and_right, exists_or]

theorem Statement.mem_nodes_of_expr {e : Expr} (he : e ∈ s.kind.tests ++ s.kind.operands)
    (hn : n ∈ e.nodes enter) : n ∈ s.nodes enter :=
  mem_nodes_iff.mpr (.inr (.inr (.inl ⟨e, he, hn⟩)))

theorem Statement.mem_nodes_of_header {h : Statement} (hh : h ∈ s.kind.headers)
    (hn : n ∈ h.nodes enter) : n ∈ s.nodes enter :=
  mem_nodes_iff.mpr (.inr (.inr (.inr (.inl ⟨h, hh, hn⟩))))

theorem Statement.mem_nodes_of_block {b : Block} (hb : b ∈ s.kind.blocks)
    (hn : n ∈ b.nodes enter) : n ∈ s.nodes enter :=
  mem_nodes_iff.mpr (.inr (.inr (.inr (.inr (.inl ⟨b, hb, hn⟩)))))

theorem Statement.mem_nodes_of_function {f : Func} (hf : f ∈ s.kind.functions)
    (hn : n ∈ f.nodes enter) : n ∈ s.nodes enter :=
  mem_nodes_iff.mpr (.inr (.inr (.inr (.inr (.inr ⟨f, hf, hn⟩)))))

end

end

/-! ## What holds of every node -/

section
variable (p : Node → Prop)

/-- Every node of an expression has a property, those of functions inside included. -/
def Expr.Every (e : Expr) : Prop := ∀ n ∈ e.nodes fun _ => true, p n

def Func.Every (f : Func) : Prop := ∀ n ∈ f.allNodes, p n

def Block.Every (b : Block) : Prop := ∀ n ∈ b.nodes fun _ => true, p n

def Statement.Every (s : Statement) : Prop := ∀ n ∈ s.nodes fun _ => true, p n

variable {p : Node → Prop}

theorem Expr.every_iff {e : Expr} : e.Every p ↔ p (.expr e) ∧ (∀ o ∈ e.operands, o.Every p) ∧
    (∀ i ∈ e.names, p (.ident i)) ∧ ∀ f ∈ e.functions, f.Every p := by
  rw [Every, nodes_parts]
  simp only [List.forall_mem_cons, List.forall_mem_append, List.forall_mem_flatMap,
    List.forall_mem_map, and_assoc]
  rfl

theorem Func.every_iff {f : Func} : f.Every p ↔ p (.func f) ∧ (∀ i ∈ f.name, p (.ident i)) ∧
    (∀ i ∈ f.params, p (.ident i)) ∧ f.body.Every p := by
  rw [Every, allNodes_eq]
  simp only [List.forall_mem_cons, List.forall_mem_append, List.forall_mem_map, and_assoc,
    Option.mem_toList]
  rfl

theorem Block.every_iff {b : Block} :
    b.Every p ↔ p (.block b) ∧ ∀ s ∈ b.statements, s.Every p := by
  rw [Every, nodes_eq]
  simp only [List.forall_mem_cons, List.forall_mem_flatMap]
  rfl

theorem Statement.every_iff {s : Statement} : s.Every p ↔ p (.statement s) ∧
    (∀ i ∈ s.kind.declared, p (.ident i)) ∧ (∀ e ∈ s.kind.tests, e.Every p) ∧
    (∀ e ∈ s.kind.operands, e.Every p) ∧ (∀ h ∈ s.kind.headers, h.Every p) ∧
    (∀ b ∈ s.kind.blocks, b.Every p) ∧ ∀ f ∈ s.kind.functions, f.Every p := by
  rw [Every, nodes_eq]
  simp only [List.forall_mem_cons, (StatementKind.nodes_perm _ s.kind).mem_iff,
    List.forall_mem_append, List.forall_mem_flatMap, List.forall_mem_map, and_assoc]
  rfl

end

/-! ## Parts of the whole -/

/-- The nodes of a node, functions inside entered. -/
def Node.allNodes : Node → List Node
  | .func f => f.allNodes
  | .block b => b.nodes fun _ => true
  | .statement s => s.nodes fun _ => true
  | .expr e => e.nodes fun _ => true
  | .ident name => [.ident name]

/-- The nodes of a unit: functions with an id up to `max` are units of their own. -/
def Func.unitNodes (max : NodeId) (f : Func) : List Node := f.body.nodes fun g => max < g.id

/-- The nodes of a node; `enter` says which functions inside are entered. -/
def Node.walk (enter : Func → Bool) : Node → List Node
  | .func f => f.nodes enter
  | .block b => b.nodes enter
  | .statement s => s.nodes enter
  | .expr e => e.nodes enter
  | .ident name => [.ident name]

/-- With a node all its nodes are among some. -/
def Whole (enter : Func → Bool) (ns : List Node) : Prop := ∀ n ∈ ns, (n.walk enter).Subperm ns

namespace Whole

variable {enter : Func → Bool} {l l' : List Node}

theorem flatMap {α : Type} {g : α → List Node} {l : List α} (h : ∀ a ∈ l, Whole enter (g a)) :
    Whole enter (l.flatMap g) := by
  intro n hn
  obtain ⟨a, ha, inside⟩ := List.mem_flatMap.mp hn
  obtain ⟨l₁, l₂, rfl⟩ := List.append_of_mem ha
  rw [List.flatMap_append, List.flatMap_cons]
  refine (h a ha n inside).trans (List.Sublist.subperm ?_)
  exact (List.sublist_append_left _ _).trans (List.sublist_append_right _ _)

theorem append (h : Whole enter l) (h' : Whole enter l') : Whole enter (l ++ l') := by
  intro n hn
  rcases List.mem_append.mp hn with hn | hn
  · exact (h n hn).trans (List.sublist_append_left _ _).subperm
  · exact (h' n hn).trans (List.sublist_append_right _ _).subperm

theorem idents (is : List Ident) : Whole enter (is.map .ident) := by
  intro n hn
  obtain ⟨i, -, rfl⟩ := List.mem_map.mp hn
  exact List.singleton_subperm_iff.mpr hn

theorem perm (h : Whole enter l) (p : l'.Perm l) : Whole enter l' :=
  fun n hn => (h n (p.mem_iff.mp hn)).trans p.symm.subperm

theorem cons {n : Node} (all : (n.walk enter).Perm (n :: l)) (h : Whole enter l) :
    Whole enter (n :: l) := by
  intro k hk
  rcases List.mem_cons.mp hk with rfl | hk
  · exact all.subperm
  · exact (h k hk).trans (List.sublist_cons_self _ _).subperm

end Whole

/-- With a node all its nodes are in the walk. -/
theorem whole_cases (enter : Func → Bool) : Cases (fun e => Whole enter (e.nodes enter))
    (fun f => Whole enter (f.nodes enter)) (fun b => Whole enter (b.nodes enter))
    fun s => Whole enter (s.nodes enter) where
  expr e operands functions := by
    rw [Expr.nodes_parts]
    refine .cons (.of_eq (Expr.nodes_parts _ e)) ?_
    exact .append (.append (.flatMap operands) (.idents _)) (.flatMap functions)
  func f body := by
    obtain ⟨id, name, params, b, span⟩ := f
    have walk := Func.nodes.eq_1 enter id name params b span
    split at walk
    · rw [walk]
      exact .cons (.of_eq walk) (.append (.append (.idents _) (.idents _)) body)
    · rw [walk]
      exact List.forall_mem_nil _
  block b statements := by
    rw [Block.nodes_eq]
    exact .cons (.of_eq (Block.nodes_eq _ b)) (.flatMap statements)
  statement s exprs headers blocks functions := by
    rw [Statement.nodes_eq]
    refine .cons (.of_eq (Statement.nodes_eq _ s)) ?_
    refine Whole.perm ?_ (StatementKind.nodes_perm _ s.kind)
    refine .append (.append (.append (.append (.append (.idents _) ?_) ?_) ?_) ?_) ?_
    · exact .flatMap fun e he => exprs e (List.mem_append_left _ he)
    · exact .flatMap fun e he => exprs e (List.mem_append_right _ he)
    · exact .flatMap headers
    · exact .flatMap blocks
    · exact .flatMap functions

theorem Func.whole_allNodes (f : Func) : Whole (fun _ => true) f.allNodes :=
  Func.whole (whole_cases _) f

theorem Module.whole (m : Module) : Whole (fun _ => true) m.allNodes :=
  .flatMap fun f _ => f.whole_allNodes

/-- With a made-up function its body is part of the unit. -/
theorem Func.mem_unitNodes_of_body {max : NodeId} {f g : Func} (hg : .func g ∈ f.unitNodes max)
    (new : max < g.id) {n : Node} (hn : n ∈ g.unitNodes max) : n ∈ f.unitNodes max := by
  have within : Whole (fun g : Func => decide (max < g.id)) (f.unitNodes max) :=
    Block.whole (whole_cases _) f.body
  apply (within _ hg).subset
  obtain ⟨id, name, params, body, span⟩ := g
  rw [Node.walk, Func.nodes, if_pos (by simpa using new)]
  exact List.mem_cons_of_mem _ (List.mem_append_right _ hn)

/-- What is walked where only some functions are entered is walked where all are. -/
theorem walked_cases (enter : Func → Bool) : Cases
    (fun e => e.nodes enter ⊆ e.nodes fun _ => true) (fun f => f.nodes enter ⊆ f.allNodes)
    (fun b => b.nodes enter ⊆ b.nodes fun _ => true)
    fun s => s.nodes enter ⊆ s.nodes fun _ => true where
  expr e operands functions n hn := by
    rw [Expr.nodes_parts, List.mem_cons, List.mem_append, List.mem_append, List.mem_flatMap,
      List.mem_flatMap] at hn
    rcases hn with rfl | (⟨o, ho, hn⟩ | hn) | ⟨f, hf, hn⟩
    · rw [Expr.nodes_parts]
      exact List.mem_cons_self
    · exact Expr.mem_nodes_of_operand ho (operands o ho hn)
    · rw [Expr.nodes_parts]
      exact List.mem_cons_of_mem _ (List.mem_append_left _ (List.mem_append_right _ hn))
    · exact Expr.mem_nodes_of_function hf (functions f hf hn)
  func f body n hn := by
    obtain ⟨id, name, params, b, span⟩ := f
    rw [Func.nodes] at hn
    rw [Func.allNodes_eq]
    split at hn
    · rcases List.mem_cons.mp hn with rfl | hn
      · exact List.mem_cons_self
      · apply List.mem_cons_of_mem
        rcases List.mem_append.mp hn with hn | hn
        · exact List.mem_append_left _ hn
        · exact List.mem_append_right _ (body hn)
    · cases hn
  block b statements n hn := by
    rw [Block.nodes_eq, List.mem_cons, List.mem_flatMap] at hn
    rcases hn with rfl | ⟨s, hs, hn⟩
    · rw [Block.nodes_eq]
      exact List.mem_cons_self
    · exact Block.mem_nodes_of_statement hs (statements s hs hn)
  statement s exprs headers blocks functions n hn := by
    apply Statement.mem_nodes_iff.mpr
    rcases Statement.mem_nodes_iff.mp hn with same | name | ⟨e, he, hn⟩ | ⟨h, hh, hn⟩ |
      ⟨b, hb, hn⟩ | ⟨f, hf, hn⟩
    · exact .inl same
    · exact .inr (.inl name)
    · exact .inr (.inr (.inl ⟨e, he, exprs e he hn⟩))
    · exact .inr (.inr (.inr (.inl ⟨h, hh, headers h hh hn⟩)))
    · exact .inr (.inr (.inr (.inr (.inl ⟨b, hb, blocks b hb hn⟩))))
    · exact .inr (.inr (.inr (.inr (.inr ⟨f, hf, functions f hf hn⟩))))

/-- A function is in a walk if it is entered. -/
theorem entered_cases (enter : Func → Bool) (g : Func) : Cases
    (fun e => .func g ∈ e.nodes enter → enter g = true)
    (fun f => .func g ∈ f.nodes enter → enter g = true)
    (fun b => .func g ∈ b.nodes enter → enter g = true)
    fun s => .func g ∈ s.nodes enter → enter g = true where
  expr e operands functions hg := by
    rw [Expr.nodes_parts] at hg
    simp only [List.mem_cons, List.mem_append, List.mem_flatMap, List.mem_map, reduceCtorEq,
      and_false, exists_false, false_or, or_false] at hg
    rcases hg with ⟨o, ho, hg⟩ | ⟨f, hf, hg⟩
    · exact operands o ho hg
    · exact functions f hf hg
  func f body hg := by
    obtain ⟨id, name, params, b, span⟩ := f
    rw [Func.nodes] at hg
    split at hg
    · rename_i entered
      simp only [List.mem_cons, List.mem_append, List.mem_map, reduceCtorEq, and_false,
        exists_false, false_or, Node.func.injEq] at hg
      rcases hg with rfl | hg
      · exact entered
      · exact body hg
    · cases hg
  block b statements hg := by
    rw [Block.nodes_eq, List.mem_cons, List.mem_flatMap] at hg
    rcases hg with hg | ⟨s, hs, hg⟩
    · cases hg
    · exact statements s hs hg
  statement s exprs headers blocks functions hg := by
    rcases Statement.mem_nodes_iff.mp hg with hg | ⟨i, -, hg⟩ | ⟨e, he, hg⟩ | ⟨h, hh, hg⟩ |
      ⟨b, hb, hg⟩ | ⟨f, hf, hg⟩
    · cases hg
    · cases hg
    · exact exprs e he hg
    · exact headers h hh hg
    · exact blocks b hb hg
    · exact functions f hf hg

theorem Func.unitNodes_subset (max : NodeId) (f : Func) : f.unitNodes max ⊆ f.allNodes := by
  intro n hn
  rw [allNodes_eq]
  exact List.mem_cons_of_mem _ (List.mem_append_right _ (Block.whole (walked_cases _) f.body hn))

/-! ## Bodies -/

/-- A body of a unit: its own, or that of a function made up inside it. -/
def Func.HasBody (max : NodeId) (f : Func) (b : Block) : Prop :=
  b = f.body ∨ ∃ g, .func g ∈ f.unitNodes max ∧ max < g.id ∧ b = g.body

/-- The functions in the walk of a unit are those made up inside it. -/
theorem Func.hasBody_of_mem {max : NodeId} {f g : Func} (hg : .func g ∈ f.unitNodes max) :
    f.HasBody max g.body := by
  have entered := Block.whole (entered_cases (fun h => decide (max < h.id)) g) f.body hg
  exact .inr ⟨g, hg, of_decide_eq_true entered, rfl⟩

/-- What a body of a unit holds is part of the unit. -/
theorem Func.HasBody.mem_unitNodes {max : NodeId} {f : Func} {b : Block} (h : f.HasBody max b)
    {n : Node} (hn : n ∈ b.ownNodes) : n ∈ f.unitNodes max := by
  have walked := (b.ownNodes_subperm fun g : Func => decide (max < g.id)).subset hn
  rcases h with rfl | ⟨g, hg, new, rfl⟩
  · exact walked
  · exact mem_unitNodes_of_body hg new walked

section
variable {enter : Func → Bool} {x : Statement}

/-- A statement in the body of a function that is walked. -/
def InFunction (enter : Func → Bool) (ns : List Node) (x : Statement) : Prop :=
  ∃ g, .func g ∈ ns ∧ enter g = true ∧ .statement x ∈ g.body.ownNodes

theorem InFunction.mono {ns ns' : List Node} (h : InFunction enter ns x) (sub : ns ⊆ ns') :
    InFunction enter ns' x := by
  obtain ⟨g, hg, entered, hx⟩ := h
  exact ⟨g, sub hg, entered, hx⟩

/-- A statement that is walked belongs to the code itself, or to the body of a function inside. -/
theorem inFunction_cases (enter : Func → Bool) (x : Statement) :
    Cases (fun e => .statement x ∈ e.nodes enter → InFunction enter (e.nodes enter) x)
      (fun f => .statement x ∈ f.nodes enter → InFunction enter (f.nodes enter) x)
      (fun b => .statement x ∈ b.nodes enter →
        .statement x ∈ b.ownNodes ∨ InFunction enter (b.nodes enter) x)
      fun s => .statement x ∈ s.nodes enter →
        .statement x ∈ s.ownNodes ∨ InFunction enter (s.nodes enter) x where
  expr e operands functions hx := by
    rw [Expr.nodes_parts] at hx
    simp only [List.mem_cons, List.mem_append, List.mem_flatMap, List.mem_map, reduceCtorEq,
      and_false, exists_false, false_or, or_false] at hx
    rcases hx with ⟨o, ho, hx⟩ | ⟨f, hf, hx⟩
    · exact (operands o ho hx).mono fun n hn => Expr.mem_nodes_of_operand ho hn
    · exact (functions f hf hx).mono fun n hn => Expr.mem_nodes_of_function hf hn
  func f body hx := by
    obtain ⟨id, name, params, b, span⟩ := f
    have walk := Func.nodes.eq_1 enter id name params b span
    split at walk
    · rename_i entered
      rw [walk] at hx ⊢
      simp only [List.mem_cons, List.mem_append, List.mem_map, reduceCtorEq, and_false,
        exists_false, false_or] at hx
      rcases body hx with own | inside
      · exact ⟨_, List.mem_cons_self, entered, own⟩
      · exact inside.mono fun n hn => List.mem_cons_of_mem _ (List.mem_append_right _ hn)
    · rw [walk] at hx
      cases hx
  block b statements hx := by
    rw [Block.nodes_eq, List.mem_cons, List.mem_flatMap] at hx
    rcases hx with hx | ⟨s, hs, hx⟩
    · cases hx
    · rcases statements s hs hx with own | inside
      · left
        have child : Node.statement s ∈ (Node.block b).children := List.mem_map_of_mem hs
        exact Node.ownNodes_of_child child own
      · exact .inr (inside.mono fun n hn => Block.mem_nodes_of_statement hs hn)
  statement s exprs headers blocks functions hx := by
    rcases Statement.mem_nodes_iff.mp hx with same | ⟨i, -, hi⟩ | ⟨e, he, hx⟩ | ⟨h, hh, hx⟩ |
      ⟨b, hb, hx⟩ | ⟨f, hf, hx⟩
    · cases same
      exact .inl (Node.self_mem_ownNodes (.statement x))
    · cases hi
    · exact .inr ((exprs e he hx).mono fun n hn => Statement.mem_nodes_of_expr he hn)
    · have child : .statement h ∈ (Node.statement s).children :=
        List.mem_append_left _ (List.mem_map_of_mem hh)
      rcases headers h hh hx with own | inside
      · exact .inl (Node.ownNodes_of_child child own)
      · exact .inr (inside.mono fun n hn => Statement.mem_nodes_of_header hh hn)
    · have child : .block b ∈ (Node.statement s).children :=
        List.mem_append_right _ (List.mem_map_of_mem hb)
      rcases blocks b hb hx with own | inside
      · exact .inl (Node.ownNodes_of_child child own)
      · exact .inr (inside.mono fun n hn => Statement.mem_nodes_of_block hb hn)
    · exact .inr ((functions f hf hx).mono fun n hn => Statement.mem_nodes_of_function hf hn)

end

/-- Every statement of a unit is in one of its bodies. -/
theorem Func.exists_body {max : NodeId} {f : Func} {x : Statement}
    (hx : .statement x ∈ f.unitNodes max) :
    ∃ b, f.HasBody max b ∧ .statement x ∈ b.ownNodes := by
  rcases Block.whole (inFunction_cases _ x) f.body hx with own | ⟨g, hg, entered, own⟩
  · exact ⟨_, .inl rfl, own⟩
  · exact ⟨_, .inr ⟨g, hg, by simpa using entered, rfl⟩, own⟩

end WaitDefer
