import Mathlib.Data.List.Nodup
import Mathlib.Data.List.Perm.Subperm
import WaitDefer.Tree.Printer
import WaitDefer.Tree.Walk

/-!
# The parts of a unit

A unit is the code of one function; functions inside it are units of their own. This module says
once, for every form of statement, which blocks, statements and expressions it holds:

* `Block.inductOn`, `Expr.inductOn`: induction over code, functions inside not entered;
* `StatementKind.nodes_perm`: the walk of a statement, part by part;
* `Block.ownNodes_subperm`: the own code of a block is part of all its code.
-/

namespace WaitDefer

/-! ## Direct parts -/

namespace LoopHead

/-- The statements of a counting loop's head. -/
def statements : LoopHead → List Statement
  | counting init _ update => init.toList ++ update.toList
  | whileDo _ | doWhile _ => []

/-- The test of a loop. -/
def test? : LoopHead → Option Expr
  | whileDo condition | doWhile condition => some condition
  | counting _ test _ => test

end LoopHead

namespace StatementKind

/-- The blocks right inside a statement. -/
def blocks : StatementKind → List Block
  | block body | wait body | loop _ _ body => [body]
  | branch _ yes no => yes :: no.toList
  | switch _ arms otherwise => arms.map Arm.body ++ otherwise.toList
  | _ => []

/-- The statements right inside a statement: those of a loop's head. -/
def headers : StatementKind → List Statement
  | loop _ head _ => head.statements
  | _ => []

/-- The expressions that decide where a statement goes on: conditions, tests, and what a switch
compares. -/
def tests : StatementKind → List Expr
  | branch condition _ _ => [condition]
  | switch subject arms _ => subject :: arms.map Arm.test
  | loop _ head _ => head.test?.toList
  | _ => []

/-- The expressions of a statement that holds no other code. -/
def operands : StatementKind → List Expr
  | declare _ init => init.toList
  | assign target value => [target, value]
  | expr value => [value]
  | ret value => value.toList
  | _ => []

/-- The name a declaration introduces. -/
def declared : StatementKind → List Ident
  | declare name _ => [name]
  | _ => []

/-- The function a statement declares. -/
def functions : StatementKind → List Func
  | func f => [f]
  | _ => []

/-- The name of the function a statement declares. -/
def titled : StatementKind → List Ident
  | func f => f.name.toList
  | _ => []

/-- The name that a statement brings in. -/
def introduced (kind : StatementKind) : List Ident := kind.declared ++ kind.titled

def isWait : StatementKind → Bool
  | wait _ => true
  | _ => false

def isLoop : StatementKind → Bool
  | loop .. => true
  | _ => false

/-- A statement that only picks a block to run. -/
def isNest : StatementKind → Bool
  | block _ | branch .. | switch .. => true
  | _ => false

end StatementKind

namespace Expr

/-- The expressions right inside an expression; a function is not looked into. -/
def operands : Expr → List Expr
  | unary _ operand _ => [operand]
  | binary _ left right _ => [left, right]
  | call callee arguments _ => callee :: arguments
  | member object _ _ => [object]
  | _ => []

end Expr

/-! ## Induction -/

theorem Expr.sizeOf_operand {e o : Expr} (h : o ∈ e.operands) : sizeOf o < sizeOf e := by
  cases e with
  | call callee arguments span =>
    simp only [operands, List.mem_cons] at h
    rcases h with rfl | h
    · simp; omega
    · have := List.sizeOf_lt_of_mem h
      simp; omega
  | binary op left right span =>
    simp only [operands, List.mem_cons, List.not_mem_nil, or_false] at h
    rcases h with rfl | rfl <;> simp <;> omega
  | unary op operand span =>
    simp only [operands, List.mem_singleton] at h
    subst h
    simp; omega
  | member object property span =>
    simp only [operands, List.mem_singleton] at h
    subst h
    simp; omega
  | _ => simp [operands] at h

/-- Induction over an expression; a function is not looked into. -/
theorem Expr.inductOn {P : Expr → Prop} (step : ∀ e, (∀ o ∈ e.operands, P o) → P e) (e : Expr) :
    P e :=
  step e fun o _ => Expr.inductOn step o
termination_by sizeOf e
decreasing_by exact Expr.sizeOf_operand ‹_›

theorem Block.sizeOf_statement {b : Block} {s : Statement} (h : s ∈ b.statements) :
    sizeOf s < sizeOf b := by
  cases b with | mk id statements span =>
    have := List.sizeOf_lt_of_mem h
    simp only [mk.sizeOf_spec] at this ⊢
    omega

theorem Statement.sizeOf_header {s h : Statement} (mem : h ∈ s.kind.headers) :
    sizeOf h < sizeOf s := by
  obtain ⟨id, kind, span⟩ := s
  cases kind with
  | loop label head body =>
    cases head with
    | counting init test update =>
      simp only [StatementKind.headers, LoopHead.statements, List.mem_append,
        Option.mem_toList] at mem
      rcases mem with rfl | rfl <;> simp <;> omega
    | whileDo _ => simp [StatementKind.headers, LoopHead.statements] at mem
    | doWhile _ => simp [StatementKind.headers, LoopHead.statements] at mem
  | _ => simp [StatementKind.headers] at mem

theorem Statement.sizeOf_block {s : Statement} {b : Block} (mem : b ∈ s.kind.blocks) :
    sizeOf b < sizeOf s := by
  obtain ⟨id, kind, span⟩ := s
  cases kind with
  | block body | wait body | loop _ _ body =>
    simp only [StatementKind.blocks, List.mem_singleton] at mem
    subst mem
    simp; omega
  | branch condition yes no =>
    simp only [StatementKind.blocks, List.mem_cons, Option.mem_toList] at mem
    rcases mem with rfl | rfl <;> simp <;> omega
  | switch subject arms otherwise =>
    simp only [StatementKind.blocks, List.mem_append, List.mem_map, Option.mem_toList] at mem
    rcases mem with ⟨arm, harm, rfl⟩ | rfl
    · have h₁ := List.sizeOf_lt_of_mem harm
      have h₂ : sizeOf arm.body < sizeOf arm := by cases arm; simp; omega
      simp; omega
    · simp; omega
  | _ => simp [StatementKind.blocks] at mem

mutual

/-- Induction over a block, functions inside not entered. -/
theorem Block.inductOn {P : Block → Prop} {Q : Statement → Prop}
    (block : ∀ b, (∀ s ∈ b.statements, Q s) → P b)
    (statement : ∀ s, (∀ h ∈ s.kind.headers, Q h) → (∀ b ∈ s.kind.blocks, P b) → Q s)
    (b : Block) : P b :=
  block b fun s _ => Statement.inductOn block statement s
termination_by sizeOf b
decreasing_by exact Block.sizeOf_statement ‹_›

/-- Induction over a statement, functions inside not entered. -/
theorem Statement.inductOn {P : Block → Prop} {Q : Statement → Prop}
    (block : ∀ b, (∀ s ∈ b.statements, Q s) → P b)
    (statement : ∀ s, (∀ h ∈ s.kind.headers, Q h) → (∀ b ∈ s.kind.blocks, P b) → Q s)
    (s : Statement) : Q s :=
  statement s (fun h _ => Statement.inductOn block statement h)
    fun b _ => Block.inductOn block statement b
termination_by sizeOf s
decreasing_by
  · exact Statement.sizeOf_header ‹_›
  · exact Statement.sizeOf_block ‹_›

end

/-! ## The walk, part by part -/

section
variable (enter : Func → Bool)

theorem Statement.listNodes_eq (ss : List Statement) :
    Statement.listNodes enter ss = ss.flatMap (Statement.nodes enter) := by
  induction ss with
  | nil => rfl
  | cons s ss ih => simp [Statement.listNodes, ih]

theorem Expr.listNodes_eq (es : List Expr) :
    Expr.listNodes enter es = es.flatMap (Expr.nodes enter) := by
  induction es with
  | nil => rfl
  | cons e es ih => simp [Expr.listNodes, ih]

theorem Arm.listNodes_perm (arms : List Arm) :
    (Arm.listNodes enter arms).Perm ((arms.map Arm.test).flatMap (Expr.nodes enter) ++
      (arms.map Arm.body).flatMap (Block.nodes enter)) := by
  induction arms with
  | nil => exact .refl _
  | cons arm arms ih =>
    obtain ⟨test, body, span⟩ := arm
    simp only [Arm.listNodes, List.map_cons, List.flatMap_cons, List.append_assoc]
    exact .append_left _ ((ih.append_left _).trans (List.perm_append_comm_assoc _ _ _))

theorem Block.nodes_eq (b : Block) :
    b.nodes enter = .block b :: b.statements.flatMap (Statement.nodes enter) := by
  obtain ⟨id, statements, span⟩ := b
  simp [Block.nodes, Statement.listNodes_eq]

theorem Statement.nodes_eq (s : Statement) :
    s.nodes enter = .statement s :: s.kind.nodes enter := by
  obtain ⟨id, kind, span⟩ := s
  simp [Statement.nodes]

theorem Expr.nodes_eq (e : Expr) :
    e.nodes enter = .expr e ::
      (e.operands.flatMap (Expr.nodes enter) ++
        match e with
        | .ident name => [.ident name]
        | .func f => f.nodes enter
        | .defer bindings _ => bindings.map .ident
        | _ => []) := by
  cases e <;> simp [Expr.nodes, Expr.operands, Expr.listNodes_eq]

theorem LoopHead.nodesBefore_counting (init : Option Statement) (test : Option Expr)
    (update : Option Statement) :
    (counting init test update).nodesBefore enter =
      init.toList.flatMap (Statement.nodes enter) ++ test.toList.flatMap (Expr.nodes enter) ++
        update.toList.flatMap (Statement.nodes enter) := by
  cases init <;> cases test <;> cases update <;> simp [nodesBefore]

/-- The walk of what a statement holds, sorted by kind of part. -/
theorem StatementKind.nodes_perm (kind : StatementKind) :
    (kind.nodes enter).Perm (kind.declared.map .ident ++
      kind.tests.flatMap (Expr.nodes enter) ++ kind.operands.flatMap (Expr.nodes enter) ++
      kind.headers.flatMap (Statement.nodes enter) ++ kind.blocks.flatMap (Block.nodes enter) ++
      kind.functions.flatMap (Func.nodes enter)) := by
  cases kind with
  | declare name init => cases init <;> simp [nodes, declared, tests, operands, headers, blocks,
      functions]
  | ret value => cases value <;> simp [nodes, declared, tests, operands, headers, blocks, functions]
  | branch condition yes no => cases no <;> simp [nodes, declared, tests, operands, headers, blocks,
      functions]
  | switch subject arms otherwise =>
    have h := (Arm.listNodes_perm enter arms).append_left (subject.nodes enter)
    cases otherwise with
    | none => simpa [nodes, declared, tests, operands, headers, blocks, functions] using h
    | some b =>
      simpa [nodes, declared, tests, operands, headers, blocks, functions] using
        h.append_right (b.nodes enter)
  | loop label head body =>
    cases head with
    | whileDo condition => simp [nodes, declared, tests, operands, headers, blocks, functions,
        LoopHead.nodesBefore, LoopHead.nodesAfter, LoopHead.statements, LoopHead.test?]
    | doWhile condition =>
      simpa [nodes, declared, tests, operands, headers, blocks, functions, LoopHead.nodesBefore,
        LoopHead.nodesAfter, LoopHead.statements, LoopHead.test?] using List.perm_append_comm
    | counting init test update =>
      -- the test stands between the two statements of the head
      cases init <;> cases test <;> cases update <;>
        simp [nodes, declared, tests, operands, headers, blocks, functions, LoopHead.nodesBefore,
          LoopHead.nodesAfter, LoopHead.statements, LoopHead.test?]
      · exact List.perm_append_comm_assoc _ _ _
      · exact List.perm_append_comm_assoc _ _ _
  | _ => simp [nodes, declared, tests, operands, headers, blocks, functions]

end

/-! ## Own code -/

/-- A function that is not entered has no nodes. -/
theorem Func.nodes_of_old {max : NodeId} {f : Func} (old : f.id ≤ max) :
    (f.nodes fun g => max < g.id) = [] := by
  obtain ⟨id, name, params, body, span⟩ := f
  simp only [Func.nodes]
  rw [if_neg]
  simpa using old

/-- The nodes of a statement's own code: functions inside are left out. -/
def Statement.ownNodes (s : Statement) : List Node := s.nodes fun _ => false

namespace Node

/-- The nodes of own code in a node, itself first. -/
def ownNodes : Node → List Node
  | block b => b.ownNodes
  | statement s => s.ownNodes
  | n => [n]

/-- The blocks and statements right inside a node. -/
def children : Node → List Node
  | block b => b.statements.map statement
  | statement s => s.kind.headers.map statement ++ s.kind.blocks.map block
  | _ => []

/-- The ids of own code in a node, its own first. -/
def ownIds (n : Node) : List NodeId := n.ownNodes.filterMap id?

end Node

theorem Expr.id?_of_mem_ownNodes (e : Expr) : ∀ n ∈ e.ownNodes, n.id? = none := by
  induction e using Expr.inductOn with
  | step e ih =>
    intro n h
    rw [Expr.ownNodes, Expr.nodes_eq] at h
    simp only [List.mem_cons, List.mem_append, List.mem_flatMap] at h
    rcases h with rfl | ⟨o, ho, hn⟩ | h
    · rfl
    · exact ih o ho n hn
    · cases e with
      | ident name =>
        simp only [List.mem_singleton] at h
        subst h; rfl
      | func f => obtain ⟨_, _, _, _, _⟩ := f; simp [Func.nodes] at h
      | defer bindings span =>
        simp only [List.mem_map] at h
        obtain ⟨i, -, rfl⟩ := h; rfl
      | _ => simp at h

namespace Node

theorem filterMap_id?_ident (is : List Ident) : (is.map ident).filterMap id? = [] := by
  rw [List.filterMap_eq_nil_iff]
  intro n hn
  obtain ⟨i, -, rfl⟩ := List.mem_map.mp hn
  rfl

theorem filterMap_exprs {β : Type} {g : Node → Option β} (bare : ∀ n, n.id? = none → g n = none)
    (es : List Expr) : (es.flatMap (Expr.nodes fun _ => false)).filterMap g = [] := by
  rw [List.filterMap_eq_nil_iff]
  intro n h
  obtain ⟨e, -, hn⟩ := List.mem_flatMap.mp h
  exact bare n (e.id?_of_mem_ownNodes n hn)

/-- What is picked from the blocks and statements of own code comes from the node itself and from
its children. -/
theorem filterMap_ownNodes {β : Type} {g : Node → Option β} (bare : ∀ n, n.id? = none → g n = none)
    (n : Node) : (n.ownNodes.filterMap g).Perm
      ((g n).toList ++ n.children.flatMap fun c => c.ownNodes.filterMap g) := by
  have first : ∀ rest, (n :: rest).filterMap g = (g n).toList ++ rest.filterMap g := by
    intro rest
    rw [List.filterMap_cons]
    cases g n <;> rfl
  cases n with
  | block b =>
    rw [ownNodes, Block.ownNodes, Block.nodes_eq, first, children, List.flatMap_map,
      List.filterMap_flatMap]
    exact .refl _
  | statement s =>
    have parts := (StatementKind.nodes_perm (fun _ => false) s.kind).filterMap g
    have noNames : (s.kind.declared.map ident).filterMap g = [] := by
      rw [List.filterMap_eq_nil_iff]
      intro n hn
      obtain ⟨i, -, rfl⟩ := List.mem_map.mp hn
      exact bare _ rfl
    have noFuncs : (s.kind.functions.flatMap (Func.nodes fun _ => false)).filterMap g = [] := by
      cases s.kind with
      | func f => obtain ⟨_, _, _, _, _⟩ := f; simp [StatementKind.functions, Func.nodes]
      | _ => rfl
    simp only [List.filterMap_append, noNames, noFuncs, filterMap_exprs bare, List.nil_append,
      List.append_nil] at parts
    rw [ownNodes, Statement.ownNodes, Statement.nodes_eq, first, children, List.flatMap_append,
      List.flatMap_map, List.flatMap_map]
    simp only [List.filterMap_flatMap] at parts
    exact parts.append_left _
  | func _ | expr _ | ident _ => exact .of_eq (first [])

theorem ownIds_block (b : Block) :
    (block b).ownIds = b.id :: (block b).children.flatMap ownIds := by
  simp only [ownIds, ownNodes, Block.ownNodes, Block.nodes_eq, children, List.flatMap_map,
    List.filterMap_cons, id?, List.filterMap_flatMap]
  rfl

theorem ownIds_statement (s : Statement) :
    (statement s).ownIds.Perm (s.id :: (statement s).children.flatMap ownIds) :=
  filterMap_ownNodes (fun _ => id) (statement s)

/-- A node of own code that carries an id is the node itself or lies in one of its children. -/
theorem mem_ownNodes {n m : Node} {i : NodeId} (hm : m.id? = some i) :
    m ∈ n.ownNodes ↔ m = n ∨ ∃ c ∈ n.children, m ∈ c.ownNodes := by
  cases n with
  | block b =>
    simp only [ownNodes, Block.ownNodes, Block.nodes_eq, children, List.mem_cons, List.mem_flatMap,
      List.mem_map, exists_exists_and_eq_and]
    rfl
  | statement s =>
    have h := (StatementKind.nodes_perm (fun _ => false) s.kind).mem_iff (a := m)
    have inExpr : ∀ es : List Expr, m ∉ es.flatMap (Expr.nodes fun _ => false) := by
      intro es he
      obtain ⟨e, -, hn⟩ := List.mem_flatMap.mp he
      rw [e.id?_of_mem_ownNodes m hn] at hm
      cases hm
    have inFunc : m ∉ s.kind.functions.flatMap (Func.nodes fun _ => false) := by
      cases s.kind with
      | func f => obtain ⟨_, _, _, _, _⟩ := f; simp [StatementKind.functions, Func.nodes]
      | _ => simp [StatementKind.functions]
    have inNames : m ∉ s.kind.declared.map Node.ident := by
      intro he
      obtain ⟨name, -, rfl⟩ := List.mem_map.mp he
      cases hm
    simp only [List.mem_append, inExpr, inFunc, inNames, false_or, or_false, List.mem_flatMap] at h
    have split : m ∈ (statement s).ownNodes ↔
        m = statement s ∨ m ∈ s.kind.nodes fun _ => false := by
      rw [ownNodes, Statement.ownNodes, Statement.nodes_eq, List.mem_cons]
    rw [split, h]
    simp only [children, List.mem_append, List.mem_map, or_and_right, exists_or,
      exists_exists_and_eq_and]
    rfl
  | _ => simp [ownNodes, children]

theorem self_mem_ownNodes (n : Node) : n ∈ n.ownNodes := by
  cases n with
  | block b => simp [ownNodes, Block.ownNodes, Block.nodes_eq]
  | statement s => simp [ownNodes, Statement.ownNodes, Statement.nodes_eq]
  | _ => simp [ownNodes]

end Node

/-! ## Own code and all code -/

theorem flatMap_subperm {α β : Type} {f g : α → List β} {l : List α}
    (h : ∀ a ∈ l, (f a).Subperm (g a)) : (l.flatMap f).Subperm (l.flatMap g) := by
  induction l with
  | nil => exact .refl _
  | cons a l ih =>
    exact (h a List.mem_cons_self).append (ih fun b hb => h b (List.mem_cons_of_mem _ hb))

section
variable (enter : Func → Bool)

theorem Func.nodes_subperm (fs : List Func) :
    (fs.flatMap (Func.nodes fun _ => false)).Subperm (fs.flatMap (Func.nodes enter)) := by
  apply flatMap_subperm
  rintro ⟨id, name, params, body, span⟩ -
  simp [Func.nodes, List.nil_subperm]

theorem Expr.ownNodes_subperm (e : Expr) : e.ownNodes.Subperm (e.nodes enter) := by
  induction e using Expr.inductOn with
  | step e ih =>
    rw [Expr.ownNodes, Expr.nodes_eq, Expr.nodes_eq, List.subperm_cons]
    apply List.Subperm.append (flatMap_subperm ih)
    cases e with
    | func f => simpa using Func.nodes_subperm enter [f]
    | _ => exact .refl _

theorem Statement.ownNodes_subperm (s : Statement) : s.ownNodes.Subperm (s.nodes enter) := by
  induction s using Statement.inductOn (P := fun b => b.ownNodes.Subperm (b.nodes enter)) with
  | block b ih =>
    rw [Block.ownNodes, Block.nodes_eq, Block.nodes_eq, List.subperm_cons]
    exact flatMap_subperm ih
  | statement s headers blocks =>
    rw [Statement.ownNodes, Statement.nodes_eq, Statement.nodes_eq, List.subperm_cons]
    refine (StatementKind.nodes_perm _ s.kind).subperm.trans
      (List.Subperm.trans ?_ (StatementKind.nodes_perm enter s.kind).symm.subperm)
    refine .append (.append (.append (.append (.append (.refl _) ?_) ?_) ?_) ?_) ?_
    · exact flatMap_subperm fun e _ => e.ownNodes_subperm enter
    · exact flatMap_subperm fun e _ => e.ownNodes_subperm enter
    · exact flatMap_subperm headers
    · exact flatMap_subperm blocks
    · exact Func.nodes_subperm enter _

theorem Block.ownNodes_subperm (b : Block) : b.ownNodes.Subperm (b.nodes enter) := by
  rw [Block.ownNodes, Block.nodes_eq, Block.nodes_eq, List.subperm_cons]
  exact flatMap_subperm fun s _ => s.ownNodes_subperm enter

end

namespace Func

theorem allNodes_eq (f : Func) :
    f.allNodes = .func f :: (f.name.toList.map .ident ++ f.params.map .ident ++
      f.body.nodes fun _ => true) := by
  obtain ⟨id, name, params, body, span⟩ := f
  simp [allNodes, nodes]

theorem ids_eq (f : Func) :
    f.ids = f.id :: (f.body.nodes fun _ => true).filterMap Node.id? := by
  simp only [ids, allNodes_eq, List.filterMap_cons, Node.id?, List.filterMap_append,
    Node.filterMap_id?_ident]
  rfl

/-- In a function with distinct ids the ids of its own code are distinct, and none is its own. -/
theorem nodup_ownIds {f : Func} (h : f.ids.Nodup) :
    (Node.block f.body).ownIds.Nodup ∧ f.id ∉ (Node.block f.body).ownIds := by
  rw [ids_eq, List.nodup_cons] at h
  obtain ⟨own, perm, sub⟩ := f.body.ownNodes_subperm fun _ => true
  have perm : (own.filterMap Node.id?).Perm (Node.block f.body).ownIds := perm.filterMap _
  have sub := sub.filterMap Node.id?
  exact ⟨perm.nodup_iff.mp (h.2.sublist sub), fun mem => h.1 (sub.subset (perm.mem_iff.mpr mem))⟩

end Func

end WaitDefer
