import Mathlib.Algebra.FreeMonoid.Basic
import Mathlib.Algebra.Group.Prod
import WaitDefer.Proofs.Rotation.Callbacks
import WaitDefer.Proofs.Tree.Scopes

/-!
# Code and the functions inside it

A rewriting that leaves everything but functions alone does two things: it treats the functions
right inside some code one after the other, and puts what they become in their places:

* `Block.nested`: the functions right inside a block, in the order of the walk;
* `Block.place`: a block with other functions in their places;
* `Block.rewrite_functions`: the rewriting is the one after the other.
-/

namespace WaitDefer

/-! ## The functions inside -/

def Block.nested (b : Block) : List Func := b.ownNodes.flatMap Node.functions

def Statement.nested (s : Statement) : List Func := s.ownNodes.flatMap Node.functions

def Expr.nested (e : Expr) : List Func := e.ownNodes.flatMap Node.functions

/-- The functions right inside the body of a function, in the order of the walk. -/
def Func.nested (f : Func) : List Func := f.body.nested

/-- Functions are taken from a list, one after the other. -/
def Rewriting.placing : Rewriting (List Func) where
  func f _
    | [] => (f, [])
    | g :: gs => (g, gs)

/-- A block with these functions in the places of those right inside it. -/
def Block.place (b : Block) (gs : List Func) : Block := (b.rewrite .placing gs).1

/-! ## One part after the other -/

section
variable {σ : Type}

/-- Two runs over the same code: `x` does `each` to the functions `fs`, and `y` puts what this gives
in their places. What is made has a property together with what was put there. -/
def Places {α : Type} (each : Func → StateM σ Func) (fs : List Func) (x : StateM σ α)
    (y : StateM (List Func) α) (P : List Func → α → Prop) : Prop :=
  ∀ s more, (x s).2 = (fs.mapM each s).2 ∧ y ((fs.mapM each s).1 ++ more) = ((x s).1, more) ∧
    P (fs.mapM each s).1 (x s).1

namespace Places

variable {each : Func → StateM σ Func}

/-- Functions that were treated, and what was put in their places. -/
abbrev Moved := FreeAddMonoid Func × FreeAddMonoid Func

/-- Two runs side by side that add up what was moved. -/
def tally (each : Func → StateM σ Func) : Tally σ (List Func) Unit Moved where
  Of x y P := ∀ s, ∃ fs : List Func, ∀ more, (x s).2 = (fs.mapM each s).2 ∧
    y ((fs.mapM each s).1 ++ more) = ((x s).1, more) ∧ P () (fs, (fs.mapM each s).1) (x s).1
  pure h := fun _ => ⟨[], fun _ => ⟨rfl, rfl, h ()⟩⟩
  bind {_ _ _ _ x y f g} hx hf := by
    intro s
    obtain ⟨fs, first⟩ := hx s
    obtain ⟨gs, second⟩ := hf (x s).1 (x s).2
    refine ⟨fs ++ gs, fun more => ?_⟩
    have both : (fs ++ gs).mapM each s = (((fs.mapM each s).1 ++
        (gs.mapM each (fs.mapM each s).2).1), (gs.mapM each (fs.mapM each s).2).2) := by
      rw [List.mapM_append]
      rfl
    obtain ⟨state, placed, p⟩ := first ((gs.mapM each (fs.mapM each s).2).1 ++ more)
    obtain ⟨state', placed', q⟩ := second more
    rw [both, StateM.bind_apply, StateM.bind_apply, List.append_assoc, placed, ← state]
    exact ⟨state', placed', q _ p⟩

/-- The functions of one piece of code became those of another. -/
def Moves {α : Type} (nested : α → List Func) (m : Moved) (a a' : α) : Prop :=
  m = (nested a, nested a')

theorem tally_iff {α : Type} {nested : α → List Func} {a : α} {x : StateM σ α}
    {y : StateM (List Func) α} :
    (tally each).Of x y (fun _ m a' => Moves nested m a a') ↔
      Places each (nested a) x y fun put a' => put = nested a' := by
  constructor
  · intro h s more
    obtain ⟨fs, all⟩ := h s
    obtain ⟨state, placed, moves⟩ := all more
    obtain ⟨rfl, put⟩ := Prod.mk.inj moves
    exact ⟨state, placed, put⟩
  · intro h s
    refine ⟨nested a, fun more => ?_⟩
    obtain ⟨state, placed, put⟩ := h s more
    exact ⟨state, placed, congrArg (Prod.mk _) put⟩

end Places

/-! ## All of the code -/

open Places

variable {act : Func → StateM σ Block → StateM σ Func}

/-- A rewriting that leaves everything but functions alone. -/
def Rewriting.onFunctions (act : Func → StateM σ Block → StateM σ Func) : Rewriting σ where
  func := act

theorem Func.places_rewrite (f : Func) :
    Places (rewrite (.onFunctions act)) [f] (f.rewrite (.onFunctions act)) (f.rewrite .placing)
      fun put g => put = [g] := by
  intro s more
  obtain ⟨id, name, params, body, span⟩ := f
  exact ⟨rfl, rfl, rfl⟩

theorem Expr.nested_eq (e : Expr) : e.nested = e.operands.flatMap nested ++ e.functions := by
  have none (fs : List Func) : (fs.flatMap (Func.nodes fun _ => false)).flatMap Node.functions = [] := by
    rw [List.flatMap_eq_nil_iff]
    intro n hn
    obtain ⟨f, -, hn⟩ := List.mem_flatMap.mp hn
    exact absurd hn (Func.not_mem_nodes n f)
  have idents (is : List Ident) : (is.map Node.ident).flatMap Node.functions = [] := by
    simp [List.flatMap_map, Node.functions]
  rw [nested, ownNodes, nodes_parts, List.flatMap_cons, List.flatMap_append, List.flatMap_append,
    none, idents, List.append_nil, List.append_nil, List.flatMap_assoc]
  -- an expression is a function or has operands
  cases e <;> simp [Node.functions, functions, operands] <;> rfl

/-- The functions right inside a part of a statement or an expression. -/
def Node.nested : Node → List Func
  | .func f => [f]
  | .block b => b.nested
  | .statement s => s.nested
  | .expr e => e.nested
  | .ident _ => []

theorem Expr.nested_components (e : Expr) : e.nested = e.components.flatMap Node.nested := by
  rw [nested_eq, components, List.flatMap_append, List.flatMap_map, List.flatMap_map]
  simp [Node.nested]

theorem Places.of_tallied {m : Moved} {ps ps' : List Node}
    (h : Tallied (Moves Expr.nested) (Moves Statement.nested) (Moves Block.nested)
      (Moves fun f => [f]) m ps ps') : Moves (List.flatMap Node.nested) m ps ps' := by
  induction h with
  | nil => rfl
  | expr first _ ih | statement first _ ih | block first _ ih | func first _ ih =>
    rw [first, ih]
    rfl

theorem Expr.places_rewrite (e : Expr) :
    Places (Func.rewrite (.onFunctions act)) e.nested (e.rewrite (.onFunctions act))
      (e.rewrite .placing) fun put e => put = e.nested := by
  induction e using Expr.inductOn with
  | step e ih =>
    have whole := tally_rewrite (tally (Func.rewrite (.onFunctions act))) _ _
      (E := fun _ => Moves Expr.nested) (S := fun _ => Moves Statement.nested)
      (B := fun _ => Moves Block.nested) (F := fun _ => Moves fun f => [f])
      (fun _ => rfl) (fun _ => rfl) (fun o ho => tally_iff.mpr (ih o ho))
      fun f _ => tally_iff.mpr f.places_rewrite
    refine tally_iff.mp (Tally.weaken _ whole fun _ m e' both => ?_)
    rw [Moves, nested_components, nested_components]
    exact of_tallied both.2

/-- The functions in the test and the body of an arm. -/
def Arm.nested (a : Arm) : List Func := a.test.nested ++ a.body.nested

/-- The functions of a statement, part by part in the order of the walk. -/
def StatementKind.nested : StatementKind → List Func
  | .declare _ init => init.toList.flatMap Expr.nested
  | .assign target value => target.nested ++ value.nested
  | .expr value => value.nested
  | .ret value => value.toList.flatMap Expr.nested
  | .block body | .wait body => body.nested
  | .branch condition yes no => condition.nested ++ yes.nested ++ no.toList.flatMap Block.nested
  | .switch subject arms otherwise =>
    subject.nested ++ arms.flatMap Arm.nested ++ otherwise.toList.flatMap Block.nested
  | .loop _ (.whileDo condition) body => condition.nested ++ body.nested
  | .loop _ (.doWhile condition) body => body.nested ++ condition.nested
  | .loop _ (.counting init test update) body =>
    init.toList.flatMap Statement.nested ++ test.toList.flatMap Expr.nested ++
      update.toList.flatMap Statement.nested ++ body.nested
  | .jump _ _ => []
  | .func f => [f]

theorem Arm.flatMap_listNodes (arms : List Arm) :
    (listNodes (fun _ => false) arms).flatMap Node.functions = arms.flatMap nested := by
  induction arms with
  | nil => rfl
  | cons a arms ih =>
    obtain ⟨test, body, span⟩ := a
    simp [listNodes, ih, nested, Expr.nested, Block.nested, Expr.ownNodes, Block.ownNodes]

theorem Statement.nested_eq (s : Statement) : s.nested = s.kind.nested := by
  have expr (e : Expr) : (e.nodes fun _ => false).flatMap Node.functions = e.nested := rfl
  have block (b : Block) : (b.nodes fun _ => false).flatMap Node.functions = b.nested := rfl
  have header (s : Statement) : (s.nodes fun _ => false).flatMap Node.functions = s.nested := rfl
  obtain ⟨id, kind, span⟩ := s
  rw [nested, ownNodes, nodes_eq, List.flatMap_cons]
  cases kind with
  | declare name init => cases init <;> simp [StatementKind.nodes, StatementKind.nested,
      Node.functions, StatementKind.functions, expr]
  | ret value => cases value <;> simp [StatementKind.nodes, StatementKind.nested, Node.functions,
      StatementKind.functions, expr]
  | branch condition yes no => cases no <;> simp [StatementKind.nodes, StatementKind.nested,
      Node.functions, StatementKind.functions, expr, block]
  | switch subject arms otherwise => cases otherwise <;> simp [StatementKind.nodes,
      StatementKind.nested, Node.functions, StatementKind.functions, expr, block,
      Arm.flatMap_listNodes]
  | loop label head body =>
    cases head with
    | counting init test update =>
      cases init <;> cases test <;> cases update <;> simp [StatementKind.nodes,
        StatementKind.nested, LoopHead.nodesBefore, LoopHead.nodesAfter, Node.functions,
        StatementKind.functions, expr, block, header]
    | whileDo condition | doWhile condition => simp [StatementKind.nodes, StatementKind.nested,
        LoopHead.nodesBefore, LoopHead.nodesAfter, Node.functions, StatementKind.functions, expr,
        block]
  | func f =>
    obtain ⟨i, name, params, body, span⟩ := f
    simp [Node.functions, StatementKind.functions, StatementKind.nodes, StatementKind.nested,
      Func.nodes]
  | _ => simp [StatementKind.nodes, StatementKind.nested, Node.functions, StatementKind.functions,
      expr, block]

theorem StatementKind.nested_components (k : StatementKind) :
    k.nested = k.components.flatMap Node.nested := by
  have arms (as : List Arm) : (as.flatMap fun a => a.components.flatMap Node.nested) =
      as.flatMap Arm.nested :=
    List.flatMap_congr fun a _ => by simp [Arm.components, Node.nested, Arm.nested]
  cases k with
  | loop label head body =>
    cases head <;> simp [nested, components, Node.nested, List.flatMap_map]
  | _ => simp [nested, components, Node.nested, List.flatMap_map, List.flatMap_assoc, arms]

theorem StatementKind.places_rewrite {kind : StatementKind}
    (headers : ∀ h ∈ kind.headers, Places (Func.rewrite (.onFunctions act)) h.nested
      (h.rewrite (.onFunctions act)) (h.rewrite .placing) fun put h => put = h.nested)
    (blocks : ∀ b ∈ kind.blocks, Places (Func.rewrite (.onFunctions act)) b.nested
      (b.rewrite (.onFunctions act)) (b.rewrite .placing) fun put b => put = b.nested) :
    Places (Func.rewrite (.onFunctions act)) kind.nested (kind.rewrite (.onFunctions act))
      (kind.rewrite .placing) fun put kind => put = kind.nested := by
  have whole := tally_rewrite (tally (Func.rewrite (.onFunctions act))) _ _
    (E := fun _ => Moves Expr.nested) (S := fun _ => Moves Statement.nested)
    (B := fun _ => Moves Block.nested) (F := fun _ => Moves fun f => [f])
    (fun e _ => tally_iff.mpr e.places_rewrite) (fun h hh => tally_iff.mpr (headers h hh))
    (fun b hb => tally_iff.mpr (blocks b hb)) fun f _ => tally_iff.mpr f.places_rewrite
  refine tally_iff.mp (Tally.weaken _ whole fun _ m kind' both => ?_)
  rw [Moves, nested_components, nested_components]
  exact of_tallied both.2

theorem Block.nested_eq (b : Block) : b.nested = b.statements.flatMap Statement.nested := by
  rw [nested, ownNodes, nodes_eq, List.flatMap_cons, List.flatMap_assoc]
  rfl

theorem Block.places_rewrite (b : Block) :
    Places (Func.rewrite (.onFunctions act)) b.nested (b.rewrite (.onFunctions act))
      (b.rewrite .placing) fun put b => put = b.nested := by
  induction b using Block.inductOn (Q := fun s : Statement =>
      Places (Func.rewrite (.onFunctions act)) s.nested (s.rewrite (.onFunctions act))
        (s.rewrite .placing) fun put s => put = s.nested) with
  | block b ih =>
    obtain ⟨id, ss, span⟩ := b
    have statements := Statement.tally_listRewrite (tally (Func.rewrite (.onFunctions act))) _ _
      (E := fun _ => Moves Expr.nested) (S := fun _ => Moves Statement.nested)
      (B := fun _ => Moves Block.nested) (F := fun _ => Moves fun f => [f])
      fun s hs => tally_iff.mpr (ih s hs)
    refine tally_iff.mp (Tally.andReturn _ statements fun _ m ss' both => ?_)
    have moves := of_tallied both.2
    rw [Moves, List.flatMap_map, List.flatMap_map] at moves
    rw [Moves, nested_eq, nested_eq]
    exact moves
  | statement s headers blocks =>
    obtain ⟨id, kind, span⟩ := s
    have inside := tally_iff.mpr (StatementKind.places_rewrite headers blocks)
    refine tally_iff.mp (Tally.andReturn _ inside fun _ m kind' moves => ?_)
    rw [Moves, Statement.nested_eq, Statement.nested_eq]
    exact moves

/-- **A rewriting that leaves everything but functions alone** treats the functions right inside a
block in the order of the walk, and puts what they become in their places. -/
theorem Block.rewrite_functions (b : Block) (s : σ) :
    b.rewrite (.onFunctions act) s =
      (b.place (b.nested.mapM (Func.rewrite (.onFunctions act)) s).1,
        (b.nested.mapM (Func.rewrite (.onFunctions act)) s).2) := by
  obtain ⟨state, placed, -⟩ := places_rewrite (σ := σ) b s []
  rw [List.append_nil] at placed
  rw [place, placed, ← state]
  rfl

theorem Block.nested_rewrite (b : Block) (s : σ) :
    (b.rewrite (.onFunctions act) s).1.nested =
      (b.nested.mapM (Func.rewrite (.onFunctions act)) s).1 := by
  obtain ⟨-, -, put⟩ := b.places_rewrite s []
  exact put.symm

end

end WaitDefer
