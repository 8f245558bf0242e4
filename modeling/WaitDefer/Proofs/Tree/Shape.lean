import Mathlib.Data.List.Forall2
import WaitDefer.Tree

/-!
# The shape of a tree

Two trees have one shape if they differ in nothing but ids and the places they were read from:

* `Expr.shape`, `Func.shape`, `Block.shape`, `Statement.shape`, `Module.shape`: a tree without ids
  and places.
-/

namespace WaitDefer

/-- A name, wherever it stands. -/
def Ident.shape (i : Ident) : Ident := { i with span := default }

mutual

/-- An expression without ids and places. -/
def Expr.shape : Expr → Expr
  | .int value _ => .int value default
  | .str value _ => .str value default
  | .bool value _ => .bool value default
  | .null _ => .null default
  | .ident name => .ident name.shape
  | .unary op operand _ => .unary op operand.shape default
  | .binary op left right _ => .binary op left.shape right.shape default
  | .call callee arguments _ => .call callee.shape (Expr.listShape arguments) default
  | .member object property _ => .member object.shape property.shape default
  | .func f => .func f.shape
  | .defer bindings _ => .defer (bindings.map Ident.shape) default

def Expr.listShape : List Expr → List Expr
  | [] => []
  | e :: es => e.shape :: Expr.listShape es

def Func.shape : Func → Func
  | ⟨_, name, params, body, _⟩ =>
    ⟨0, name.map Ident.shape, params.map Ident.shape, body.shape, default⟩

def Block.shape : Block → Block
  | ⟨_, ss, _⟩ => ⟨0, Statement.listShape ss, default⟩

def Statement.listShape : List Statement → List Statement
  | [] => []
  | s :: ss => s.shape :: Statement.listShape ss

def Statement.shape : Statement → Statement
  | ⟨_, kind, _⟩ => ⟨0, kind.shape, default⟩

def StatementKind.shape : StatementKind → StatementKind
  | .declare name none => .declare name.shape none
  | .declare name (some init) => .declare name.shape (some init.shape)
  | .assign target value => .assign target.shape value.shape
  | .expr value => .expr value.shape
  | .ret none => .ret none
  | .ret (some value) => .ret (some value.shape)
  | .block body => .block body.shape
  | .branch condition yes none => .branch condition.shape yes.shape none
  | .branch condition yes (some no) => .branch condition.shape yes.shape (some no.shape)
  | .switch subject arms none => .switch subject.shape (Arm.listShape arms) none
  | .switch subject arms (some otherwise) =>
    .switch subject.shape (Arm.listShape arms) (some otherwise.shape)
  | .loop label head body => .loop (label.map Ident.shape) head.shape body.shape
  | .jump kind label => .jump kind (label.map Ident.shape)
  | .wait body => .wait body.shape
  | .func f => .func f.shape

def LoopHead.shape : LoopHead → LoopHead
  | .whileDo condition => .whileDo condition.shape
  | .doWhile condition => .doWhile condition.shape
  | .counting init test update =>
    .counting
      (match init with
        | some s => some s.shape
        | none => none)
      (match test with
        | some e => some e.shape
        | none => none)
      (match update with
        | some s => some s.shape
        | none => none)

def Arm.listShape : List Arm → List Arm
  | [] => []
  | ⟨test, body, _⟩ :: arms => ⟨test.shape, body.shape, default⟩ :: Arm.listShape arms

end

/-- A module without ids and places. -/
def Module.shape (m : Module) : Module := ⟨m.functions.map Func.shape, default⟩

theorem Expr.isAssignable_shape (e : Expr) : e.shape.isAssignable = e.isAssignable := by
  cases e <;> rw [shape] <;> rfl

/-! ## Parts that may be missing -/

theorem StatementKind.shape_ret (value : Option Expr) :
    (ret value).shape = ret (value.map Expr.shape) := by
  cases value <;> rw [shape] <;> rfl

theorem StatementKind.shape_branch (condition : Expr) (yes : Block) (no : Option Block) :
    (branch condition yes no).shape = branch condition.shape yes.shape (no.map Block.shape) := by
  cases no <;> rw [shape] <;> rfl

theorem StatementKind.shape_switch (subject : Expr) (arms : List Arm) (otherwise : Option Block) :
    (switch subject arms otherwise).shape =
      switch subject.shape (Arm.listShape arms) (otherwise.map Block.shape) := by
  cases otherwise <;> rw [shape] <;> rfl

theorem LoopHead.shape_counting (init update : Option Statement) (test : Option Expr) :
    (counting init test update).shape =
      counting (init.map Statement.shape) (test.map Expr.shape) (update.map Statement.shape) := by
  cases init <;> cases test <;> cases update <;> rw [shape] <;> rfl

/-! ## Lists of one shape -/

theorem Ident.shape_eq {i j : Ident} (h : j.name = i.name) : j.shape = i.shape := by
  rw [shape, shape, h]

theorem Ident.map_shape {is js : List Ident}
    (h : List.Forall₂ (fun i j => j.name = i.name) is js) :
    js.map Ident.shape = is.map Ident.shape := by
  induction h with
  | nil => rfl
  | cons first _ ih => rw [List.map_cons, List.map_cons, shape_eq first, ih]

theorem Expr.listShape_eq {es es' : List Expr}
    (h : List.Forall₂ (fun e e' => e'.shape = e.shape) es es') : listShape es' = listShape es := by
  induction h with
  | nil => rfl
  | cons first _ ih => rw [listShape, listShape, first, ih]

theorem Statement.listShape_eq {ss ss' : List Statement}
    (h : List.Forall₂ (fun s s' => s'.shape = s.shape) ss ss') : listShape ss' = listShape ss := by
  induction h with
  | nil => rfl
  | cons first _ ih => rw [listShape, listShape, first, ih]

end WaitDefer
