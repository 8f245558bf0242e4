import WaitDefer.Tree

/-! The nodes of a tree as a list, each node before what it holds, in the order of the text except
that a test after a loop's body follows the body. Labels and property names are no nodes: they
refer to nothing. -/
namespace WaitDefer

/-- A node of the tree. -/
inductive Node
  | func (f : Func)
  | block (b : Block)
  | statement (s : Statement)
  | expr (e : Expr)
  | ident (name : Ident)

/-! ## The walk

`enter` says which functions are walked; the others are left out with everything in them. -/

mutual

def Func.nodes (enter : Func → Bool) : Func → List Node
  | ⟨id, name, params, body, span⟩ =>
    if enter ⟨id, name, params, body, span⟩ then
      .func ⟨id, name, params, body, span⟩ ::
        (name.toList.map .ident ++ params.map .ident ++ body.nodes enter)
    else []

def Block.nodes (enter : Func → Bool) : Block → List Node
  | ⟨id, statements, span⟩ =>
    .block ⟨id, statements, span⟩ :: Statement.listNodes enter statements

def Statement.listNodes (enter : Func → Bool) : List Statement → List Node
  | [] => []
  | s :: ss => s.nodes enter ++ Statement.listNodes enter ss

def Statement.nodes (enter : Func → Bool) : Statement → List Node
  | ⟨id, kind, span⟩ => .statement ⟨id, kind, span⟩ :: kind.nodes enter

def StatementKind.nodes (enter : Func → Bool) : StatementKind → List Node
  | .declare name none => [.ident name]
  | .declare name (some init) => .ident name :: init.nodes enter
  | .assign target value => target.nodes enter ++ value.nodes enter
  | .expr value => value.nodes enter
  | .ret none => []
  | .ret (some value) => value.nodes enter
  | .block body => body.nodes enter
  | .branch condition yes none => condition.nodes enter ++ yes.nodes enter
  | .branch condition yes (some no) =>
    condition.nodes enter ++ yes.nodes enter ++ no.nodes enter
  | .switch subject arms none => subject.nodes enter ++ Arm.listNodes enter arms
  | .switch subject arms (some otherwise) =>
    subject.nodes enter ++ Arm.listNodes enter arms ++ otherwise.nodes enter
  | .loop _ head body => head.nodesBefore enter ++ body.nodes enter ++ head.nodesAfter enter
  | .jump _ _ => []
  | .wait body => body.nodes enter
  | .func f => f.nodes enter

/-- The part of a loop's head that comes before the body. -/
def LoopHead.nodesBefore (enter : Func → Bool) : LoopHead → List Node
  | .whileDo condition => condition.nodes enter
  | .doWhile _ => []
  | .counting init test update =>
    (match init with
      | some s => s.nodes enter
      | none => []) ++
    (match test with
      | some e => e.nodes enter
      | none => []) ++
    (match update with
      | some s => s.nodes enter
      | none => [])

/-- The part of a loop's head that comes after the body. -/
def LoopHead.nodesAfter (enter : Func → Bool) : LoopHead → List Node
  | .doWhile condition => condition.nodes enter
  | .whileDo _ | .counting .. => []

def Arm.listNodes (enter : Func → Bool) : List Arm → List Node
  | [] => []
  | ⟨test, body, _⟩ :: arms => test.nodes enter ++ body.nodes enter ++ Arm.listNodes enter arms

def Expr.nodes (enter : Func → Bool) : Expr → List Node
  | .int value span => [.expr (.int value span)]
  | .str value span => [.expr (.str value span)]
  | .bool value span => [.expr (.bool value span)]
  | .null span => [.expr (.null span)]
  | .ident name => [.expr (.ident name), .ident name]
  | .unary op operand span => .expr (.unary op operand span) :: operand.nodes enter
  | .binary op left right span =>
    .expr (.binary op left right span) :: (left.nodes enter ++ right.nodes enter)
  | .call callee arguments span =>
    .expr (.call callee arguments span) ::
      (callee.nodes enter ++ Expr.listNodes enter arguments)
  | .member object property span => .expr (.member object property span) :: object.nodes enter
  | .func f => .expr (.func f) :: f.nodes enter
  | .defer bindings span => .expr (.defer bindings span) :: bindings.map .ident

def Expr.listNodes (enter : Func → Bool) : List Expr → List Node
  | [] => []
  | e :: es => e.nodes enter ++ Expr.listNodes enter es

end

/-- All nodes of a function, nested functions included. -/
def Func.allNodes (f : Func) : List Node := f.nodes fun _ => true

/-- All nodes of a module. -/
def Module.allNodes (m : Module) : List Node := m.functions.flatMap Func.allNodes

/-- The nodes of a block's own code: functions inside are left out. -/
def Block.ownNodes (b : Block) : List Node := b.nodes fun _ => false

/-- The nodes of an expression's own code: functions inside are left out. -/
def Expr.ownNodes (e : Expr) : List Node := e.nodes fun _ => false

/-! ## Ids -/

/-- The id of a node, for the kinds of node that carry one. -/
def Node.id? : Node → Option NodeId
  | .func f => some f.id
  | .block b => some b.id
  | .statement s => some s.id
  | .expr _ | .ident _ => none

/-- Every id in a function, in the order of the walk. -/
def Func.ids (f : Func) : List NodeId := f.allNodes.filterMap Node.id?

/-- Every id in a module, in the order of the walk. -/
def Module.ids (m : Module) : List NodeId := m.allNodes.filterMap Node.id?

/-- The largest id in a function. -/
def Func.maxId (f : Func) : NodeId := f.ids.foldl max f.id

/-- The largest id in a module; a module without functions has none. -/
def Module.maxId? (m : Module) : Option NodeId := m.ids.max?

def Node.span : Node → Span
  | .func f => f.span
  | .block b => b.span
  | .statement s => s.span
  | .expr e => e.span
  | .ident name => name.span

end WaitDefer
