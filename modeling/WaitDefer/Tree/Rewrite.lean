import WaitDefer.Tree

/-! Rewriting a tree while carrying a state. The parts of a node are rewritten in the order of the
walk. At functions, blocks, statements and expressions a rewriting has its say: it is given the
node and the rewriting of what the node holds, and may run that, leave it out, or add to it. -/
namespace WaitDefer

/-- What a rewriting does at each kind of node. Unless it says otherwise, a node stays as it is and
what it holds is rewritten. -/
structure Rewriting (σ : Type) where
  func : Func → StateM σ Block → StateM σ Func :=
    fun f body => do return { f with body := ← body }
  block : Block → StateM σ (List Statement) → StateM σ Block :=
    fun b statements => do return { b with statements := ← statements }
  statement : Statement → StateM σ StatementKind → StateM σ Statement :=
    fun s kind => do return { s with kind := ← kind }
  expr : Expr → StateM σ Expr → StateM σ Expr := fun _ inner => inner

variable {σ : Type}

mutual

def Func.rewrite (r : Rewriting σ) : Func → StateM σ Func
  | ⟨id, name, params, body, span⟩ => r.func ⟨id, name, params, body, span⟩ (body.rewrite r)

def Block.rewrite (r : Rewriting σ) : Block → StateM σ Block
  | ⟨id, ss, span⟩ => r.block ⟨id, ss, span⟩ (Statement.listRewrite r ss)

def Statement.listRewrite (r : Rewriting σ) : List Statement → StateM σ (List Statement)
  | [] => return []
  | s :: ss => do
    let s ← s.rewrite r
    let ss ← Statement.listRewrite r ss
    return s :: ss

def Statement.rewrite (r : Rewriting σ) : Statement → StateM σ Statement
  | ⟨id, kind, span⟩ => r.statement ⟨id, kind, span⟩ (kind.rewrite r)

def StatementKind.rewrite (r : Rewriting σ) : StatementKind → StateM σ StatementKind
  | .declare name none => return .declare name none
  | .declare name (some init) => do
    let init ← init.rewrite r
    return .declare name (some init)
  | .assign target value => do
    let target ← target.rewrite r
    let value ← value.rewrite r
    return .assign target value
  | .expr value => do
    let value ← value.rewrite r
    return .expr value
  | .ret none => return .ret none
  | .ret (some value) => do
    let value ← value.rewrite r
    return .ret (some value)
  | .block body => do
    let body ← body.rewrite r
    return .block body
  | .branch condition yes none => do
    let condition ← condition.rewrite r
    let yes ← yes.rewrite r
    return .branch condition yes none
  | .branch condition yes (some no) => do
    let condition ← condition.rewrite r
    let yes ← yes.rewrite r
    let no ← no.rewrite r
    return .branch condition yes (some no)
  | .switch subject arms none => do
    let subject ← subject.rewrite r
    let arms ← Arm.listRewrite r arms
    return .switch subject arms none
  | .switch subject arms (some otherwise) => do
    let subject ← subject.rewrite r
    let arms ← Arm.listRewrite r arms
    let otherwise ← otherwise.rewrite r
    return .switch subject arms (some otherwise)
  | .loop label (.whileDo condition) body => do
    let condition ← condition.rewrite r
    let body ← body.rewrite r
    return .loop label (.whileDo condition) body
  | .loop label (.doWhile condition) body => do
    let body ← body.rewrite r
    let condition ← condition.rewrite r
    return .loop label (.doWhile condition) body
  | .loop label (.counting init test update) body => do
    let init ← match init with
      | some s => some <$> s.rewrite r
      | none => pure none
    let test ← match test with
      | some e => some <$> e.rewrite r
      | none => pure none
    let update ← match update with
      | some s => some <$> s.rewrite r
      | none => pure none
    let body ← body.rewrite r
    return .loop label (.counting init test update) body
  | .jump kind label => return .jump kind label
  | .wait body => do
    let body ← body.rewrite r
    return .wait body
  | .func f => do
    let f ← f.rewrite r
    return .func f

def Arm.listRewrite (r : Rewriting σ) : List Arm → StateM σ (List Arm)
  | [] => return []
  | ⟨test, body, span⟩ :: arms => do
    let test ← test.rewrite r
    let body ← body.rewrite r
    let arms ← Arm.listRewrite r arms
    return ⟨test, body, span⟩ :: arms

def Expr.rewrite (r : Rewriting σ) : Expr → StateM σ Expr
  | .int value span => r.expr (.int value span) (return .int value span)
  | .str value span => r.expr (.str value span) (return .str value span)
  | .bool value span => r.expr (.bool value span) (return .bool value span)
  | .null span => r.expr (.null span) (return .null span)
  | .ident name => r.expr (.ident name) (return .ident name)
  | .unary op operand span => r.expr (.unary op operand span) do
    let operand ← operand.rewrite r
    return .unary op operand span
  | .binary op left right span => r.expr (.binary op left right span) do
    let left ← left.rewrite r
    let right ← right.rewrite r
    return .binary op left right span
  | .call callee arguments span => r.expr (.call callee arguments span) do
    let callee ← callee.rewrite r
    let arguments ← Expr.listRewrite r arguments
    return .call callee arguments span
  | .member object property span => r.expr (.member object property span) do
    let object ← object.rewrite r
    return .member object property span
  | .func f => r.expr (.func f) do
    let f ← f.rewrite r
    return .func f
  | .defer bindings span => r.expr (.defer bindings span) (return .defer bindings span)

def Expr.listRewrite (r : Rewriting σ) : List Expr → StateM σ (List Expr)
  | [] => return []
  | e :: es => do
    let e ← e.rewrite r
    let es ← Expr.listRewrite r es
    return e :: es

end

/-- The functions of a module are rewritten in order. -/
def Module.rewrite (r : Rewriting σ) (m : Module) : StateM σ Module := do
  let functions ← m.functions.mapM (Func.rewrite r)
  return ⟨functions, m.span⟩

end WaitDefer
