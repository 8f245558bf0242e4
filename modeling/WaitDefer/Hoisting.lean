import WaitDefer.Tree.Ids

/-! Declarations at the top. When a function is split into routines, a declaration made in one of
them would not be seen by the others. So each declaration becomes an assignment, and each name is
declared once at the top of the function. Functions inside are left alone. -/
namespace WaitDefer

/-! ## Assignments for declarations -/

/-- What is assigned where a declaration stood: its value, or null if it has none. -/
def StatementKind.assigning (name : Ident) (init : Option Expr) : StatementKind :=
  .assign (.ident name) (init.getD (.null name.span))

mutual

def Block.undeclared : Block → Block
  | ⟨id, ss, span⟩ => ⟨id, Statement.listUndeclared ss, span⟩

def Statement.listUndeclared : List Statement → List Statement
  | [] => []
  | s :: ss => s.undeclared :: Statement.listUndeclared ss

def Statement.undeclared : Statement → Statement
  | ⟨id, kind, span⟩ => ⟨id, kind.undeclared, span⟩

def StatementKind.undeclared : StatementKind → StatementKind
  | .declare name init => .assigning name init
  | .block body => .block body.undeclared
  | .branch condition yes none => .branch condition yes.undeclared none
  | .branch condition yes (some no) => .branch condition yes.undeclared (some no.undeclared)
  | .switch subject arms none => .switch subject (Arm.listUndeclared arms) none
  | .switch subject arms (some otherwise) =>
    .switch subject (Arm.listUndeclared arms) (some otherwise.undeclared)
  | .loop label (.whileDo condition) body => .loop label (.whileDo condition) body.undeclared
  | .loop label (.doWhile condition) body => .loop label (.doWhile condition) body.undeclared
  | .loop label (.counting init test update) body =>
    .loop label
      (.counting
        (match init with
          | some s => some s.undeclared
          | none => none)
        test
        (match update with
          | some s => some s.undeclared
          | none => none))
      body.undeclared
  | .wait body => .wait body.undeclared
  | .assign target value => .assign target value
  | .expr value => .expr value
  | .ret value => .ret value
  | .jump kind label => .jump kind label
  | .func f => .func f

def Arm.listUndeclared : List Arm → List Arm
  | [] => []
  | ⟨test, body, span⟩ :: arms => ⟨test, body.undeclared, span⟩ :: Arm.listUndeclared arms

end

/-! ## Names -/

/-- The name a node declares with `let`. -/
def Node.declared? : Node → Option Ident
  | .statement ⟨_, .declare name _, _⟩ => some name
  | _ => none

/-- Of several places with one name, the first. -/
def Ident.firsts : List Ident → List Ident
  | [] => []
  | i :: is => i :: (Ident.firsts is).filter (·.name != i.name)

/-- The names declared by a function's own code, other than its parameters, each where it is
declared first. -/
def Func.declaredNames (f : Func) : List Ident :=
  let declared := f.body.ownNodes.filterMap Node.declared?
  Ident.firsts (declared.filter fun i => !f.params.any (·.name == i.name))

/-! ## Hoisting -/

/-- A declaration without a value, placed where the name stands. -/
def Statement.declaration (id : NodeId) (name : Ident) : Statement :=
  ⟨id, .declare name none, name.span⟩

/-- One declaration a name, with fresh ids. -/
def declarations : List Ident → StateM IdSupply (List Statement)
  | [] => return []
  | i :: is => do
    let id ← IdSupply.fresh
    let ss ← declarations is
    return .declaration id i :: ss

/-- A function with its declarations at the top, and the names declared there. -/
def Func.hoist (f : Func) : StateM IdSupply (Func × List String) := do
  let names := f.declaredNames
  let ss ← declarations names
  let body := { f.body with statements := ss ++ f.body.undeclared.statements }
  return ({ f with body }, names.map Ident.name)

end WaitDefer
