import WaitDefer.Tree.Ids

/-! Code made up by the transform. Every node of it that carries an id gets a fresh one, a node
before what it holds except where what it holds is already made. -/
namespace WaitDefer

namespace Expr

/-- A call without arguments of the function with this name. -/
def callNamed (name : String) (span : Span) : Expr := .call (.ident ⟨name, span⟩) [] span

/-- A member of the object with this name. -/
def memberNamed (object property : String) (span : Span) : Expr :=
  .member (.ident ⟨object, span⟩) ⟨property, span⟩ span

end Expr

namespace Build

/-- Ids are drawn one after the other. -/
abbrev Draw := StateM IdSupply

def statement (kind : StatementKind) (span : Span) : Draw Statement := do
  return ⟨← IdSupply.fresh, kind, span⟩

def block (statements : List Statement) (span : Span) : Draw Block := do
  return ⟨← IdSupply.fresh, statements, span⟩

/-- An expression as a statement, at the place of the expression. -/
def exprStatement (e : Expr) : Draw Statement := statement (.expr e) e.span

def func (name : Option String) (params : List Ident) (statements : List Statement) (span : Span) :
    Draw Func := do
  let id ← IdSupply.fresh
  let body ← block statements span
  return ⟨id, name.map (⟨·, span⟩), params, body, span⟩

/-- A routine without parameters. -/
def routine (name : String) (statements : List Statement) (span : Span) : Draw Statement := do
  let f ← func (some name) [] statements span
  statement (.func f) span

/-- A function without a name. -/
def closure (params : List Ident) (statements : List Statement) (span : Span) : Draw Expr := do
  let f ← func none params statements span
  return .func f

/-- `if` with both branches; the second holds one statement. -/
def branch (condition : Expr) (yes : Block) (no : Statement) (span : Span) : Draw Statement := do
  let no ← block [no] span
  statement (.branch condition yes (some no)) span

end Build
end WaitDefer
