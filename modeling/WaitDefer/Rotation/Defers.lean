import WaitDefer.Config
import WaitDefer.Rotation.Build
import WaitDefer.Rotation.Supply

/-! Callbacks of a wait-block. Each `defer` becomes a call on the counter of its wait-block; bound
names are assigned by a function handed to that call. -/
namespace WaitDefer

/-- Where the callbacks of one wait-block go, and how their parameters are named. -/
structure Callbacks where
  counter : String
  method : String
  names : NameSupply
  deriving DecidableEq, Repr, Inhabited

namespace Callbacks

/-- The parameters for some bound names, numbered from `index`. -/
def params (c : Callbacks) : Nat → List Ident → List Ident
  | _, [] => []
  | index, b :: bs => ⟨c.names.argument index, b.span⟩ :: c.params (index + 1) bs

/-- Each bound name is assigned its parameter. -/
def assignments (bindings params : List Ident) : Build.Draw (List Statement) :=
  (bindings.zip params).mapM fun p => Build.statement (.assign (.ident p.1) (.ident p.2)) p.1.span

/-- The call on the counter that stands for a `defer`. -/
def lower (c : Callbacks) (bindings : List Ident) (span : Span) : Build.Draw Expr := do
  let callee := Expr.memberNamed c.counter c.method span
  if bindings.isEmpty then
    return .call callee [] span
  else
    let params := c.params 0 bindings
    let assigns ← assignments bindings params
    let closure ← Build.closure params assigns span
    return .call callee [closure] span

/-- Lowers the callbacks that belong to one wait-block. Those of wait-blocks inside and of
functions inside are not among them. -/
def rewriting (c : Callbacks) : Rewriting IdSupply where
  func f _ := return f
  statement s kind :=
    match s.kind with
    | .wait _ => return s
    | _ => do return { s with kind := ← kind }
  expr e inner :=
    match e with
    | .defer bindings span => c.lower bindings span
    | _ => inner

end Callbacks
end WaitDefer
