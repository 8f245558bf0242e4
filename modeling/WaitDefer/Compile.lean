import WaitDefer.Grammar.Statement
import WaitDefer.Hoisting
import WaitDefer.Marking
import WaitDefer.Rotation
import WaitDefer.Rotation.Check

/-! The whole transform. Every function, nested ones first, is a unit: it is marked, and if it
waits, its declarations are hoisted and its body is rotated and checked. -/
namespace WaitDefer

/-- Why a text or a function could not be compiled. -/
inductive CompileError
  | syntactic (errors : List SyntaxError)
  | rules (function : String) (violations : List Violation)
  | denied (function : String) (warnings : List EmptyWait)
  | internal (function : String) (error : InternalError)
  deriving DecidableEq, Repr, Inhabited

namespace CompileError

def message : CompileError → String
  | syntactic errors => toString errors.length ++ " parse error(s)"
  | rules function violations =>
    toString violations.length ++ " error(s) in function '" ++ function ++ "'"
  | denied function warnings =>
    toString warnings.length ++ " warning(s) denied in function '" ++ function ++ "'"
  | internal function error => "internal error in function '" ++ function ++ "': " ++ error.message

/-- The code of every syntax error. -/
def syntaxCode : String := "E0001"

/-- The codes of what went wrong, in order. -/
def codes : CompileError → List String
  | syntactic errors => errors.map fun _ => syntaxCode
  | rules _ violations => violations.map Violation.code
  | denied _ warnings => warnings.map fun _ => EmptyWait.code
  | internal _ error => [error.code]

end CompileError

/-- What is carried from unit to unit. -/
structure Session where
  supply : Supply
  /-- The number of functions around the present one. -/
  depth : Nat
  warnings : List EmptyWait
  errors : List CompileError
  deriving Inhabited

namespace Session

/-- Ids start above `max`, the largest one there is. -/
def new (config : Config) (max : NodeId) : Session :=
  ⟨⟨.above max, .new config.reservedPrefix⟩, 0, [], []⟩

def fail (s : Session) (e : CompileError) : Session := { s with errors := s.errors ++ [e] }

def warn (s : Session) (ws : List EmptyWait) : Session := { s with warnings := s.warnings ++ ws }

/-- The result, unless something went wrong. -/
def finish (s : Session) (result : α) : Except (List CompileError) (α × List EmptyWait) :=
  if s.errors.isEmpty then .ok (result, s.warnings) else .error s.errors

end Session

/-! ## One unit -/

namespace Func

/-- Hoists and rotates a function that waits. -/
def lower (ctx : RotationContext) (f : Func) : Rotation Func := do
  let r ← Rotation.drawIds f.hoist
  r.1.rotate ctx

/-- Hoists, rotates and checks a function that waits. Ids up to `max` were there before. -/
def lowerChecked (ctx : RotationContext) (max : NodeId) (f : Func) : Rotation Func := do
  let g ← f.lower ctx
  if (← getThe Supply).ids.exhausted then
    throw ⟨.idsExhausted max, f.span⟩
  if ctx.config.verify then
    match g.flaw? ctx.table max with
    | some e => throw e
    | none => return g
  else
    return g

/-- Transforms one unit whose nested functions are already transformed. A unit in which something
is wrong stays as it is. -/
def transform (config : Config) (max : NodeId) (f : Func) : StateM Session Func := fun s =>
  match f.marking config with
  | .error violations => (f, s.fail (.rules f.displayName violations))
  | .ok marking =>
    let severity := config.severity EmptyWait.name EmptyWait.severity
    let s := if severity = .warn then s.warn marking.warnings else s
    if severity = .error && !marking.warnings.isEmpty then
      (f, s.fail (.denied f.displayName marking.warnings))
    else if marking.hasWait f then
      match f.lowerChecked ⟨config, marking.table⟩ max s.supply with
      | (.ok g, supply) => (g, { s with supply })
      | (.error e, supply) => (f, { s with supply }.fail (.internal f.displayName e))
    else (f, s)

end Func

/-! ## Nested units -/

/-- Transforms every function after the functions inside it. Functions may nest only so deep. -/
def Rewriting.transformUnits (config : Config) (max : NodeId) : Rewriting Session where
  func f body := do
    let depth := (← get).depth
    if config.maxDepth ≤ depth then
      modify (·.fail (.rules f.displayName [⟨.nestingTooDeep config.maxDepth, f.span⟩]))
      return f
    else
      modify ({ · with depth := depth + 1 })
      let body ← body
      modify ({ · with depth })
      Func.transform config max { f with body }

/-! ## Modules and texts -/

/-- Compiles one function and the functions inside it. -/
def Func.compile (config : Config) (f : Func) :
    Except (List CompileError) (Func × List EmptyWait) :=
  let r := (f.rewrite (.transformUnits config f.maxId)).run (.new config f.maxId)
  r.2.finish r.1

/-- Compiles every function of a module; the errors of all are collected. -/
def Module.compile (config : Config) (m : Module) :
    Except (List CompileError) (Module × List EmptyWait) :=
  let max := m.maxId?.getD 0
  let r := (m.rewrite (.transformUnits config max)).run (.new config max)
  r.2.finish r.1

/-- Reads and compiles a text. -/
def Module.compileSource (config : Config) (source : String) :
    Except (List CompileError) (Module × List EmptyWait) :=
  match Module.parse source with
  | .ok m => m.compile config
  | .error errors => .error [.syntactic errors]

end WaitDefer
