import WaitDefer.Config
import WaitDefer.Marks
import WaitDefer.Rotation.Defers
import WaitDefer.Rotation.Loops

/-! Wiring: making a marked statement go on with what follows it. The statement that replaces it
keeps its id and its place. How the blocks inside it are rotated is an argument, `inner`. -/
namespace WaitDefer

/-- The settings and marks under which a function is rotated. -/
structure RotationContext where
  config : Config
  table : MarkTable

/-- Rotates a block inside the loops around it, with what is to run after it. -/
abbrev BlockRotation := LoopStack → Block → Option Expr → Rotation Block

open Rotation

namespace Wiring

/-! ## Branches -/

/-- An arm that may be missing. If it is and something is to run after it, it is made. -/
def optionalArm (inner : BlockRotation) (loops : LoopStack) (arm : Option Block)
    (after : Option Expr) (span : Span) : Rotation (Option Block) :=
  match arm, after with
  | some b, after => some <$> inner loops b after
  | none, some call => drawIds do
    let s ← Build.exprStatement call
    let b ← Build.block [s] span
    return some b
  | none, none => return none

/-- The arms of a switch, each followed by the same. -/
def arms (inner : BlockRotation) (loops : LoopStack) (after : Option Expr) :
    List Arm → Rotation (List Arm)
  | [] => return []
  | a :: as => do
    let body ← inner loops a.body after
    let as ← arms inner loops after as
    return { a with body } :: as

/-! ## Wait-blocks -/

/-- What the counter is given to run: the routine itself where that is to be called without
arguments, else a function that runs what follows. -/
def continuationValue (after : Option Expr) (span : Span) : Build.Draw Expr :=
  match after with
  | some (.call (.ident name) [] _) => return .ident name
  | some call => do
    let s ← Build.exprStatement call
    Build.closure [] [s] span
  | none => Build.closure [] [] span

/-- A wait-block becomes a block that makes a counter, runs the body, and hands what follows to the
counter where the body ends. -/
def lowerWait (ctx : RotationContext) (inner : BlockRotation) (loops : LoopStack) (body : Block)
    (after : Option Expr) (span : Span) : Rotation Block := do
  let counter ← drawName NameSupply.counter
  let callbacks : Callbacks := ⟨counter, ctx.config.runtime.defer, ← names⟩
  let body ← drawIds (body.rewrite callbacks.rewriting)
  let value ← drawIds (continuationValue after span)
  let resume := Expr.call (.memberNamed counter ctx.config.runtime.wait span) [value] span
  let body ← inner loops body (some resume)
  let create ← drawIds (Build.statement (.declare ⟨counter, span⟩
    (some (.callNamed ctx.config.runtime.newCounter span))) span)
  return { body with statements := create :: body.statements }

/-! ## Loops -/

/-- What ends a loop: what follows it, or the end of the thread. -/
def exitStatement (exit : Option Expr) (span : Span) : Build.Draw Statement :=
  match exit with
  | some call => Build.exprStatement call
  | none => Build.statement (.ret none) span

/-- The statements of a loop's two routines, the one that runs a round and the one that goes on,
and what comes before them. -/
structure LoopParts where
  before : List Statement
  restart : List Statement
  next : List Statement
  deriving Inhabited

/-- The parts of a loop with its rotated body. `restart` is the call that runs a round, `exit` what
ends the loop. -/
def loopParts (head : LoopHead) (body : Block) (restart : Expr) (exit : Statement) (span : Span) :
    Build.Draw LoopParts :=
  match head with
  | .whileDo condition => do
    let branch ← Build.branch condition body exit span
    let again ← Build.exprStatement restart
    return ⟨[], [branch], [again]⟩
  | .doWhile condition => do
    let again ← Build.exprStatement restart
    let again ← Build.block [again] span
    let branch ← Build.branch condition again exit span
    return ⟨[], body.statements, [branch]⟩
  | .counting init test update => do
    let round ← match test with
      | some condition => do
        let branch ← Build.branch condition body exit span
        pure [branch]
      | none => pure body.statements
    let again ← Build.exprStatement restart
    return ⟨init.toList, round, update.toList ++ [again]⟩

/-- A loop that waits becomes a block with two routines and a call that runs the first round. -/
def lowerLoop (inner : BlockRotation) (loops : LoopStack) (label : Option Ident) (head : LoopHead)
    (body : Block) (exit : Option Expr) (span : Span) : Rotation Block := do
  let routines ← drawName NameSupply.loopRoutines
  let restart := Expr.callNamed routines.restart span
  let next := Expr.callNamed routines.next span
  let body ← inner (⟨exit, next, label.map Ident.name⟩ :: loops) body (some next)
  drawIds do
    let exit ← exitStatement exit span
    let parts ← loopParts head body restart exit span
    let restartRoutine ← Build.routine routines.restart parts.restart span
    let nextRoutine ← Build.routine routines.next parts.next span
    let first ← Build.exprStatement restart
    Build.block (parts.before ++ [restartRoutine, nextRoutine, first]) span

/-- A jump to a loop that waits becomes a call, or the end of the thread. -/
def lowerJump (loops : LoopStack) (kind : JumpKind) (label : Option Ident) (span : Span) :
    Rotation StatementKind :=
  match loops.target? (label.map Ident.name) with
  | none => throw ⟨.jumpWithoutLoop kind, span⟩
  | some loop =>
    match kind, loop.exit with
    | .leave, some call => return .expr call
    | .leave, none => return .ret none
    | .resume, _ => return .expr loop.next

/-! ## Statements -/

/-- A marked statement, followed by `after`. -/
def statement (ctx : RotationContext) (inner : BlockRotation) (loops : LoopStack) (s : Statement)
    (after : Option Expr) : Rotation Statement := do
  let kind ← match s.kind with
    | .block body => .block <$> inner loops body after
    | .branch condition yes no => do
      let yes ← inner loops yes after
      let no ← optionalArm inner loops no after s.span
      pure (.branch condition yes no)
    | .switch subject cases otherwise => do
      let cases ← arms inner loops after cases
      let otherwise ← optionalArm inner loops otherwise after s.span
      pure (.switch subject cases otherwise)
    | .wait body => .block <$> lowerWait ctx inner loops body after s.span
    | .loop label head body =>
      if ctx.table.has s.id .loop then
        .block <$> lowerLoop inner loops label head body after s.span
      else throw ⟨.unexpectedSplit s.id s.kind.name, s.span⟩
    | .jump kind label => lowerJump loops kind label s.span
    | kind => throw ⟨.unexpectedSplit s.id kind.name, s.span⟩
  return { s with kind }

end Wiring
end WaitDefer
