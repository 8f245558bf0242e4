import WaitDefer.Rotation.Split
import WaitDefer.Rotation.Wiring

/-! Rotation: a block with marked statements becomes a chain of routines. What follows a marked
statement moves into a routine declared right before it, and the statement is wired to call that
routine when it is done. So every marked statement ends up last in its block. -/
namespace WaitDefer

open Rotation

namespace Split

/-- Names for the routines of what follows, in the order of the text. The last split needs none if
nothing follows it, and a jump never does. -/
def withNames : List Split → Rotation (List (Split × Option String))
  | [] => return []
  | s :: ss => do
    let name ←
      if (!ss.isEmpty || !s.following.isEmpty) && !s.pivot.kind.isJump then
        some <$> drawName NameSupply.continuation
      else pure none
    let rest ← withNames ss
    return (s, name) :: rest

/-- What runs at the end of a block, as a statement. -/
def ending (tail : Option Expr) : Build.Draw (List Statement) :=
  match tail with
  | some call => do
    let s ← Build.exprStatement call
    return [s]
  | none => return []

/-- The statements of a block from its first split on. The splits are made into routines from the
last to the first; `tail` runs at the end of the block. -/
def weave (ctx : RotationContext) (inner : BlockRotation) (loops : LoopStack)
    (tail : Option Expr) : List (Split × Option String) → Rotation (List Statement)
  | [] => return []
  | (s, some name) :: more => do
    let after ← weave ctx inner loops tail more
    let last ← if more.isEmpty then drawIds (ending tail) else pure []
    let span := s.pivot.span
    let routine ← drawIds (Build.routine name (s.following ++ after ++ last) span)
    let wired ← Wiring.statement ctx inner loops s.pivot (some (.callNamed name span))
    return [routine, wired]
  | (s, none) :: more => do
    let after ← weave ctx inner loops tail more
    let tail := if s.pivot.kind.isJump then none else tail
    let wired ← Wiring.statement ctx inner loops s.pivot tail
    return after ++ [wired]

end Split

/-! ## How deep blocks nest -/

mutual

/-- The number of blocks that nest in each other, functions inside not counted. -/
def Block.height : Block → Nat
  | ⟨_, ss, _⟩ => Statement.listHeight ss + 1

def Statement.listHeight : List Statement → Nat
  | [] => 0
  | s :: ss => max s.height (Statement.listHeight ss)

def Statement.height : Statement → Nat
  | ⟨_, kind, _⟩ => kind.height

def StatementKind.height : StatementKind → Nat
  | .block body | .wait body | .loop _ _ body => body.height
  | .branch _ yes none => yes.height
  | .branch _ yes (some no) => max yes.height no.height
  | .switch _ arms none => Arm.listHeight arms
  | .switch _ arms (some otherwise) => max (Arm.listHeight arms) otherwise.height
  | .declare .. | .assign .. | .expr _ | .ret _ | .jump .. | .func _ => 0

def Arm.listHeight : List Arm → Nat
  | [] => 0
  | ⟨_, body, _⟩ :: arms => max body.height (Arm.listHeight arms)

end

/-! ## Blocks and functions -/

namespace Block

/-- A block rotated so that `tail` runs at its end, given how blocks inside are rotated. -/
def rotateWith (ctx : RotationContext) (inner : BlockRotation) : BlockRotation :=
  fun loops b tail => do
    let (before, splits) := Split.ofStatements ctx.table b.statements
    if splits.isEmpty then
      let last ← drawIds (Split.ending tail)
      return { b with statements := before ++ last }
    else
      let named ← Split.withNames splits
      let after ← Split.weave ctx inner loops tail named
      return { b with statements := before ++ after }

/-- Rotates blocks that nest at most `n` deep. -/
def rotateTo (ctx : RotationContext) : Nat → BlockRotation
  | 0 => fun _ b _ => return b
  | n + 1 => rotateWith ctx (rotateTo ctx n)

/-- A block that is not inside a loop, rotated so that `tail` runs at its end. -/
def rotate (ctx : RotationContext) (b : Block) (tail : Option Expr) : Rotation Block :=
  rotateTo ctx b.height [] b tail

end Block

namespace Func

/-- A function with its body rotated. Where the body ends, its thread ends. -/
def rotate (ctx : RotationContext) (f : Func) : Rotation Func := do
  let body ← f.body.rotate ctx none
  return { f with body }

end Func
end WaitDefer
