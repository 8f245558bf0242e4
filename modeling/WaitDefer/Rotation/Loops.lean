import WaitDefer.Tree

/-! The loops around a place that have been turned into routines. -/
namespace WaitDefer

/-- How to leave a loop and how to go on with it. -/
structure LoopContext where
  /-- What runs after the loop; nothing if the thread ends there. -/
  exit : Option Expr
  /-- Goes on to the next round. -/
  next : Expr
  label : Option String
  deriving Inhabited

/-- Loops turned into routines, the innermost first. -/
abbrev LoopStack := List LoopContext

namespace LoopStack

/-- The innermost loop with this label. -/
def find? (loops : LoopStack) (label : String) : Option LoopContext :=
  List.find? (·.label == some label) loops

/-- The loop that a jump with this label leads to. -/
def target? (loops : LoopStack) (label : Option String) : Option LoopContext :=
  match label with
  | some l => loops.find? l
  | none => loops.head?

end LoopStack
end WaitDefer
