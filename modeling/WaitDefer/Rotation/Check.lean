import WaitDefer.Marks
import WaitDefer.Rotation.Supply
import WaitDefer.Tree.Walk

/-! Checking a rotated function: no wait-block, no `defer` and no loop that waits is left, and every
marked statement is the last of its block. Routines made by rotation are part of the function;
functions that were there before are units of their own. -/
namespace WaitDefer

/-- What is wrong with one node. -/
def Node.flaws (t : MarkTable) : Node → List InternalError
  | .block b =>
    (b.statements.dropLast.filter fun s => t.hasAny s.id .split).map fun s =>
      ⟨.residualMark s.id s.kind.name, s.span⟩
  | .statement ⟨_, .wait _, span⟩ => [⟨.unlowered "wait-block", span⟩]
  | .statement ⟨id, .loop .., span⟩ =>
    if t.has id .loop then [⟨.unlowered "waiting loop", span⟩] else []
  | .expr (.defer _ span) => [⟨.unlowered "defer", span⟩]
  | _ => []

/-- The first flaw of a rotated function. Functions with an id up to `max` were there before
rotation and are not looked into. -/
def Func.flaw? (f : Func) (t : MarkTable) (max : NodeId) : Option InternalError :=
  ((f.body.nodes fun g => max < g.id).flatMap (Node.flaws t)).head?

end WaitDefer
