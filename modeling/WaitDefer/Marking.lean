import WaitDefer.Marking.Jumps
import WaitDefer.Marking.Loops
import WaitDefer.Marking.Waits

/-! Marking one function: every wait-block and what holds it, every loop that waits, and every path
from a jump to such a loop. A function that breaks a rule is not marked. -/
namespace WaitDefer

/-- The marks of a function and the warnings about it. -/
structure Marking where
  table : MarkTable
  warnings : List EmptyWait

namespace Marking

/-- Marks by what a function's survey found, then the loops among them. -/
def waitsAndLoops (f : Func) (s : Survey) : MarkTable :=
  let t := MarkTable.empty.markAll s.awaiting .await
  t.markAll (f.body.waitingLoops t) .loop

/-- The rules a function breaks, in the order of their places. -/
def inOrder (vs : List Violation) : List Violation :=
  vs.mergeSort fun a b => a.span.start ≤ b.span.start

end Marking

/-- Marks a function, or finds every rule that it breaks. Jumps are only looked at in functions
that do not nest too deep. -/
def Func.marking (config : Config) (f : Func) : Except (List Violation) Marking :=
  let s := f.survey config
  if s.violations.any (·.rule.isNestingTooDeep) then .error (Marking.inOrder s.violations)
  else
    let t := Marking.waitsAndLoops f s
    let e := f.body.escapes t .outermost
    match Marking.inOrder (s.violations ++ e.violations) with
    | [] => .ok ⟨t.markAll e.propagating .propagate, s.warnings⟩
    | violations => .error violations

/-- The function's own code waits. -/
def Marking.hasWait (m : Marking) (f : Func) : Bool := m.table.has f.body.id .await

end WaitDefer
