import WaitDefer.Config
import WaitDefer.Tree

/-! Rules that a function has to keep before it can be transformed, and warnings about functions
that keep them. -/
namespace WaitDefer

/-- The rule that is broken, with what its message names. -/
inductive Rule
  | jumpOutsideLoop (kind : JumpKind)
  | undefinedLabel (label : String)
  | deferOutsideWait
  /-- A jump from inside a wait-block, which starts at `wait`, to a loop around it. -/
  | jumpOutOfWait (kind : JumpKind) (wait : Span)
  /-- A jump to an outer loop through loops that wait; `inner` is the loop next to the jump. -/
  | crossLoopJump (kind : JumpKind) (label : String) (inner : Span)
  | valueReturn (function : String)
  | reservedName (name reserved : String)
  | nestingTooDeep (limit : Nat)
  deriving DecidableEq, Repr, Inhabited

/-- A broken rule and where. -/
structure Violation where
  rule : Rule
  span : Span
  deriving DecidableEq, Repr, Inhabited

namespace Rule

def message : Rule → String
  | jumpOutsideLoop kind => "'" ++ kind.keyword.text ++ "' outside of a loop"
  | undefinedLabel label => "Undefined loop label '" ++ label ++ "'"
  | deferOutsideWait => "'defer' used outside of a wait-block"
  | jumpOutOfWait kind _ =>
    "'" ++ kind.keyword.text ++ "' inside a wait-block cannot leave the enclosing loop"
  | crossLoopJump kind label _ =>
    "'" ++ kind.keyword.text ++ " " ++ label ++ "' crosses an inner loop that waits"
  | valueReturn function => "Cannot return a value from '" ++ function ++ "', which waits"
  | reservedName name reserved =>
    "Identifier '" ++ name ++ "' uses the reserved prefix '" ++ reserved ++ "'"
  | nestingTooDeep limit => "Statements nested deeper than " ++ toString limit ++ " levels"

def code : Rule → String
  | jumpOutsideLoop .leave => "E1001"
  | jumpOutsideLoop .resume => "E1002"
  | undefinedLabel _ => "E1003"
  | deferOutsideWait => "E1004"
  | jumpOutOfWait .. => "E1005"
  | crossLoopJump .. => "E1006"
  | valueReturn _ => "E1007"
  | reservedName .. => "E1008"
  | nestingTooDeep _ => "E1009"

def isNestingTooDeep : Rule → Bool
  | nestingTooDeep _ => true
  | _ => false

end Rule

namespace Violation

def message (v : Violation) : String := v.rule.message

def code (v : Violation) : String := v.rule.code

end Violation

/-- A wait-block without a callback of its own: it resumes at once. -/
structure EmptyWait where
  span : Span
  deriving DecidableEq, Repr, Inhabited

namespace EmptyWait

/-- The name under which the severity of the warning is set. -/
def name : String := "empty-wait"

def code : String := "W1001"

def message : String := "wait-block has no defer() of its own and resumes immediately"

/-- How the warning is reported unless something else is set. -/
def severity : Severity := .warn

end EmptyWait
end WaitDefer
