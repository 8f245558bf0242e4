import WaitDefer.Marking.Violation
import WaitDefer.Marks

/-! Where the jumps of a function lead. A jump to a loop that waits cannot stay a jump, so it and
everything between it and the loop is noted. A jump breaks a rule if it has no target, leaves a
wait-block, or crosses loops that wait. -/
namespace WaitDefer

/-- A loop around a place. -/
structure LoopFrame where
  label : Option String
  /-- The loop waits. -/
  marked : Bool
  /-- The length of the path down to the loop itself. -/
  depth : Nat
  /-- The number of wait-blocks around the loop. -/
  waits : Nat
  span : Span
  deriving DecidableEq, Repr, Inhabited

/-- What lies around a place, in each list the innermost first. -/
structure Surroundings where
  loops : List LoopFrame
  /-- The nodes from the function's body down to the place. -/
  path : List NodeId
  /-- The wait-blocks. -/
  waits : List Span
  deriving DecidableEq, Repr, Inhabited

/-- What is noted about jumps: the rules they break, and the nodes on paths from jumps to loops
that wait. -/
structure Escapes where
  violations : List Violation
  propagating : List NodeId
  deriving DecidableEq, Repr, Inhabited

namespace Escapes

def nothing : Escapes := ⟨[], []⟩

def append (a b : Escapes) : Escapes :=
  ⟨a.violations ++ b.violations, a.propagating ++ b.propagating⟩

instance : Append Escapes := ⟨append⟩

def violation (rule : Rule) (span : Span) : Escapes := ⟨[⟨rule, span⟩], []⟩

end Escapes

namespace Surroundings

/-- Nothing around. -/
def outermost : Surroundings := ⟨[], [], []⟩

def enter (around : Surroundings) (id : NodeId) : Surroundings :=
  { around with path := id :: around.path }

def enterWait (around : Surroundings) (span : Span) : Surroundings :=
  { around with waits := span :: around.waits }

/-- Into the body of a loop; the loop itself is already on the path. -/
def enterLoop (around : Surroundings) (label : Option Ident) (marked : Bool) (span : Span) :
    Surroundings :=
  let frame : LoopFrame := {
    label := label.map Ident.name
    marked
    depth := around.path.length
    waits := around.waits.length
    span }
  { around with loops := frame :: around.loops }

/-- The number of the loop that a jump with this label leads to, counted from the innermost. -/
def target? (around : Surroundings) (label : Option Ident) : Option Nat :=
  match label with
  | some l => around.loops.findIdx? (·.label == some l.name)
  | none => if around.loops.isEmpty then none else some 0

/-- The outermost of the wait-blocks that lie inside a loop. -/
def waitInside? (around : Surroundings) (frame : LoopFrame) : Option Span :=
  around.waits.reverse[frame.waits]?

/-- What is to be noted about a jump. -/
def jump (around : Surroundings) (kind : JumpKind) (label : Option Ident) (span : Span) :
    Escapes :=
  match around.target? label with
  | none =>
    match label with
    | some l => .violation (.undefinedLabel l.name) l.span
    | none => .violation (.jumpOutsideLoop kind) span
  | some n =>
    match around.loops.take (n + 1), around.loops[n]? with
    | inner :: crossed, some target =>
      match around.waitInside? target with
      | some wait => .violation (.jumpOutOfWait kind wait) span
      | none =>
        if n != 0 && (inner :: crossed).any (·.marked) then
          .violation (.crossLoopJump kind ((label.map Ident.name).getD "") inner.span) span
        else if target.marked then
          ⟨[], around.path.take (around.path.length - target.depth)⟩
        else .nothing
    | _, _ => .nothing

end Surroundings

/-! ## The jumps of a tree

Heads of loops, expressions and functions inside are not entered. -/

mutual

def Block.escapes (t : MarkTable) (around : Surroundings) : Block → Escapes
  | ⟨id, ss, _⟩ => Statement.listEscapes t (around.enter id) ss

def Statement.listEscapes (t : MarkTable) (around : Surroundings) : List Statement → Escapes
  | [] => .nothing
  | s :: ss => s.escapes t around ++ Statement.listEscapes t around ss

def Statement.escapes (t : MarkTable) (around : Surroundings) : Statement → Escapes
  | ⟨id, kind, span⟩ => kind.escapes t (around.enter id) (t.has id .loop) span

/-- `marked` says whether the statement is a loop that waits. -/
def StatementKind.escapes (t : MarkTable) (around : Surroundings) (marked : Bool) (span : Span) :
    StatementKind → Escapes
  | .block body => body.escapes t around
  | .wait body => body.escapes t (around.enterWait span)
  | .branch _ yes none => yes.escapes t around
  | .branch _ yes (some no) => yes.escapes t around ++ no.escapes t around
  | .switch _ arms none => Arm.listEscapes t around arms
  | .switch _ arms (some otherwise) =>
    Arm.listEscapes t around arms ++ otherwise.escapes t around
  | .loop label _ body => body.escapes t (around.enterLoop label marked span)
  | .jump kind label => around.jump kind label span
  | .declare .. | .assign .. | .expr _ | .ret _ | .func _ => .nothing

def Arm.listEscapes (t : MarkTable) (around : Surroundings) : List Arm → Escapes
  | [] => .nothing
  | ⟨_, body, _⟩ :: arms => body.escapes t around ++ Arm.listEscapes t around arms

end

end WaitDefer
