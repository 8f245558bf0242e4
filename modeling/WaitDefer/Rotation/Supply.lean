import WaitDefer.Tree.Ids

/-! What rotation draws on: fresh ids and made-up names. One counter numbers all names, and a loop
or wait-block takes one number for all its names. -/
namespace WaitDefer

/-- The next number for a made-up name, and how all of them begin. -/
structure NameSupply where
  reserved : String
  next : Nat
  deriving DecidableEq, Repr, Inhabited

/-- The routines of a loop: one runs a round, the other goes on to the next. -/
structure LoopNames where
  restart : String
  next : String
  deriving DecidableEq, Repr, Inhabited

namespace NameSupply

def new (reserved : String) : NameSupply := ⟨reserved, 1⟩

/-- A made-up name. -/
def name (s : NameSupply) (stem : String) (n : Nat) : String := s.reserved ++ stem ++ toString n

def advance (s : NameSupply) : NameSupply := { s with next := s.next + 1 }

/-- The name of a routine that runs what follows a split. -/
def continuation (s : NameSupply) : String × NameSupply := (s.name "k" s.next, s.advance)

/-- The name of a wait-block's counter. -/
def counter (s : NameSupply) : String × NameSupply := (s.name "deferrals" s.next, s.advance)

/-- The names of a loop's routines. -/
def loopRoutines (s : NameSupply) : LoopNames × NameSupply :=
  (⟨s.name "loop" s.next, s.name "next" s.next⟩, s.advance)

/-- The name of a callback's parameter. -/
def argument (s : NameSupply) (index : Nat) : String := s.name "a" index

end NameSupply

/-- Fresh ids and names. -/
structure Supply where
  ids : IdSupply
  names : NameSupply
  deriving DecidableEq, Repr, Inhabited

/-- What breaks inside the transform. No function that was marked should lead to one of these. -/
inductive Flaw
  | jumpWithoutLoop (kind : JumpKind)
  | residualMark (id : NodeId) (kind : String)
  | unexpectedSplit (id : NodeId) (kind : String)
  | unlowered (what : String)
  | idsExhausted (max : NodeId)
  deriving DecidableEq, Repr, Inhabited

/-- A flaw and where it shows. -/
structure InternalError where
  flaw : Flaw
  span : Span
  deriving DecidableEq, Repr, Inhabited

namespace InternalError

def message (e : InternalError) : String :=
  match e.flaw with
  | .jumpWithoutLoop kind =>
    "marked '" ++ kind.keyword.text ++ "' at " ++ e.span.place ++ " has no enclosing rotated loop"
  | .residualMark id kind =>
    "marked " ++ kind ++ " statement " ++ id.text ++ " is not the last statement of its block"
  | .unexpectedSplit id kind => kind ++ " statement " ++ id.text ++ " cannot be a split point"
  | .unlowered what => what ++ " survived rotation"
  | .idsExhausted max => "node ids exhausted: the input already uses ids up to " ++ max.text

def code (e : InternalError) : String :=
  match e.flaw with
  | .jumpWithoutLoop _ => "E9001"
  | .residualMark .. => "E9002"
  | .unexpectedSplit .. => "E9003"
  | .unlowered _ => "E9004"
  | .idsExhausted _ => "E9005"

end InternalError

/-- A step of rotation: it draws on the supply, also when it fails. -/
abbrev Rotation := ExceptT InternalError (StateM Supply)

namespace Rotation

/-- Draws ids. -/
def drawIds (m : StateM IdSupply α) : Rotation α := fun s =>
  let r := m s.ids
  (.ok r.1, { s with ids := r.2 })

/-- Draws a name. -/
def drawName (f : NameSupply → α × NameSupply) : Rotation α := fun s =>
  let r := f s.names
  (.ok r.1, { s with names := r.2 })

/-- Asks the names without drawing one. -/
def names : Rotation NameSupply := fun s => (.ok s.names, s)

end Rotation
end WaitDefer
