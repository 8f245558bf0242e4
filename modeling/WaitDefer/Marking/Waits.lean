import WaitDefer.Marking.Violation
import WaitDefer.Tree.Walk

/-! A survey of one function: where it waits, which callbacks belong to which wait-block, and which
rules it breaks that need no knowledge of jumps. Functions inside are units of their own and are
not entered. -/
namespace WaitDefer

/-- What a piece of code adds to the survey of its function. -/
structure Survey where
  /-- It is or holds a wait-block. -/
  waits : Bool
  /-- The nodes that are or hold a wait-block. -/
  awaiting : List NodeId
  /-- The number of callbacks that belong to the wait-block around it. -/
  defers : Nat
  violations : List Violation
  warnings : List EmptyWait
  /-- The statements that return a value. -/
  valueReturns : List Span
  deriving DecidableEq, Repr, Inhabited

namespace Survey

/-- Nothing found. -/
def nothing : Survey := ⟨false, [], 0, [], [], []⟩

/-- What two pieces of code add, one after the other. -/
def append (a b : Survey) : Survey where
  waits := a.waits || b.waits
  awaiting := a.awaiting ++ b.awaiting
  defers := a.defers + b.defers
  violations := a.violations ++ b.violations
  warnings := a.warnings ++ b.warnings
  valueReturns := a.valueReturns ++ b.valueReturns

instance : Append Survey := ⟨append⟩

def violation (rule : Rule) (span : Span) : Survey :=
  { nothing with violations := [⟨rule, span⟩] }

/-- The node with this id waits if what it holds does. -/
def within (id : NodeId) (s : Survey) : Survey :=
  if s.waits then { s with awaiting := id :: s.awaiting } else s

/-- The same, but whatever waits in it does not count for the code around it. -/
def apart (s : Survey) : Survey := { s with waits := false }

/-- The body of a wait-block, seen from outside: it waits, and its callbacks are its own. -/
def waiting (span : Span) (s : Survey) : Survey :=
  { s with
    waits := true
    defers := 0
    warnings := s.warnings ++ if s.defers = 0 then [⟨span⟩] else [] }

/-- A name is declared. -/
def declares (config : Config) (name : Ident) : Survey :=
  if config.isReserved name.name then
    violation (.reservedName name.name config.reservedPrefix) name.span
  else nothing

/-- The callbacks of an expression: they need a wait-block around them. -/
def ofExpr (inWait : Bool) (e : Expr) : Survey :=
  let spans := e.ownNodes.filterMap fun
    | .expr (.defer _ span) => some span
    | _ => none
  if inWait then { nothing with defers := spans.length }
  else { nothing with violations := spans.map (⟨.deferOutsideWait, ·⟩) }

def ofExpr? (inWait : Bool) : Option Expr → Survey
  | some e => ofExpr inWait e
  | none => nothing

end Survey

/-! ## The survey of a tree

`room` is how much deeper statements may nest; `inWait` says whether there is a wait-block
around. -/

open Survey

mutual

def Block.survey (config : Config) (room : Nat) (inWait : Bool) : Block → Survey
  | ⟨id, ss, _⟩ => within id (Statement.listSurvey config room inWait ss)

def Statement.listSurvey (config : Config) (room : Nat) (inWait : Bool) :
    List Statement → Survey
  | [] => nothing
  | s :: ss => s.survey config room inWait ++ Statement.listSurvey config room inWait ss

def Statement.survey (config : Config) (room : Nat) (inWait : Bool) : Statement → Survey
  | ⟨id, kind, span⟩ =>
    match room with
    | 0 => violation (.nestingTooDeep config.maxDepth) span
    | room + 1 => within id (kind.survey config room inWait span)

def StatementKind.survey (config : Config) (room : Nat) (inWait : Bool) (span : Span) :
    StatementKind → Survey
  | .declare name init => declares config name ++ ofExpr? inWait init
  | .assign target value => ofExpr inWait target ++ ofExpr inWait value
  | .expr value => ofExpr inWait value
  | .ret none => nothing
  | .ret (some value) => { nothing with valueReturns := [span] } ++ ofExpr inWait value
  | .block body => body.survey config room inWait
  | .branch condition yes none => ofExpr inWait condition ++ yes.survey config room inWait
  | .branch condition yes (some no) =>
    ofExpr inWait condition ++ yes.survey config room inWait ++ no.survey config room inWait
  | .switch subject arms none => ofExpr inWait subject ++ Arm.listSurvey config room inWait arms
  | .switch subject arms (some otherwise) =>
    ofExpr inWait subject ++ Arm.listSurvey config room inWait arms ++
      otherwise.survey config room inWait
  | .loop _ (.whileDo condition) body | .loop _ (.doWhile condition) body =>
    ofExpr inWait condition ++ body.survey config room inWait
  | .loop _ (.counting init test update) body =>
    (match init with
      | some s => apart (s.survey config room inWait)
      | none => nothing) ++
    ofExpr? inWait test ++
    (match update with
      | some s => apart (s.survey config room inWait)
      | none => nothing) ++
    body.survey config room inWait
  | .jump _ _ => nothing
  | .wait body => waiting span (body.survey config room true)
  | .func ⟨_, some name, _, _, _⟩ => declares config name
  | .func ⟨_, none, _, _, _⟩ => nothing

def Arm.listSurvey (config : Config) (room : Nat) (inWait : Bool) : List Arm → Survey
  | [] => nothing
  | ⟨test, body, _⟩ :: arms =>
    ofExpr inWait test ++ body.survey config room inWait ++
      Arm.listSurvey config room inWait arms

end

namespace Survey

/-- Only the first statement that nests too deep is reported. -/
def firstTooDeep : List Violation → List Violation
  | [] => []
  | v :: vs =>
    if v.rule.isNestingTooDeep then v :: vs.filter (!·.rule.isNestingTooDeep)
    else v :: firstTooDeep vs

end Survey

/-- The survey of a function. A function that waits must not return a value. -/
def Func.survey (config : Config) (f : Func) : Survey :=
  let names := (f.name.toList ++ f.params).map (declares config)
  let body := f.body.survey config config.maxDepth false
  let s := names.foldr (· ++ ·) body
  { s with
    violations := firstTooDeep s.violations ++
      if s.waits then s.valueReturns.map (⟨.valueReturn f.displayName, ·⟩) else [] }

end WaitDefer
