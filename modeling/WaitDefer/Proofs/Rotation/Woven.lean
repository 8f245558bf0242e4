import WaitDefer.Proofs.Marking.Ready
import WaitDefer.Proofs.Rotation.Lowering
import WaitDefer.Rotation.Wiring

/-!
# What rotation makes of a function

Rotation draws ids and names as it goes. What comes of it is said here without the drawing:

* `LoopHead.Parted`, `Expr.Resumes`: what a loop and what follows a wait-block are turned into;
* `Woven`: what a list of statements, a marked statement or an arm is turned into, and which names
  that introduces.
-/

namespace WaitDefer

/-! ## Made-up statements -/

/-- A call as a statement. -/
def Statement.callWith (i : NodeId) (call : Expr) : Statement := ⟨i, .expr call, call.span⟩

/-- What goes on with `exit`: a call, or the end of the thread. -/
def StatementKind.exiting : Option Expr → StatementKind
  | some call => .expr call
  | none => .ret none

def Statement.exitWith (i : NodeId) (exit : Option Expr) (span : Span) : Statement :=
  ⟨i, .exiting exit, (exit.map Expr.span).getD span⟩

/-- A statement that picks a block or one last statement. -/
def Statement.branchWith (i j : NodeId) (condition : Expr) (yes : Block) (no : Statement)
    (span : Span) : Statement :=
  ⟨i, .branch condition yes (some ⟨j, [no], span⟩), span⟩

/-- What a jump to a rotated loop becomes. -/
def LoopContext.lowered (loop : LoopContext) : JumpKind → StatementKind
  | .leave => .exiting loop.exit
  | .resume => .expr loop.next

section
variable (fresh : NodeId → Prop)

/-- What a counter is given, to go on with `after`. -/
inductive Expr.Resumes (span : Span) : Option Expr → Expr → Prop
  | routine {name : Ident} {place : Span} :
      Resumes span (some (.call (.ident name) [] place)) (.ident name)
  | call {call : Expr} {i j k : NodeId} (hi : fresh i) (hj : fresh j) (hk : fresh k) :
      Resumes span (some call) (.func ⟨i, none, [], ⟨j, [.callWith k call], span⟩, span⟩)
  | nothing {i j : NodeId} (hi : fresh i) (hj : fresh j) :
      Resumes span none (.func ⟨i, none, [], ⟨j, [], span⟩, span⟩)

/-- The parts of a loop with the given head and rotated body. -/
inductive LoopHead.Parted (body : Block) (restart : Expr) (exit : Statement) (span : Span) :
    LoopHead → Wiring.LoopParts → Prop
  | whileDo {condition : Expr} {i j k : NodeId} (hi : fresh i) (hj : fresh j) (hk : fresh k) :
      Parted body restart exit span (.whileDo condition)
        ⟨[], [.branchWith i j condition body exit span], [.callWith k restart]⟩
  | doWhile {condition : Expr} {i j k l : NodeId} (hi : fresh i) (hj : fresh j) (hk : fresh k)
      (hl : fresh l) :
      Parted body restart exit span (.doWhile condition)
        ⟨[], body.statements,
          [.branchWith i j condition ⟨l, [.callWith k restart], span⟩ exit span]⟩
  | counting {init update : Option Statement} {condition : Expr} {i j k : NodeId} (hi : fresh i)
      (hj : fresh j) (hk : fresh k) :
      Parted body restart exit span (.counting init (some condition) update)
        ⟨init.toList, [.branchWith i j condition body exit span],
          update.toList ++ [.callWith k restart]⟩
  | endless {init update : Option Statement} {k : NodeId} (hk : fresh k) :
      Parted body restart exit span (.counting init none update)
        ⟨init.toList, body.statements, update.toList ++ [.callWith k restart]⟩

end

/-! ## Names -/

/-- What a made-up name stands for. -/
inductive Binding
  | routine (body : List Statement)
  | counter

/-- A made-up name, what it stands for, and the names that its code may use. -/
structure Entry where
  name : String
  binding : Binding
  needs : List String

/-! ## Rotated code -/

/-- The callbacks of a block go to a counter. -/
def Block.RewrittenTo (config : Config) (counter : String) (b b' : Block) : Prop :=
  ∃ (names : NameSupply) (ids : IdSupply), names.reserved = config.reservedPrefix ∧
    b' = (b.rewrite (Callbacks.rewriting ⟨counter, config.runtime.defer, names⟩) ids).1

/-- A piece of code and what it is turned into. `tail` and `after` are what goes on from there. -/
inductive Weaving
  | run (statements : List Statement) (tail : Option Expr) (out : List Statement)
  | pivot (s : Statement) (after : Option Expr) (out : Statement)
  | arms (arms : List Arm) (after : Option Expr) (out : List Arm)
  | choice (block : Option Block) (after : Option Expr) (out : Option Block)

/-- What goes on from a piece of code. -/
def Weaving.goesOn : Weaving → Option Expr
  | run _ tail _ => tail
  | pivot _ after _ | arms _ after _ | choice _ after _ => after

section
variable (config : Config) (t : MarkTable) (max : NodeId) (fresh : NodeId → Prop)

/-- What a piece of code is turned into, with the names this introduces. `visible` are the names
its calls may use; `around` is the rotated loop next to it, if no wait-block is between. -/
inductive Woven : List String → Option LoopContext → Weaving → List Entry → Prop
  | done {visible : List String} {around : Option LoopContext} :
      Woven visible around (.run [] none []) []
  | goOn {visible : List String} {around : Option LoopContext} {call : Expr} {i : NodeId}
      (hi : fresh i) : Woven visible around (.run [] (some call) [.callWith i call]) []
  | keep {visible : List String} {around : Option LoopContext} {s : Statement}
      {ss out : List Statement} {tail : Option Expr} {entries : List Entry}
      (unmarked : t.hasAny s.id .split = false) (quiet : (Node.statement s).Quiet t)
      (closed : (Node.statement s).Closed [])
      (rest : Woven visible around (.run ss tail out) entries) :
      Woven visible around (.run (s :: ss) tail (s :: out)) entries
  | jump {visible : List String} {loop : LoopContext} {s : Statement} {ss : List Statement}
      {tail : Option Expr} {kind : JumpKind} {label : Option Ident}
      (marked : t.hasAny s.id .split = true) (isJump : s.kind = .jump kind label)
      (caught : ∀ l ∈ label, loop.label = some l.name) :
      Woven visible (some loop) (.run (s :: ss) tail [⟨s.id, loop.lowered kind, s.span⟩]) []
  | last {visible : List String} {around : Option LoopContext} {s wired : Statement}
      {tail : Option Expr} {entries : List Entry} (marked : t.hasAny s.id .split = true)
      (pivot : Woven visible around (.pivot s tail wired) entries) :
      Woven visible around (.run [s] tail [wired]) entries
  | split {visible : List String} {around : Option LoopContext} {s wired : Statement}
      {ss out : List Statement} {tail : Option Expr} {name : String} {i j k : NodeId}
      {entries more : List Entry} (marked : t.hasAny s.id .split = true) (notLast : ss ≠ [])
      (hi : fresh i) (hj : fresh j) (hk : fresh k)
      (rest : Woven visible around (.run ss tail out) entries)
      (pivot : Woven (name :: visible) around (.pivot s (some (.callNamed name s.span)) wired)
        more) :
      Woven visible around (.run (s :: ss) tail [.routineWith i j k name out s.span, wired])
        (⟨name, .routine out, visible⟩ :: (entries ++ more))
  | block {visible : List String} {around : Option LoopContext} {s : Statement} {body : Block}
      {out : List Statement} {after : Option Expr} {entries : List Entry}
      (isBlock : s.kind = .block body)
      (inner : Woven visible around (.run body.statements after out) entries) :
      Woven visible around
        (.pivot s after ⟨s.id, .block { body with statements := out }, s.span⟩) entries
  | branch {visible : List String} {around : Option LoopContext} {s : Statement} {condition : Expr}
      {yes : Block} {no no' : Option Block} {out : List Statement} {after : Option Expr}
      {entries more : List Entry} (isBranch : s.kind = .branch condition yes no)
      (inYes : Woven visible around (.run yes.statements after out) entries)
      (inNo : Woven visible around (.choice no after no') more) :
      Woven visible around (.pivot s after
        ⟨s.id, .branch condition { yes with statements := out } no', s.span⟩) (entries ++ more)
  | switch {visible : List String} {around : Option LoopContext} {s : Statement} {subject : Expr}
      {arms arms' : List Arm} {otherwise otherwise' : Option Block} {after : Option Expr}
      {entries more : List Entry} (isSwitch : s.kind = .switch subject arms otherwise)
      (inArms : Woven visible around (.arms arms after arms') entries)
      (inRest : Woven visible around (.choice otherwise after otherwise') more) :
      Woven visible around
        (.pivot s after ⟨s.id, .switch subject arms' otherwise', s.span⟩) (entries ++ more)
  | wait {visible : List String} {around : Option LoopContext} {s : Statement}
      {body body' : Block} {out : List Statement} {after : Option Expr} {counter : String}
      {value : Expr} {i : NodeId} {entries : List Entry} (isWait : s.kind = .wait body)
      (hi : fresh i) (lowers : Unused t max fresh → body.Lowers config t max body')
      (plain : body'.plain config = body.plain config)
      (rewritten : body.RewrittenTo config counter body')
      (resumes : value.Resumes fresh s.span after)
      (inner : Woven (counter :: visible) none
        (.run body'.statements
          (some (.call (.memberNamed counter config.runtime.wait s.span) [value] s.span)) out)
        entries) :
      Woven visible around
        (.pivot s after ⟨s.id, .block { body' with statements :=
          ⟨i, .declare ⟨counter, s.span⟩ (some (.callNamed config.runtime.newCounter s.span)),
            s.span⟩ :: out }, s.span⟩)
        (⟨counter, .counter, []⟩ :: entries)
  | loop {visible : List String} {around : Option LoopContext} {s : Statement}
      {label : Option Ident} {head : LoopHead} {body : Block} {out : List Statement}
      {after : Option Expr} {names : LoopNames} {parts : Wiring.LoopParts}
      {i₁ j₁ k₁ i₂ j₂ k₂ x y z : NodeId} {entries : List Entry}
      (isLoop : s.kind = .loop label head body)
      (headers : ∀ h ∈ head.statements, h.kind.isSimple = true ∧ (Node.statement h).Quiet t)
      (new : ∀ i ∈ [i₁, j₁, k₁, i₂, j₂, k₂, x, y, z], fresh i)
      (inner : Woven (names.restart :: names.next :: visible)
        (some ⟨after, .callNamed names.next s.span, label.map Ident.name⟩)
        (.run body.statements (some (.callNamed names.next s.span)) out) entries)
      (parted : head.Parted fresh { body with statements := out }
        (.callNamed names.restart s.span) (.exitWith x after s.span) s.span parts) :
      Woven visible around
        (.pivot s after ⟨s.id, .block ⟨y, parts.before ++
          [.routineWith i₁ j₁ k₁ names.restart parts.restart s.span,
            .routineWith i₂ j₂ k₂ names.next parts.next s.span,
            .callWith z (.callNamed names.restart s.span)], s.span⟩, s.span⟩)
        (⟨names.restart, .routine parts.restart, names.restart :: names.next :: visible⟩ ::
          ⟨names.next, .routine parts.next, names.restart :: names.next :: visible⟩ :: entries)
  | noArms {visible : List String} {around : Option LoopContext} {after : Option Expr} :
      Woven visible around (.arms [] after []) []
  | arm {visible : List String} {around : Option LoopContext} {a : Arm} {arms arms' : List Arm}
      {out : List Statement} {after : Option Expr} {entries more : List Entry}
      (inArm : Woven visible around (.run a.body.statements after out) entries)
      (rest : Woven visible around (.arms arms after arms') more) :
      Woven visible around
        (.arms (a :: arms) after ({ a with body := { a.body with statements := out } } :: arms'))
        (entries ++ more)
  | chosen {visible : List String} {around : Option LoopContext} {b : Block}
      {out : List Statement} {after : Option Expr} {entries : List Entry}
      (inner : Woven visible around (.run b.statements after out) entries) :
      Woven visible around (.choice (some b) after (some { b with statements := out })) entries
  | missing {visible : List String} {around : Option LoopContext} {call : Expr} {i j : NodeId}
      {span : Span} (hi : fresh i) (hj : fresh j) :
      Woven visible around
        (.choice none (some call) (some ⟨j, [.callWith i call], span⟩)) []
  | absent {visible : List String} {around : Option LoopContext} :
      Woven visible around (.choice none none none) []

end

end WaitDefer
