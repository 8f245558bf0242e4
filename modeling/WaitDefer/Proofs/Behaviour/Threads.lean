import Mathlib.Logic.Relation
import WaitDefer.Proofs.Tree.Plain

/-!
# Threads

How code runs when the user's own expressions and statements are not looked into. What can be seen
of a run is which of them come up, and in which order; what an expression comes to is up to an
oracle. A wait-block runs what is in it and then goes on, and a counter calls what it is given at
once.

* `Statement.move`, `Task.move`: what comes next, without regard to what made-up names stand for;
* `Thread.step`: one step of a thread, with the routines and counters that names are bound to;
* `Thread.Alike`: two threads that cannot be told apart.
-/

namespace WaitDefer

/-! ## Events -/

/-- What can be seen of a run: a statement of the user's that holds no other is run, or an
expression is asked for the way to go on. Both are in plain form. -/
inductive Event
  | run (s : Statement)
  | ask (e : Expr)

/-- What an expression comes to, given all events so far. The latest event is the first one, and
asks the expression. -/
abbrev Oracle := List Event → Bool

/-! ## What is still to be done -/

/-- A loop that is being run. -/
structure Rounds where
  label : Option Ident
  head : LoopHead
  body : Block

/-- The statement that follows each round of a counting loop. -/
def LoopHead.update? : LoopHead → Option Statement
  | .counting _ _ update => update
  | .whileDo _ | .doWhile _ => none

/-- A part of what is still to be done. -/
inductive Task
  | statements (ss : List Statement)
  /-- The arms of a switch of which none was taken so far. -/
  | switch (arms : List Arm) (otherwise : Option Block)
  /-- A loop whose test comes next. -/
  | test (loop : Rounds)
  /-- The loop around what is done before. -/
  | around (loop : Rounds)

namespace Task

def block (b : Block) : Task := statements b.statements

def single (s : Statement) : Task := statements [s]

end Task

namespace Rounds

/-- A jump with this label leads to the loop, unless it leads to a loop inside. -/
def catches (loop : Rounds) (label : Option Ident) : Bool :=
  label.all fun l => loop.label.map Ident.name == some l.name

/-- One round. -/
def round (loop : Rounds) : List Task := [.block loop.body, .around loop]

/-- From the end of a round on. -/
def next (loop : Rounds) : List Task := loop.head.update?.toList.map .single ++ [.test loop]

/-- The loop from its start on. -/
def start (loop : Rounds) : List Task :=
  match loop.head with
  | .whileDo _ => [.test loop]
  | .doWhile _ => loop.round
  | .counting init _ _ => init.toList.map .single ++ [.test loop]

/-- What a jump to the loop leaves to be done, where `todo` follows the loop. -/
def after (loop : Rounds) (todo : List Task) : JumpKind → List Task
  | .leave => todo
  | .resume => .around loop :: todo

end Rounds

/-- What a jump leaves to be done. -/
def Task.jump (kind : JumpKind) (label : Option Ident) : List Task → Option (List Task)
  | [] => none
  | .around loop :: todo =>
    if loop.catches label then some (loop.after todo kind) else Task.jump kind label todo
  | _ :: todo => Task.jump kind label todo

/-! ## Moves -/

/-- What comes next, and what is to be done after it. -/
inductive Move
  | go (todo : List Task)
  | event (e : Event) (todo : List Task)
  /-- An expression is asked, and the rest depends on what it comes to. -/
  | choose (e : Expr) (yes no : List Task)
  /-- The activation ends. -/
  | leave (e : Option Event)
  /-- A routine is declared. -/
  | declare (name : String) (body : List Statement) (todo : List Task)
  /-- A counter is made. -/
  | create (name : String) (todo : List Task)
  | call (callee : Expr) (todo : List Task)
  /-- A counter is given what to call. -/
  | wait (counter : String) (callee : Expr) (todo : List Task)

/-- The move with something else to be done after it. -/
def Move.map (f : List Task → List Task) : Move → Move
  | go todo => go (f todo)
  | event e todo => event e (f todo)
  | choose e yes no => choose e (f yes) (f no)
  | leave e => leave e
  | declare name body todo => declare name body (f todo)
  | create name todo => create name (f todo)
  | call callee todo => call callee (f todo)
  | wait counter callee todo => wait counter callee (f todo)

/-- How statements are read: what the runtime is called, and which ids are those of statements of
the user's that hold no other statement. -/
structure Reading where
  config : Config
  given : NodeId → Bool

/-- A statement that holds no other one and is no jump. -/
def StatementKind.isLeaf : StatementKind → Bool
  | declare .. | assign .. | expr _ | ret _ | func _ => true
  | _ => false

/-- What a made-up statement does. -/
def StatementKind.made (config : Config) : StatementKind → Option Move
  | declare _ none => some (.go [])
  | declare name (some (.call (.ident maker) [] _)) =>
    if maker.name = config.runtime.newCounter then some (.create name.name []) else none
  | func ⟨_, some name, [], body, _⟩ => some (.declare name.name body.statements [])
  | expr (.call (.ident routine) [] _) => some (.call (.ident routine) [])
  | expr (.call (.member (.ident counter) method _) [callee] _) =>
    if method.name = config.runtime.wait then some (.wait counter.name callee []) else none
  | _ => none

/-- What a statement does, other than a jump. -/
def Statement.move (r : Reading) (s : Statement) : Option Move :=
  match s.kind with
  | .block body | .wait body => some (.go [.block body])
  | .branch condition yes no =>
    some (.choose (condition.plain r.config) [.block yes] (no.toList.map .block))
  | .switch subject arms otherwise =>
    some (.event (.ask (subject.plain r.config)) [.switch arms otherwise])
  | .loop label head body => some (.go (Rounds.start ⟨label, head, body⟩))
  | .jump .. => none
  | .ret none => some (.leave none)
  | .ret (some _) => if r.given s.id then some (.leave (some (.run (s.plain r.config)))) else none
  | kind =>
    if r.given s.id then some (.event (.run (s.plain r.config)) []) else kind.made r.config

/-- What comes next. Where nothing is left to be done, the activation ends. -/
def Task.move (r : Reading) : List Task → Option Move
  | [] => some (.leave none)
  | .statements [] :: todo => some (.go todo)
  | .statements (s :: ss) :: todo =>
    match s.kind with
    | .jump kind label => (Task.jump kind label todo).map .go
    | _ => (s.move r).map (.map (· ++ .statements ss :: todo))
  | .switch [] otherwise :: todo => some (.go (otherwise.toList.map .block ++ todo))
  | .switch (a :: arms) otherwise :: todo =>
    some (.choose (a.test.plain r.config) (.block a.body :: todo) (.switch arms otherwise :: todo))
  | .test loop :: todo =>
    match loop.head.test? with
    | some condition => some (.choose (condition.plain r.config) (loop.round ++ todo) todo)
    | none => some (.go (loop.round ++ todo))
  | .around loop :: todo => some (.go (loop.next ++ todo))

/-! ## Names -/

/-- The activations whose names a piece of code sees, its own first. -/
abbrev Sight := List Nat

/-- What a made-up name is bound to. -/
inductive Value
  | routine (body : List Statement) (home : Sight)
  | counter

/-- The made-up names of each activation. -/
abbrev Store := List (List (String × Value))

namespace Store

def find (store : Store) (sight : Sight) (name : String) : Option Value :=
  sight.findSome? fun a => (store.getD a []).lookup name

/-- Binds a name in the code's own activation. -/
def bind (store : Store) (sight : Sight) (name : String) (value : Value) : Store :=
  match sight with
  | [] => store
  | a :: _ => store.modify a ((name, value) :: ·)

/-- The code that a callee stands for, and what it sees. -/
def routine (store : Store) (sight : Sight) : Expr → Option (List Statement × Sight)
  | .ident name =>
    match store.find sight name.name with
    | some (.routine body home) => some (body, home)
    | _ => none
  | .func ⟨_, none, [], body, _⟩ => some (body.statements, sight)
  | _ => none

end Store

/-! ## Threads -/

/-- A running activation. -/
structure Frame where
  todo : List Task
  sight : Sight

/-- The running activations, the innermost first; the activations that ever were; and the events,
the latest first. -/
structure Thread where
  frames : List Frame
  store : Store
  events : List Event

namespace Thread

/-- An activation with this to do goes on. -/
def resume (t : Thread) (todo : List Task) (sight : Sight) : Thread :=
  { t with frames := ⟨todo, sight⟩ :: t.frames }

def see (t : Thread) (e : Event) : Thread := { t with events := e :: t.events }

def bind (t : Thread) (sight : Sight) (name : String) (value : Value) : Thread :=
  { t with store := t.store.bind sight name value }

/-- A new activation runs what is called. -/
def enter (t : Thread) (sight : Sight) (callee : Expr) : Option Thread :=
  (t.store.routine sight callee).map fun r =>
    { t with
      frames := ⟨[.statements r.1], t.store.length :: r.2⟩ :: t.frames
      store := t.store ++ [[]] }

/-- What a move of the innermost activation leads to. The thread is given without it. -/
def perform (oracle : Oracle) (t : Thread) (sight : Sight) : Move → Option Thread
  | .go todo => some (t.resume todo sight)
  | .event e todo => some ((t.see e).resume todo sight)
  | .choose e yes no =>
    let asked := t.see (.ask e)
    some (asked.resume (if oracle asked.events then yes else no) sight)
  | .leave none => some t
  | .leave (some e) => some (t.see e)
  | .declare name body todo => some ((t.bind sight name (.routine body sight)).resume todo sight)
  | .create name todo => some ((t.bind sight name .counter).resume todo sight)
  | .call callee todo => (t.resume todo sight).enter sight callee
  | .wait counter callee todo =>
    match t.store.find sight counter with
    | some .counter => (t.resume todo sight).enter sight callee
    | _ => none

/-- One step. A thread without activations has ended; one with activations that has no step is
stuck. -/
def step (r : Reading) (oracle : Oracle) (t : Thread) : Option Thread :=
  match t.frames with
  | [] => none
  | frame :: callers =>
    (Task.move r frame.todo).bind (perform oracle { t with frames := callers } frame.sight)

/-- Any number of steps. -/
def Reaches (r : Reading) (oracle : Oracle) : Thread → Thread → Prop :=
  Relation.ReflTransGen fun t u => t.step r oracle = some u

/-- Two threads that cannot be told apart: the same events come up in the same order, none of them
gets stuck, and if one ends, so does the other, after the same events. -/
structure Alike (r : Reading) (oracle : Oracle) (t u : Thread) : Prop where
  events : ∀ es, (∃ t', t.Reaches r oracle t' ∧ es <:+ t'.events) ↔
    ∃ u', u.Reaches r oracle u' ∧ es <:+ u'.events
  ends : ∀ es, (∃ t', t.Reaches r oracle t' ∧ t'.frames = [] ∧ t'.events = es) ↔
    ∃ u', u.Reaches r oracle u' ∧ u'.frames = [] ∧ u'.events = es
  goesOn : ∀ t', t.Reaches r oracle t' → t'.frames ≠ [] → (t'.step r oracle).isSome
  alsoGoesOn : ∀ u', u.Reaches r oracle u' → u'.frames ≠ [] → (u'.step r oracle).isSome

end Thread

namespace Func

/-- The ids of the statements that hold no other one and are no jumps. -/
def leafIds (f : Func) : List NodeId :=
  f.body.ownNodes.filterMap fun
    | .statement s => if s.kind.isLeaf then some s.id else none
    | _ => none

/-- The code that is made of a function is read by what the function holds. -/
def reading (config : Config) (f : Func) : Reading := ⟨config, f.leafIds.contains⟩

/-- A call of a function. -/
def thread (f : Func) : Thread := ⟨[⟨[.block f.body], [0]⟩], [[]], []⟩

end Func

end WaitDefer
