import Mathlib.Data.Multiset.Bind
import WaitDefer.Proofs.Rotation.Taking
import WaitDefer.Proofs.Rotation.Weaving

/-!
# What rotation makes of any code

Rotation may be run on code that breaks the rules, with marks that are wrong. Where it succeeds
nevertheless, this module says what came of it, and what was taken from the supply for it:

* `Block.Lowered`: the body of a wait-block without its callbacks;
* `Expr.ResumesBy`: what a counter is given to go on with, a function that may be copied with it;
* `Turned`: what a list of statements, a marked statement or an arm is turned into;
* `Block.gives_rotateTo`: whatever rotation makes of a block, the block is turned into it.
-/

namespace WaitDefer

open Build Rotation

/-! ## Callbacks -/

/-- What new nodes may count for: at most what is charged for the ids and names they were given. A
function that only goes on with what follows a wait-block may be copied, so it must not count. -/
structure Weighing.Charges {β : Type} (w : Weighing β) (reserved : String) (new : NodeId → Prop)
    (ofId : NodeId → Multiset β) (ofName : String → Multiset β) : Prop where
  block : ∀ i, w.block i ≤ ofId i
  statement : ∀ i, w.statement i [] [] [] ≤ ofId i
  assignment : ∀ i x, w.statement i [] [] [x] ≤ ofId i + w.binding x
  callback : ∀ i params, (∀ p ∈ params, ∃ n, p.name = reserved ++ "a" ++ toString (n : Nat)) →
    w.func i none params ≤ ofId i
  routine : ∀ i j name span, w.statement i [] [⟨name, span⟩] [] + w.func j (some ⟨name, span⟩) [] ≤
    ofId i + ofId j + ofName name
  counter : ∀ i name span, w.statement i [⟨name, span⟩] [] [] ≤ ofId i + ofName name
  continuation : ∀ i j body span, new i →
    (∀ s ∈ body, ∃ k call, s = .callWith k call ∧ w.ofExpr call = 0) →
      w.ofExpr (.func ⟨i, none, [], ⟨j, body, span⟩, span⟩) = 0

/-- A block and what is left of it without its callbacks. -/
structure Block.Lowered (config : Config) (counter : String) (b b' : Block)
    (ids : Multiset NodeId) : Prop where
  rewritten : ∃ (names : NameSupply) (s s' : IdSupply), names.reserved = config.reservedPrefix ∧
    b.rewrite (Callbacks.rewriting ⟨counter, config.runtime.defer, names⟩) s = (b', s') ∧
      s.Proper ∧ s'.exhausted = false ∧ ids = s.between s'
  weight : ∀ {β : Type} (w : Weighing β) (new : NodeId → Prop) (ofId : NodeId → Multiset β)
    (ofName : String → Multiset β), w.Charges config.reservedPrefix new ofId ofName →
      w.ofBlock b' ≤ w.ofBlock b + ids.bind ofId

/-- What the ids taken are charged for. -/
def Build.charging {β : Type} (ofId : NodeId → Multiset β) : Spending IdSupply β where
  Of x P := Takes x fun ids a => P (ids.bind ofId) a
  pure h := .pure (by simpa using h)
  bind hx hf := hx.bind fun a => (hf a).weaken fun more b q ids p => by
    rw [Multiset.add_bind]
    exact q _ p

section
variable {β : Type} {w : Weighing β} {reserved : String} {new : NodeId → Prop}
  {ofId : NodeId → Multiset β} {ofName : String → Multiset β}

theorem Build.weighs_iff {α : Type} {x : Draw α} {before : Multiset β} {weight : α → Multiset β} :
    (charging ofId).Weighs x before weight ↔
      Takes x fun ids a => weight a ≤ before + ids.bind ofId := Iff.rfl

theorem Build.rewrites_iff {c : Callbacks} {e : Expr} :
    (charging ofId).Rewrites w c.rewriting e ↔ Takes (e.rewrite c.rewriting) fun ids e' =>
      w.ofExpr e' ≤ w.ofExpr e + ids.bind ofId ∧ e'.named = e.named := Iff.rfl

theorem Weighing.ident_eq (w : Weighing β) (name : Ident) : w.ofExpr (.ident name) = 0 := by
  simp [w.expr_eq, Expr.bound, Expr.operands, Expr.functions]

theorem Weighing.memberNamed_eq (w : Weighing β) (object property : String) (span : Span) :
    w.ofExpr (.memberNamed object property span) = 0 := by
  simp [w.expr_eq (.member ..), Expr.memberNamed, Expr.bound, Expr.operands, Expr.functions,
    w.ident_eq]

theorem Weighing.callNamed_eq (w : Weighing β) (name : String) (span : Span) :
    w.ofExpr (.callNamed name span) = 0 := by
  simp [w.expr_eq (.call ..), Expr.callNamed, Expr.bound, Expr.operands, Expr.functions,
    w.ident_eq]

theorem Weighing.call_eq (w : Weighing β) (callee argument : Expr) (span : Span) :
    w.ofExpr (.call callee [argument] span) = w.ofExpr callee + w.ofExpr argument := by
  simp [w.expr_eq (.call ..), Expr.bound, Expr.operands, Expr.functions]

/-- A statement without blocks or statements inside weighs what its expressions weigh. -/
theorem Weighing.leaf_eq (w : Weighing β) (i : NodeId) {kind : StatementKind} (span : Span)
    (tests : kind.tests = []) (headers : kind.headers = []) (blocks : kind.blocks = [])
    (functions : kind.functions = []) :
    w.ofStatement ⟨i, kind, span⟩ =
      w.statement i kind.declared kind.titled kind.assigned + bagOf w.ofExpr kind.operands := by
  simp [w.statement_eq, Weighing.ofKind, tests, headers, blocks, functions]

theorem Callbacks.names_params (c : Callbacks) (index : Nat) (bindings : List Ident) :
    (c.params index bindings).map Ident.name =
      (List.range' index bindings.length).map c.names.argument := by
  induction bindings generalizing index with
  | nil => rfl
  | cons b bs ih =>
    rw [params, List.map_cons, ih]
    rfl

/-- The parameters of a callback are numbered. -/
theorem Callbacks.exists_argument {c : Callbacks} {index : Nat} {bindings : List Ident} {p : Ident}
    (hp : p ∈ c.params index bindings) :
    ∃ n, p.name = c.names.reserved ++ "a" ++ toString (n : Nat) := by
  have named := List.mem_map_of_mem hp (f := Ident.name)
  rw [names_params] at named
  obtain ⟨n, -, same⟩ := List.mem_map.mp named
  exact ⟨n, same.symm⟩

theorem Callbacks.takes_assignments (charges : w.Charges reserved new ofId ofName)
    (bindings params : List Ident) :
    (charging ofId).Weighs (assignments bindings params) (bagOf w.binding bindings)
      (bagOf w.ofStatement) := by
  unfold assignments
  induction bindings generalizing params with
  | nil => exact (charging ofId).pure (by simp)
  | cons b bs ih =>
    cases params with
    | nil => exact (charging ofId).pure (Multiset.zero_le _)
    | cons p ps =>
      rw [List.zip_cons_cons, List.mapM_cons, bagOf_cons]
      have first : (charging ofId).Weighs
          (Build.statement (.assign (.ident b) (.ident p)) b.span) (w.binding b) w.ofStatement := by
        refine weighs_iff.mpr ((takes_statement _ _).weaken ?_)
        rintro _ _ ⟨i, rfl, rfl⟩
        rw [w.leaf_eq i _ rfl rfl rfl rfl, add_comm (w.binding b)]
        simpa [StatementKind.operands, StatementKind.declared, StatementKind.titled,
          StatementKind.assigned, Expr.named, w.ident_eq] using charges.assignment i b
      exact first.both (ih ps) fun a d => bagOf_cons (f := w.ofStatement) a d

/-- A callback weighs no more than the names it binds and the ids taken for it. -/
theorem Callbacks.takes_lower (charges : w.Charges reserved new ofId ofName) {c : Callbacks}
    (same : c.names.reserved = reserved) (bindings : List Ident) (span : Span) :
    Takes (c.lower bindings span) fun ids e =>
      w.ofExpr e ≤ bagOf w.binding bindings + ids.bind ofId ∧ e.named = [] := by
  unfold lower
  dsimp only
  split
  · have weightless : w.ofExpr (.call (.memberNamed c.counter c.method span) [] span) = 0 := by
      simp [w.expr_eq (.call ..), Expr.bound, Expr.operands, Expr.functions, w.memberNamed_eq]
    exact .pure ⟨weightless ▸ Multiset.zero_le _, rfl⟩
  · refine (weighs_iff.mp (takes_assignments charges _ _)).bind fun ss => ?_
    refine Takes.bind (takes_closure _ _ _) fun e => .pure ?_
    rintro _ ⟨i, j, rfl, rfl⟩ ids assigns
    have params := charges.callback i (c.params 0 bindings) fun p hp =>
      same ▸ exists_argument hp
    have closure : w.ofExpr (.func ⟨i, none, c.params 0 bindings, ⟨j, ss, span⟩, span⟩) ≤
        ofId i + (ofId j + (bagOf w.binding bindings + ids.bind ofId)) := by
      rw [w.expr_eq]
      simp only [Expr.bound, Expr.operands, Expr.functions, bagOf_nil, bagOf_cons, zero_add,
        add_zero, w.func_eq]
      split
      · refine add_le_add params ?_
        rw [w.block_eq]
        exact add_le_add (charges.block j) assigns
      · exact Multiset.zero_le _
    refine ⟨?_, rfl⟩
    rw [w.call_eq, w.memberNamed_eq, zero_add]
    refine closure.trans_eq ?_
    simp only [add_zero, Multiset.add_bind, Multiset.singleton_bind]
    abel

theorem Expr.takes_rewrite (charges : w.Charges reserved new ofId ofName) {c : Callbacks}
    (same : c.names.reserved = reserved) (e : Expr) :
    (charging ofId).Rewrites w c.rewriting e := by
  induction e using Expr.inductOn with
  | step e ih =>
    cases isDefer : e.isDefer with
    | true =>
      cases e with
      | defer bindings span =>
        refine rewrites_iff.mpr ((Callbacks.takes_lower charges same bindings span).weaken ?_)
        intro ids e' both
        simpa [w.expr_eq (.defer ..), Expr.bound, Expr.operands, Expr.functions, named] using both
      | _ => cases isDefer
    | false =>
      have keeps : ∀ inner, c.rewriting.expr e inner = inner := by
        intro inner
        rw [Callbacks.rewriting_expr]
        cases e <;> first | rfl | cases isDefer
      refine weighs_rewrite keeps (fun o ho => (ih o ho).weighs) fun f _ => ?_
      rw [Callbacks.rewrite_func]
      exact (charging ofId).pure (by simp)

theorem Block.takes_rewrite (charges : w.Charges reserved new ofId ofName) {c : Callbacks}
    (same : c.names.reserved = reserved) (b : Block) :
    (charging ofId).Weighs (b.rewrite c.rewriting) (w.ofBlock b) w.ofBlock := by
  induction b using Block.inductOn (Q := fun s : Statement =>
      (charging ofId).Weighs (s.rewrite c.rewriting) (w.ofStatement s) w.ofStatement) with
  | block b ih =>
    obtain ⟨id, ss, span⟩ := b
    refine (charging ofId).andReturn (Statement.weighs_listRewrite ih) fun used ss' le => ?_
    rw [w.block_eq, w.block_eq, add_assoc]
    exact add_le_add_right le _
  | statement s headers blocks =>
    obtain ⟨id, kind, span⟩ := s
    cases isWait : kind.isWait with
    | true =>
      obtain ⟨body, rfl⟩ : ∃ body, kind = .wait body := by
        cases kind <;> simp_all [StatementKind.isWait]
      exact (charging ofId).pure (by simp)
    | false =>
      have rewritten : Statement.rewrite c.rewriting ⟨id, kind, span⟩ = do
          return ⟨id, ← kind.rewrite c.rewriting, span⟩ := by
        cases kind <;> first | rfl | cases isWait
      rw [rewritten]
      refine (charging ofId).andReturn (StatementKind.weighs_rewrite
        (fun e _ => Expr.takes_rewrite charges same e) headers blocks fun f _ => ?_)
        fun used k' kept => ?_
      · rw [Callbacks.rewrite_func]
        exact (charging ofId).pure ⟨by simp, rfl⟩
      · obtain ⟨le, declared, titled, assigned⟩ := kept
        rw [w.statement_eq, w.statement_eq]
        simp only [declared, titled, assigned]
        rw [add_assoc]
        exact add_le_add_right le _

end

/-! ## Continuations -/

/-- The ids of a function and of its own code. -/
def Func.unitIds (f : Func) : List NodeId := f.id :: (Node.block f.body).ownIds

/-- The ids of some functions and of their own code. -/
def unitIdsOf (fs : Multiset Func) : Multiset NodeId := fs.bind fun f => ↑f.unitIds

@[simp] theorem unitIdsOf_zero : unitIdsOf 0 = 0 := Multiset.zero_bind _

@[simp] theorem unitIdsOf_add (fs gs : Multiset Func) :
    unitIdsOf (fs + gs) = unitIdsOf fs + unitIdsOf gs := Multiset.add_bind fs gs _

@[simp] theorem unitIdsOf_singleton (f : Func) : unitIdsOf {f} = ↑f.unitIds :=
  Multiset.singleton_bind f _

/-- A function that goes on with a call, or with nothing. -/
def Func.continuation (i j k : NodeId) (after : Option Expr) (span : Span) : Func :=
  ⟨i, none, [], ⟨j, after.toList.map (Statement.callWith k), span⟩, span⟩

theorem Func.unitIds_continuation_some (i j k : NodeId) (call : Expr) (span : Span) :
    (continuation i j k (some call) span).unitIds = [i, j, k] := by
  have leaf : (Node.statement (.callWith k call)).ownIds = [k] :=
    List.perm_singleton.mp (Node.ownIds_statement _)
  rw [unitIds, Node.ownIds_block, Node.children, continuation, Option.toList_some, List.map_singleton,
    List.map_singleton, List.flatMap_singleton, leaf]

theorem Func.unitIds_continuation_none (i j k : NodeId) (span : Span) :
    (continuation i j k none span).unitIds = [i, j] := rfl

/-- What a counter is given to go on with, and the functions made for it. -/
inductive Expr.ResumesBy (span : Span) : Option Expr → Expr → Multiset Func → Prop
  | routine {name : Ident} {place : Span} :
      ResumesBy span (some (.call (.ident name) [] place)) (.ident name) 0
  | continuation {after : Option Expr} (i j k : NodeId) :
      ResumesBy span after (.func (.continuation i j k after span)) {.continuation i j k after span}

theorem Expr.ResumesBy.resumes {span : Span} {after : Option Expr} {value : Expr}
    {made : Multiset Func} (h : value.ResumesBy span after made) :
    value.Resumes (· ∈ unitIdsOf made) span after := by
  cases h with
  | routine => exact .routine
  | continuation i j k =>
    cases after with
    | none =>
      have ids : ∀ x ∈ [i, j], x ∈ unitIdsOf {.continuation i j k none span} := by
        rw [unitIdsOf_singleton, Func.unitIds_continuation_none]
        exact fun x hx => hx
      exact .nothing (ids i (by simp)) (ids j (by simp))
    | some call =>
      have ids : ∀ x ∈ [i, j, k], x ∈ unitIdsOf {.continuation i j k (some call) span} := by
        rw [unitIdsOf_singleton, Func.unitIds_continuation_some]
        exact fun x hx => hx
      exact .call (ids i (by simp)) (ids j (by simp)) (ids k (by simp))

/-! ## Rotated code -/

/-- The parts of a loop with the given head and rotated body, and the ids taken for them. -/
inductive LoopHead.Pieces (body : Block) (restart : Expr) (exit : Statement) (span : Span) :
    LoopHead → Wiring.LoopParts → Multiset NodeId → Prop
  | whileDo {condition : Expr} {i j k : NodeId} :
      Pieces body restart exit span (.whileDo condition)
        ⟨[], [.branchWith i j condition body exit span], [.callWith k restart]⟩ ({i} + {j} + {k})
  | doWhile {condition : Expr} {i j k l : NodeId} :
      Pieces body restart exit span (.doWhile condition)
        ⟨[], body.statements,
          [.branchWith i j condition ⟨l, [.callWith k restart], span⟩ exit span]⟩
        ({i} + {j} + {k} + {l})
  | counting {init update : Option Statement} {condition : Expr} {i j k : NodeId} :
      Pieces body restart exit span (.counting init (some condition) update)
        ⟨init.toList, [.branchWith i j condition body exit span],
          update.toList ++ [.callWith k restart]⟩ ({i} + {j} + {k})
  | endless {init update : Option Statement} {k : NodeId} :
      Pieces body restart exit span (.counting init none update)
        ⟨init.toList, body.statements, update.toList ++ [.callWith k restart]⟩ {k}

section
variable (config : Config) (t : MarkTable)

/-- What a piece of code is turned into inside the loops around it, with the ids and the names
taken for this, and the functions that may be copied among what was made. -/
inductive Turned :
    LoopStack → Weaving → Multiset NodeId → Multiset String → Multiset Func → Prop
  | done {loops : LoopStack} : Turned loops (.run [] none []) 0 0 0
  | goOn {loops : LoopStack} {call : Expr} {i : NodeId} :
      Turned loops (.run [] (some call) [.callWith i call]) {i} 0 0
  | keep {loops : LoopStack} {s : Statement} {ss out : List Statement} {tail : Option Expr}
      {ids : Multiset NodeId} {names : Multiset String} {made : Multiset Func}
      (unmarked : t.hasAny s.id .split = false)
      (rest : Turned loops (.run ss tail out) ids names made) :
      Turned loops (.run (s :: ss) tail (s :: out)) ids names made
  | jump {loops : LoopStack} {loop : LoopContext} {s : Statement} {ss : List Statement}
      {tail : Option Expr} {kind : JumpKind} {label : Option Ident}
      (isJump : s.kind = .jump kind label)
      (target : loops.target? (label.map Ident.name) = some loop) :
      Turned loops (.run (s :: ss) tail [⟨s.id, loop.lowered kind, s.span⟩]) 0 0 0
  | last {loops : LoopStack} {s wired : Statement} {tail : Option Expr} {ids : Multiset NodeId}
      {names : Multiset String} {made : Multiset Func} (marked : t.hasAny s.id .split = true)
      (pivot : Turned loops (.pivot s tail wired) ids names made) :
      Turned loops (.run [s] tail [wired]) ids names made
  | split {loops : LoopStack} {s wired : Statement} {ss out : List Statement} {tail : Option Expr}
      {name : String} {i j k : NodeId} {ids more : Multiset NodeId} {names others : Multiset String}
      {made further : Multiset Func} (marked : t.hasAny s.id .split = true)
      (rest : Turned loops (.run ss tail out) ids names made)
      (pivot : Turned loops (.pivot s (some (.callNamed name s.span)) wired) more others further) :
      Turned loops (.run (s :: ss) tail [.routineWith i j k name out s.span, wired])
        (ids + ({i} + {j} + {k}) + more) ({name} + (names + others)) (made + further)
  | block {loops : LoopStack} {s : Statement} {body : Block} {out : List Statement}
      {after : Option Expr} {ids : Multiset NodeId} {names : Multiset String} {made : Multiset Func}
      (isBlock : s.kind = .block body)
      (inner : Turned loops (.run body.statements after out) ids names made) :
      Turned loops (.pivot s after ⟨s.id, .block { body with statements := out }, s.span⟩) ids names
        made
  | branch {loops : LoopStack} {s : Statement} {condition : Expr} {yes : Block}
      {no no' : Option Block} {out : List Statement} {after : Option Expr}
      {ids more : Multiset NodeId} {names others : Multiset String} {made further : Multiset Func}
      (isBranch : s.kind = .branch condition yes no)
      (inYes : Turned loops (.run yes.statements after out) ids names made)
      (inNo : Turned loops (.choice no after no') more others further) :
      Turned loops
        (.pivot s after ⟨s.id, .branch condition { yes with statements := out } no', s.span⟩)
        (ids + more) (names + others) (made + further)
  | switch {loops : LoopStack} {s : Statement} {subject : Expr} {arms arms' : List Arm}
      {otherwise otherwise' : Option Block} {after : Option Expr} {ids more : Multiset NodeId}
      {names others : Multiset String} {made further : Multiset Func}
      (isSwitch : s.kind = .switch subject arms otherwise)
      (inArms : Turned loops (.arms arms after arms') ids names made)
      (inRest : Turned loops (.choice otherwise after otherwise') more others further) :
      Turned loops (.pivot s after ⟨s.id, .switch subject arms' otherwise', s.span⟩) (ids + more)
        (names + others) (made + further)
  | wait {loops : LoopStack} {s : Statement} {body body' : Block} {out : List Statement}
      {after : Option Expr} {counter : String} {value : Expr} {i : NodeId}
      {given ids : Multiset NodeId} {names : Multiset String} {made here : Multiset Func}
      (isWait : s.kind = .wait body) (lowered : body.Lowered config counter body' given)
      (resumes : value.ResumesBy s.span after here)
      (inner : Turned loops
        (.run body'.statements
          (some (.call (.memberNamed counter config.runtime.wait s.span) [value] s.span)) out)
        ids names made) :
      Turned loops
        (.pivot s after ⟨s.id, .block { body' with statements :=
          ⟨i, .declare ⟨counter, s.span⟩ (some (.callNamed config.runtime.newCounter s.span)),
            s.span⟩ :: out }, s.span⟩)
        (given + (unitIdsOf here + (ids + {i}))) ({counter} + names) (here + made)
  | loop {loops : LoopStack} {s : Statement} {label : Option Ident} {head : LoopHead}
      {body : Block} {out : List Statement} {after : Option Expr} {routines : LoopNames}
      {parts : Wiring.LoopParts} {i₁ j₁ k₁ i₂ j₂ k₂ x y z : NodeId} {ids more : Multiset NodeId}
      {names : Multiset String} {made : Multiset Func} (isLoop : s.kind = .loop label head body)
      (inner : Turned (⟨after, .callNamed routines.next s.span, label.map Ident.name⟩ :: loops)
        (.run body.statements (some (.callNamed routines.next s.span)) out) ids names made)
      (pieces : head.Pieces { body with statements := out } (.callNamed routines.restart s.span)
        (.exitWith x after s.span) s.span parts more) :
      Turned loops
        (.pivot s after ⟨s.id, .block ⟨y, parts.before ++
          [.routineWith i₁ j₁ k₁ routines.restart parts.restart s.span,
            .routineWith i₂ j₂ k₂ routines.next parts.next s.span,
            .callWith z (.callNamed routines.restart s.span)], s.span⟩, s.span⟩)
        (ids + ({x} + (more + ({i₁} + {j₁} + {k₁} + ({i₂} + {j₂} + {k₂} + ({z} + {y}))))))
        ({routines.restart} + {routines.next} + names) made
  | noArms {loops : LoopStack} {after : Option Expr} : Turned loops (.arms [] after []) 0 0 0
  | arm {loops : LoopStack} {a : Arm} {arms arms' : List Arm} {out : List Statement}
      {after : Option Expr} {ids more : Multiset NodeId} {names others : Multiset String}
      {made further : Multiset Func}
      (inArm : Turned loops (.run a.body.statements after out) ids names made)
      (rest : Turned loops (.arms arms after arms') more others further) :
      Turned loops
        (.arms (a :: arms) after ({ a with body := { a.body with statements := out } } :: arms'))
        (ids + more) (names + others) (made + further)
  | chosen {loops : LoopStack} {b : Block} {out : List Statement} {after : Option Expr}
      {ids : Multiset NodeId} {names : Multiset String} {made : Multiset Func}
      (inner : Turned loops (.run b.statements after out) ids names made) :
      Turned loops (.choice (some b) after (some { b with statements := out })) ids names made
  | missing {loops : LoopStack} {call : Expr} {i j : NodeId} {span : Span} :
      Turned loops (.choice none (some call) (some ⟨j, [.callWith i call], span⟩)) ({i} + {j}) 0 0
  | absent {loops : LoopStack} : Turned loops (.choice none none none) 0 0 0

/-- Blocks that nest at most `n` deep are turned into something, if their rotation succeeds. -/
def Turns (n : Nat) (inner : BlockRotation) : Prop :=
  ∀ (loops : LoopStack) (b : Block) (tail : Option Expr), b.height ≤ n →
    Gives config.reservedPrefix (inner loops b tail) fun ids names b' =>
      ∃ out made, b' = { b with statements := out } ∧
        Turned config t loops (.run b.statements tail out) ids names made

end

/-! ## Steps -/

theorem takes_callWith (call : Expr) :
    Takes (exprStatement call) fun ids s => ∃ i, ids = {i} ∧ s = .callWith i call :=
  takes_statement _ _

theorem takes_exitWith (exit : Option Expr) (span : Span) :
    Takes (Wiring.exitStatement exit span) fun ids s =>
      ∃ i, ids = {i} ∧ s = .exitWith i exit span := by
  cases exit with
  | none => exact takes_statement _ _
  | some call => exact takes_statement _ _

theorem takes_branchWith (condition : Expr) (yes : Block) (no : Statement) (span : Span) :
    Takes (branch condition yes no span) fun ids s => ∃ i j, ids = {i} + {j} ∧
      s = .branchWith i j condition yes no span := by
  refine (takes_block _ _).bind fun b => (takes_statement _ _).weaken ?_
  rintro _ s ⟨i, rfl, rfl⟩ _ ⟨j, rfl, rfl⟩
  exact ⟨i, j, add_comm _ _, rfl⟩

theorem takes_continuationValue (after : Option Expr) (span : Span) :
    Takes (Wiring.continuationValue after span) fun ids e =>
      ∃ made, ids = unitIdsOf made ∧ e.ResumesBy span after made := by
  unfold Wiring.continuationValue
  split
  · exact .pure ⟨0, rfl, .routine⟩
  · rename_i call _
    refine (takes_callWith call).bind fun s => (takes_closure _ _ _).weaken ?_
    rintro _ e ⟨i, j, rfl, rfl⟩ _ ⟨k, rfl, rfl⟩
    refine ⟨{.continuation i j k (some call) span}, ?_, .continuation i j k⟩
    rw [unitIdsOf_singleton, Func.unitIds_continuation_some, add_comm]
    rfl
  · refine (takes_closure _ _ _).weaken ?_
    rintro _ e ⟨i, j, rfl, rfl⟩
    refine ⟨{.continuation i j 0 none span}, ?_, .continuation i j 0⟩
    rw [unitIdsOf_singleton, Func.unitIds_continuation_none]
    rfl

theorem takes_loopParts (head : LoopHead) (body : Block) (restart : Expr) (exit : Statement)
    (span : Span) :
    Takes (Wiring.loopParts head body restart exit span) fun ids parts =>
      head.Pieces body restart exit span parts ids := by
  cases head with
  | whileDo condition =>
    refine (takes_branchWith _ _ _ _).bind fun s => (takes_callWith _).bind fun c => .pure ?_
    rintro _ ⟨k, rfl, rfl⟩ _ ⟨i, j, rfl, rfl⟩
    rw [add_zero]
    exact .whileDo
  | doWhile condition =>
    refine (takes_callWith _).bind fun c => (takes_block _ _).bind fun b =>
      (takes_branchWith _ _ _ _).bind fun s => .pure ?_
    rintro _ ⟨i, j, rfl, rfl⟩ _ ⟨l, rfl, rfl⟩ _ ⟨k, rfl, rfl⟩
    have sum : ({k} : Multiset NodeId) + ({l} + ({i} + {j} + 0)) = {i} + {j} + {k} + {l} := by abel
    rw [sum]
    exact .doWhile
  | counting init test update =>
    cases test with
    | none =>
      have unfolded : Wiring.loopParts (.counting init none update) body restart exit span = do
          let again ← exprStatement restart
          return ⟨init.toList, body.statements, update.toList ++ [again]⟩ := rfl
      rw [unfolded]
      refine (takes_callWith _).bind fun c => .pure ?_
      rintro _ ⟨k, rfl, rfl⟩
      rw [add_zero]
      exact .endless
    | some condition =>
      have unfolded : Wiring.loopParts (.counting init (some condition) update) body restart exit
          span = do
          let branch ← Build.branch condition body exit span
          let again ← exprStatement restart
          return ⟨init.toList, [branch], update.toList ++ [again]⟩ := rfl
      rw [unfolded]
      refine (takes_branchWith _ _ _ _).bind fun s => (takes_callWith _).bind fun c => .pure ?_
      rintro _ ⟨k, rfl, rfl⟩ _ ⟨i, j, rfl, rfl⟩
      rw [add_zero]
      exact .counting

theorem takes_missingArm (call : Expr) (span : Span) :
    Takes (do
      let s ← exprStatement call
      let b ← block [s] span
      return some b) fun ids b => ∃ i j, ids = {i} + {j} ∧
        b = some (⟨j, [.callWith i call], span⟩ : Block) := by
  refine (takes_callWith call).bind fun s => (takes_block [s] span).bind fun b => .pure ?_
  rintro _ ⟨j, rfl, rfl⟩ _ ⟨i, rfl, rfl⟩
  exact ⟨i, j, by rw [add_zero], rfl⟩

/-- The block that a loop becomes, given its rotated body. -/
theorem takes_loopBlock (routines : LoopNames) (head : LoopHead) (body : Block)
    (after : Option Expr) (span : Span) :
    Takes (do
      let exit ← Wiring.exitStatement after span
      let parts ← Wiring.loopParts head body (.callNamed routines.restart span) exit span
      let restartRoutine ← Build.routine routines.restart parts.restart span
      let nextRoutine ← Build.routine routines.next parts.next span
      let first ← Build.exprStatement (.callNamed routines.restart span)
      Build.block (parts.before ++ [restartRoutine, nextRoutine, first]) span) fun ids b =>
        ∃ i₁ j₁ k₁ i₂ j₂ k₂ x y z parts more, ids = {x} + (more + ({i₁} + {j₁} + {k₁} +
            ({i₂} + {j₂} + {k₂} + ({z} + {y})))) ∧
          head.Pieces body (.callNamed routines.restart span) (.exitWith x after span) span parts
            more ∧
          b = ⟨y, parts.before ++ [.routineWith i₁ j₁ k₁ routines.restart parts.restart span,
            .routineWith i₂ j₂ k₂ routines.next parts.next span,
            .callWith z (.callNamed routines.restart span)], span⟩ := by
  refine (takes_exitWith _ _).bind fun exit => (takes_loopParts _ _ _ _ _).bind fun parts =>
    (takes_routine _ _ _).bind fun first => (takes_routine _ _ _).bind fun second =>
      (takes_callWith _).bind fun call => (takes_block _ _).weaken ?_
  rintro _ _ ⟨y, rfl, rfl⟩ _ ⟨z, rfl, rfl⟩ _ ⟨i₂, j₂, k₂, rfl, rfl⟩ _ ⟨i₁, j₁, k₁, rfl, rfl⟩ more
    pieces _ ⟨x, rfl, rfl⟩
  exact ⟨i₁, j₁, k₁, i₂, j₂, k₂, x, y, z, parts, more, rfl, pieces, rfl⟩

section
variable {config : Config} {t : MarkTable} {n : Nat} {inner : BlockRotation} (loops : LoopStack)

theorem gives_optionalArm (turns : Turns config t n inner) (arm : Option Block)
    (after : Option Expr) (span : Span) (height : ∀ b ∈ arm, b.height ≤ n) :
    Gives config.reservedPrefix (Wiring.optionalArm inner loops arm after span)
      fun ids names b' => ∃ made, Turned config t loops (.choice arm after b') ids names made := by
  cases arm with
  | some b =>
    refine (turns loops b after (height b rfl)).map ?_
    rintro ids names _ ⟨out, made, rfl, turned⟩
    exact ⟨made, .chosen turned⟩
  | none =>
    cases after with
    | none => exact .pure ⟨0, .absent⟩
    | some call =>
      refine (Gives.drawIds (takes_missingArm call span)).weaken ?_
      rintro _ _ _ ⟨rfl, i, j, rfl, rfl⟩
      exact ⟨0, .missing⟩

theorem gives_arms (turns : Turns config t n inner) (after : Option Expr) (arms : List Arm)
    (height : ∀ a ∈ arms, a.body.height ≤ n) :
    Gives config.reservedPrefix (Wiring.arms inner loops after arms)
      fun ids names arms' => ∃ made,
        Turned config t loops (.arms arms after arms') ids names made := by
  induction arms with
  | nil => exact .pure ⟨0, .noArms⟩
  | cons a arms ih =>
    have rest := ih fun a ha => height a (List.mem_cons_of_mem _ ha)
    have first := turns loops a.body after (height a List.mem_cons_self)
    refine first.bind fun body => rest.bind fun arms' => .pure ?_
    rintro more others ⟨further, inRest⟩ ids names ⟨out, made, rfl, inArm⟩
    rw [add_zero, add_zero]
    exact ⟨made + further, .arm inArm inRest⟩

/-- A name that is drawn is the only one with its number. -/
theorem numbered_name {reserved stem : String} (hs : stem ∈ NameSupply.stems) (n : Nat) :
    Numbered (NameSupply.Makes reserved) n (n + 1) {reserved ++ stem ++ toString n} :=
  .one ⟨stem, hs, rfl⟩

theorem gives_counter : Gives config.reservedPrefix (drawName NameSupply.counter)
    fun ids names x => ids = 0 ∧ names = {x} := by
  refine Gives.drawName (fun _ => rfl) fun s hs => ?_
  obtain ⟨_, next⟩ := s
  cases hs
  exact numbered_name (by simp [NameSupply.stems]) next

theorem gives_continuation : Gives config.reservedPrefix (drawName NameSupply.continuation)
    fun ids names x => ids = 0 ∧ names = {x} := by
  refine Gives.drawName (fun _ => rfl) fun s hs => ?_
  obtain ⟨_, next⟩ := s
  cases hs
  exact numbered_name (by simp [NameSupply.stems]) next

theorem gives_loopRoutines : Gives config.reservedPrefix (drawName NameSupply.loopRoutines)
    fun ids names x => ids = 0 ∧ names = {x.restart} + {x.next} := by
  refine Gives.drawName (fun _ => rfl) fun s hs => ?_
  obtain ⟨_, next⟩ := s
  cases hs
  refine ⟨Nat.le_succ _, ?_, fun x hx => ⟨next, Nat.le_refl _, Nat.lt_succ_self _, ?_⟩⟩
  · rw [Multiset.nodup_add]
    refine ⟨Multiset.nodup_singleton _, Multiset.nodup_singleton _, ?_⟩
    rw [Multiset.disjoint_singleton, Multiset.mem_singleton]
    intro same
    have := (NameSupply.name_inj (by simp [NameSupply.stems]) (by simp [NameSupply.stems])
      same).1
    simp at this
  · rcases Multiset.mem_add.mp hx with hx | hx <;> rw [Multiset.mem_singleton.mp hx]
    · exact ⟨"loop", by simp [NameSupply.stems], rfl⟩
    · exact ⟨"next", by simp [NameSupply.stems], rfl⟩

theorem Block.takes_lowered (counter : String) {names : NameSupply}
    (same : names.reserved = config.reservedPrefix) (b : Block) :
    Takes (b.rewrite (Callbacks.rewriting ⟨counter, config.runtime.defer, names⟩))
      fun ids b' => b.Lowered config counter b' ids := by
  intro s
  have nothing : (⟨fun _ _ _ => false, fun _ _ _ => 0, fun _ => 0, fun _ _ _ => 0, fun _ => 0⟩ :
      Weighing Unit).Charges config.reservedPrefix (fun _ => False) (fun _ => 0) fun _ => 0 := by
    constructor <;> simp
  refine ⟨(weighs_iff.mp (takes_rewrite nothing same b) s).1, fun proper enough =>
    ⟨⟨names, s, _, same, rfl, proper, enough, rfl⟩, fun w new ofId ofName charges => ?_⟩⟩
  exact (weighs_iff.mp (takes_rewrite charges same b) s).2 proper enough

theorem gives_lowerWait (turns : Turns config t n inner) {s : Statement} {body : Block}
    (isWait : s.kind = .wait body) (after : Option Expr) (height : body.height ≤ n) :
    Gives config.reservedPrefix (Wiring.lowerWait ⟨config, t⟩ inner loops body after s.span)
      fun ids names b' => ∃ made,
        Turned config t loops (.pivot s after ⟨s.id, .block b', s.span⟩) ids names made := by
  refine gives_counter.bindKnown (K := fun x => config.isReserved x = true) ?_
    fun counter known => ?_
  · rintro ⟨ids, _, next⟩ rfl a s' run
    cases run
    rw [NameSupply.counter, NameSupply.name, String.append_assoc]
    exact isReserved_name config _
  refine Gives.names.bindKnown (K := fun supply => supply.reserved = config.reservedPrefix) ?_
    fun supply same => ?_
  · intro s hs a s' run
    cases run
    exact hs
  have fits : Callbacks.Fits ⟨counter, config.runtime.defer, supply⟩ config := ⟨known, rfl⟩
  refine (Gives.drawIds (Block.takes_lowered counter same body)).bindKnown
    (K := fun body' => body'.height ≤ n) ?_ fun body' height' => ?_
  · intro s hs a s' run
    cases run
    rw [← Block.height_plain config, Block.plain_rewrite fits, Block.height_plain]
    exact height
  refine (Gives.drawIds (takes_continuationValue after s.span)).bind fun value =>
    (turns loops body' _ height').bind fun rotated =>
    (Gives.drawIds (takes_statement _ _)).bind fun create => .pure ?_
  rintro _ _ ⟨rfl, i, rfl, rfl⟩ ids names ⟨out, made, rfl, inside⟩ _ _ ⟨rfl, here, rfl, resumes⟩
    given _ ⟨rfl, lowered⟩ _ _ ⟨rfl, rfl⟩ _ _ ⟨rfl, rfl⟩
  simp only [zero_add, add_zero]
  exact ⟨here + made, .wait isWait lowered resumes inside⟩

theorem gives_lowerLoop (turns : Turns config t n inner) {s : Statement} {label : Option Ident}
    {head : LoopHead} {body : Block} (isLoop : s.kind = .loop label head body)
    (after : Option Expr) (height : body.height ≤ n) :
    Gives config.reservedPrefix (Wiring.lowerLoop inner loops label head body after s.span)
      fun ids names b' => ∃ made,
        Turned config t loops (.pivot s after ⟨s.id, .block b', s.span⟩) ids names made := by
  refine gives_loopRoutines.bind fun routines => (turns _ body _ height).bind fun rotated =>
    (Gives.drawIds (takes_loopBlock routines head rotated after s.span)).weaken ?_
  rintro _ _ _ ⟨rfl, i₁, j₁, k₁, i₂, j₂, k₂, x, y, z, parts, more, rfl, pieces, rfl⟩ ids names
    ⟨out, made, rfl, inside⟩ _ _ ⟨rfl, rfl⟩
  simp only [zero_add, add_zero]
  exact ⟨made, .loop isLoop inside pieces⟩

theorem gives_lowerJump {s : Statement} (ss : List Statement) (tail : Option Expr)
    {kind : JumpKind} {label : Option Ident} (isJump : s.kind = .jump kind label) :
    Gives config.reservedPrefix (Wiring.lowerJump loops kind label s.span) fun ids names k => ∃ made,
      Turned config t loops (.run (s :: ss) tail [⟨s.id, k, s.span⟩]) ids names made := by
  unfold Wiring.lowerJump
  cases target : loops.target? (label.map Ident.name) with
  | none => exact .throw _
  | some loop =>
    have turned (k : JumpKind) (isJump : s.kind = .jump k label) :
        Turned config t loops (.run (s :: ss) tail [⟨s.id, loop.lowered k, s.span⟩]) 0 0 0 :=
      .jump isJump target
    obtain ⟨exit, next, own⟩ := loop
    cases kind with
    | leave => cases exit <;> exact .pure ⟨0, turned .leave isJump⟩
    | resume => exact .pure ⟨0, turned .resume isJump⟩

/-- A marked statement that is no jump is wired to something, if that succeeds. -/
theorem gives_statement (turns : Turns config t n inner) {s : Statement} (after : Option Expr)
    (notJump : s.kind.isJump = false) (height : s.height ≤ n) :
    Gives config.reservedPrefix (Wiring.statement ⟨config, t⟩ inner loops s after)
      fun ids names s' => ∃ made, Turned config t loops (.pivot s after s') ids names made := by
  have below : ∀ b ∈ s.kind.blocks, b.height ≤ n :=
    fun b hb => Nat.le_trans (Block.height_le hb) height
  obtain ⟨id, kind, span⟩ := s
  cases kind with
  | block body =>
    rw [Wiring.statement_block]
    refine (turns loops body after (below body List.mem_cons_self)).map ?_
    rintro ids names _ ⟨out, made, rfl, inside⟩
    exact ⟨made, .block rfl inside⟩
  | branch condition yes no =>
    have inYes := turns loops yes after (below yes List.mem_cons_self)
    have inNo := gives_optionalArm loops turns no after span fun b hb =>
      below b (List.mem_cons_of_mem _ (Option.mem_toList.mpr hb))
    refine inYes.bind fun yes' => inNo.bind fun no' => .pure ?_
    rintro more others ⟨further, inNo⟩ ids names ⟨out, made, rfl, inYes⟩
    rw [add_zero, add_zero]
    exact ⟨made + further, .branch rfl inYes inNo⟩
  | switch subject arms otherwise =>
    have inArms := gives_arms loops turns after arms fun a ha =>
      below a.body (List.mem_append_left _ (List.mem_map_of_mem ha))
    have inRest := gives_optionalArm loops turns otherwise after span fun b hb =>
      below b (List.mem_append_right _ (Option.mem_toList.mpr hb))
    refine inArms.bind fun arms' => inRest.bind fun rest => .pure ?_
    rintro more others ⟨further, inRest⟩ ids names ⟨made, inArms⟩
    rw [add_zero, add_zero]
    exact ⟨made + further, .switch rfl inArms inRest⟩
  | wait body =>
    rw [Wiring.statement_wait]
    exact (gives_lowerWait loops (s := ⟨id, .wait body, span⟩) turns rfl after
      (below body List.mem_cons_self)).map fun ids names b' h => h
  | loop label head body =>
    cases waits : t.has id .loop with
    | true =>
      rw [Wiring.statement_loop waits]
      exact (gives_lowerLoop loops (s := ⟨id, .loop label head body, span⟩) turns rfl after
        (below body List.mem_cons_self)).map fun ids names b' h => h
    | false =>
      simp only [Wiring.statement, waits, Bool.false_eq_true, ↓reduceIte]
      exact .throw _
  | jump kind label => cases notJump
  | _ => exact .throw _

/-! ## Blocks -/

theorem Split.gives_withNames (ss : List Split) :
    Gives config.reservedPrefix (withNames ss) fun ids names named =>
      ids = 0 ∧ names = ↑(named.filterMap Prod.snd) := by
  induction ss with
  | nil => exact .pure ⟨rfl, rfl⟩
  | cons s ss ih =>
    unfold withNames
    split
    · have drawn : Gives config.reservedPrefix (some <$> drawName NameSupply.continuation)
          fun ids names o => ∃ x, o = some x ∧ ids = 0 ∧ names = {x} :=
        gives_continuation.map fun ids names x h => ⟨x, rfl, h⟩
      refine drawn.bind fun o => ih.bind fun named => .pure ?_
      rintro _ _ ⟨rfl, rfl⟩ _ _ ⟨x, rfl, rfl, rfl⟩
      exact ⟨rfl, by simp⟩
    · refine ih.bind fun named => .pure ?_
      rintro _ _ ⟨rfl, rfl⟩
      exact ⟨rfl, by simp⟩

theorem gives_ending (tail : Option Expr) :
    Gives config.reservedPrefix (drawIds (Split.ending tail)) fun ids names out => ∃ made,
      Turned config t loops (.run [] tail out) ids names made := by
  cases tail with
  | none =>
    have made : Takes (Split.ending none) fun ids out => ids = 0 ∧ out = [] := .pure ⟨rfl, rfl⟩
    refine (Gives.drawIds made).weaken ?_
    rintro _ _ _ ⟨rfl, rfl, rfl⟩
    exact ⟨0, .done⟩
  | some call =>
    have made : Takes (Split.ending (some call)) fun ids out =>
        ∃ i, ids = {i} ∧ out = [.callWith i call] := by
      refine (takes_callWith call).bind fun s => .pure ?_
      rintro _ ⟨i, rfl, rfl⟩
      exact ⟨i, by rw [add_zero], rfl⟩
    refine (Gives.drawIds made).weaken ?_
    rintro _ _ _ ⟨rfl, i, rfl, rfl⟩
    exact ⟨0, .goOn⟩

/-- A list of statements whose splits have names is turned into something. -/
theorem gives_weaveAll (turns : Turns config t n inner) (tail : Option Expr)
    (ss : List Statement) (height : ∀ s ∈ ss, s.height ≤ n) {named : List (Split × Option String)}
    (h : Split.Named (Split.ofStatements t ss).2 named) :
    Gives config.reservedPrefix
      (Split.weaveAll ⟨config, t⟩ inner loops tail (Split.ofStatements t ss).1 named)
      fun ids names out => ∃ made, Turned config t loops (.run ss tail out) ids
        (↑(named.filterMap Prod.snd) + names) made := by
  induction ss generalizing named with
  | nil =>
    cases h
    have whole : Split.weaveAll ⟨config, t⟩ inner loops tail (Split.ofStatements t []).1 [] =
        drawIds (Split.ending tail) := by
      simp [Split.weaveAll, Split.weave, Split.ofStatements]
    rw [whole]
    have ending : Gives config.reservedPrefix _ fun ids names out => ∃ made,
      Turned config t loops (.run [] tail out) ids names made := gives_ending loops tail
    refine ending.weaken fun ids names out turned => ?_
    simpa using turned
  | cons s ss ih =>
    have rest {named} (h : Split.Named (Split.ofStatements t ss).2 named) :=
      ih (fun x hx => height x (List.mem_cons_of_mem _ hx)) h
    cases marked : t.hasAny s.id .split with
    | false =>
      simp only [Split.ofStatements, marked, Bool.false_eq_true, ↓reduceIte] at h ⊢
      have longer : ∀ before, Split.weaveAll ⟨config, t⟩ inner loops tail (s :: before) named =
          (s :: ·) <$> Split.weaveAll ⟨config, t⟩ inner loops tail before named := by
        intro before
        cases empty : named.isEmpty <;> simp [Split.weaveAll, empty]
      rw [longer]
      refine (rest h).map ?_
      rintro ids names out ⟨made, turned⟩
      exact ⟨made, .keep marked turned⟩
    | true =>
      simp only [Split.ofStatements, marked, ↓reduceIte] at h ⊢
      cases jumps : s.kind.isJump with
      | true =>
        simp only [jumps, ↓reduceIte] at h ⊢
        obtain ⟨kind, label, isJump⟩ : ∃ kind label, s.kind = .jump kind label := by
          cases hk : s.kind <;> simp_all [StatementKind.isJump]
        cases h with
        | some _ notJump => simp [jumps] at notJump
        | none _ nothing =>
          cases nothing
          have wired : Split.weaveAll ⟨config, t⟩ inner loops tail [] [(⟨s, []⟩, none)] =
              (fun k => [⟨s.id, k, s.span⟩]) <$> Wiring.lowerJump loops kind label s.span := by
            simp [Split.weaveAll, Split.weave, Wiring.statement, isJump]
          rw [wired]
          refine (gives_lowerJump (t := t) loops ss tail isJump).map ?_
          intro ids names k turned
          simpa using turned
      | false =>
        simp only [jumps, Bool.false_eq_true, ↓reduceIte] at h ⊢
        have wire (after : Option Expr) := gives_statement loops turns after jumps
          (height s List.mem_cons_self)
        cases h with
        | none last nothing =>
          obtain ⟨noMore, noneBefore⟩ := last jumps
          obtain rfl := Split.ofStatements_eq_nil.mp ⟨noneBefore, noMore⟩
          cases nothing
          rw [Split.ofStatements, Split.weaveAll_last jumps]
          refine (wire tail).map ?_
          rintro ids names wired ⟨made, turned⟩
          refine ⟨made, ?_⟩
          simpa using Turned.last marked turned
        | @some _ _ named name _ _ given =>
          rw [Split.weaveAll_split]
          refine (rest given).bind fun body =>
            (Gives.drawIds (takes_routine name body s.span)).bind fun routine => (wire _).map ?_
          rintro more others wired ⟨further, inPivot⟩ _ _ ⟨rfl, i, j, k, rfl, rfl⟩ ids names
            ⟨made, inRest⟩
          refine ⟨made + further, ?_⟩
          have whole := Turned.split (i := i) (j := j) (k := k) marked inRest inPivot
          convert whole using 1
          · abel
          · rw [List.filterMap_cons]
            simp only [← Multiset.cons_coe, ← Multiset.singleton_add]
            abel

/-- **Whatever rotation makes of a block, the block is turned into it.** -/
theorem Block.gives_rotateTo (n : Nat) : Turns config t n (Block.rotateTo ⟨config, t⟩ n) := by
  induction n with
  | zero =>
    intro loops b tail height
    have := b.height_pos
    omega
  | succ n ih =>
    intro loops b tail height
    have below : ∀ s ∈ b.statements, s.height ≤ n := fun s hs => by
      have := Statement.height_lt hs
      omega
    have weave {named : List (Split × Option String)}
        (given : Split.Named (Split.ofStatements t b.statements).2 named) :=
      gives_weaveAll loops ih tail b.statements below given
    simp only [Block.rotateTo, Block.rotateWith]
    generalize Split.ofStatements t b.statements = r at weave
    obtain ⟨before, splits⟩ := r
    cases splits with
    | nil =>
      have whole : (do
          let last ← drawIds (Split.ending tail)
          return { b with statements := before ++ last }) =
          (fun out => { b with statements := out }) <$>
            Split.weaveAll ⟨config, t⟩ (Block.rotateTo ⟨config, t⟩ n) loops tail before [] := by
        simp [Split.weaveAll, Split.weave]
      simp only [List.isEmpty_nil, ↓reduceIte]
      rw [whole]
      refine (weave .nil).map ?_
      rintro ids names out ⟨made, turned⟩
      refine ⟨out, made, rfl, ?_⟩
      simpa using turned
    | cons s ss =>
      simp only [List.isEmpty_cons, Bool.false_eq_true, ↓reduceIte]
      refine (Split.gives_withNames _).bindKnown (K := Split.Named (s :: ss)) ?_
        fun named given => ?_
      · intro supply reserved named supply' run
        obtain ⟨_, _, ran, -, -, -, meets⟩ :=
          Split.meets_withNames (s :: ss) supply reserved
        cases run.symm.trans ran
        exact (meets (fun _ => True) (fun _ _ _ _ => trivial) fun _ => trivial).2.1
      have notEmpty : named.isEmpty = false := by
        cases given <;> rfl
      have whole : (do
          let after ← Split.weave ⟨config, t⟩ (Block.rotateTo ⟨config, t⟩ n) loops tail named
          return { b with statements := before ++ after }) =
          (fun out => { b with statements := out }) <$>
            Split.weaveAll ⟨config, t⟩ (Block.rotateTo ⟨config, t⟩ n) loops tail before named := by
        simp [Split.weaveAll, notEmpty]
      rw [whole]
      refine (weave given).map ?_
      rintro ids names out ⟨made, turned⟩ _ _ ⟨rfl, rfl⟩
      rw [zero_add]
      exact ⟨out, made, rfl, turned⟩

end

end WaitDefer
