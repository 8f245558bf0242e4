import WaitDefer.Proofs.Rotation.Lost
import WaitDefer.Proofs.Rotation.Lower

/-!
# What is found again in rotated code

* `remaining`: traits of code, without those of code that is lost;
* `Woven.keeps`: woven code has the traits of the code it is made of that is not lost.
-/

namespace WaitDefer

/-! ## Traits that are not lost -/

/-- Of traits with the statement they belong to, those of statements that are not lost. -/
def remaining (lost : List NodeId) (x : Multiset (NodeId × Trait)) : Multiset Trait :=
  (x.filter fun p => p.1 ∉ lost).map Prod.snd

section
variable {lost : List NodeId}

theorem remaining_zero : remaining lost 0 = 0 := rfl

theorem remaining_add (x y : Multiset (NodeId × Trait)) :
    remaining lost (x + y) = remaining lost x + remaining lost y := by
  rw [remaining, Multiset.filter_add, Multiset.map_add]
  rfl

theorem remaining_bagOf {α : Type} (f : α → Multiset (NodeId × Trait)) (as : List α) :
    remaining lost (bagOf f as) = bagOf (fun a => remaining lost (f a)) as := by
  induction as with
  | nil => rfl
  | cons a as ih => rw [bagOf_cons, bagOf_cons, remaining_add, ih]

theorem remaining_add_lost (lost : List NodeId) (x : Multiset (NodeId × Trait)) :
    remaining lost x + (x.filter fun p => p.1 ∈ lost).map Prod.snd = x.map Prod.snd := by
  rw [remaining, ← Multiset.map_add, add_comm, Multiset.filter_add_not]

theorem mem_remaining {i : NodeId} {y : Trait} {x : Multiset (NodeId × Trait)} (h : (i, y) ∈ x)
    (notLost : i ∉ lost) : y ∈ remaining lost x :=
  Multiset.mem_map.mpr ⟨(i, y), Multiset.mem_filter.mpr ⟨h, notLost⟩, rfl⟩

theorem remaining_of_not_lost {x : Multiset (NodeId × Trait)} (h : ∀ p ∈ x, p.1 ∉ lost) :
    remaining lost x = x.map Prod.snd := by
  rw [remaining, Multiset.filter_eq_self.mpr h]

theorem remaining_of_lost {x : Multiset (NodeId × Trait)} (h : ∀ p ∈ x, p.1 ∈ lost) :
    remaining lost x = 0 := by
  rw [remaining, Multiset.filter_eq_nil.mpr fun p hp => not_not.mpr (h p hp)]
  rfl

/-- The share of a statement that is not lost. -/
theorem remaining_share {i : NodeId} (notLost : i ∉ lost) (x : Multiset Trait) :
    remaining lost (x.map (Prod.mk i)) = x := by
  rw [remaining_of_not_lost fun p hp => ?_]
  · rw [Multiset.map_map]
    exact Multiset.map_id x
  · obtain ⟨y, -, rfl⟩ := Multiset.mem_map.mp hp
    exact notLost

end

section
variable {w : Scope}

theorem Statement.mem_labelled {s : Statement} {p : NodeId × Trait} (hp : p ∈ s.labelled w) :
    ∃ x, .statement x ∈ s.ownNodes ∧ p.1 = x.id := by
  obtain ⟨n, hn, hp⟩ := mem_bagOf.mp hp
  cases n with
  | statement x =>
    obtain ⟨y, -, rfl⟩ := Multiset.mem_map.mp hp
    exact ⟨x, hn, rfl⟩
  | _ => cases hp

theorem Node.id?_of_mem_labels {n : Node} {p : NodeId × Trait} (hp : p ∈ n.labels w) :
    n.id? = some p.1 := by
  cases n with
  | statement x =>
    obtain ⟨y, -, rfl⟩ := Multiset.mem_map.mp hp
    rfl
  | _ => cases hp

/-! ## Made-up code -/

theorem Expr.traits_ident (x : Ident) : (Expr.ident x).traits w = 0 := by
  rw [traits_eq]
  rfl

theorem Expr.traits_callNamed (name : String) (span : Span) :
    (Expr.callNamed name span).traits w = 0 := by
  rw [traits_eq]
  simp [callNamed, operands, functions, traits_ident]

end

section
variable {w : Scope} {fresh : NodeId → Prop} (unused : Unused w.table w.max fresh)
include unused

/-- The only trait of a made-up statement itself is what it tests. -/
theorem Statement.traits_new {s : Statement} (new : fresh s.id) :
    (Node.statement s).traits w = bagOf (fun e => {.test (e.plain w.config)}) s.kind.tests := by
  have unmarked := MarkTable.hasAny_of_none (unused.unmarked _ new) .split
  simp [Node.traits, unmarked, unused.above _ new]

theorem Statement.traits_callWith {i : NodeId} (new : fresh i) (call : Expr) :
    (Statement.callWith i call).traits w = call.traits w := by
  rw [Statement.traits_eq, share, traits_new unused new]
  simp [callWith, StatementKind.tests, StatementKind.operands, StatementKind.functions,
    StatementKind.headers, StatementKind.blocks]

theorem Statement.traits_exitWith {i : NodeId} (new : fresh i) {exit : Option Expr}
    (ends : ∀ e ∈ exit, e.traits w = 0) (span : Span) :
    (Statement.exitWith i exit span).traits w = 0 := by
  rw [Statement.traits_eq, share, traits_new unused new]
  cases exit with
  | none => simp [exitWith, StatementKind.exiting, StatementKind.tests, StatementKind.operands,
      StatementKind.functions, StatementKind.headers, StatementKind.blocks]
  | some call => simp [exitWith, StatementKind.exiting, StatementKind.tests,
      StatementKind.operands, StatementKind.functions, StatementKind.headers,
      StatementKind.blocks, ends call rfl]

theorem Statement.traits_branchWith {i : NodeId} (new : fresh i) (j : NodeId) (condition : Expr)
    (yes : Block) (no : Statement) (span : Span) :
    (Statement.branchWith i j condition yes no span).traits w =
      {.test (condition.plain w.config)} + condition.traits w + yes.traits w + no.traits w := by
  rw [Statement.traits_eq, share, traits_new unused new]
  simp [branchWith, StatementKind.tests, StatementKind.operands, StatementKind.functions,
    StatementKind.headers, StatementKind.blocks, Block.traits_eq ⟨j, _, _⟩, add_assoc]

theorem Statement.traits_counter {i : NodeId} (new : fresh i) (counter : Ident) (maker : String)
    (span : Span) :
    Statement.traits w ⟨i, .declare counter (some (.callNamed maker span)), span⟩ = 0 := by
  rw [Statement.traits_eq, share, traits_new unused new]
  simp [StatementKind.tests, StatementKind.operands, StatementKind.functions,
    StatementKind.headers, StatementKind.blocks, Expr.traits_callNamed]

/-- The parts of a loop have the traits of its test, its headers and its body. -/
theorem LoopHead.Parted.traits {head : LoopHead} {body : Block} {restart : Expr}
    {exit : Statement} {span : Span} {parts : Wiring.LoopParts}
    (h : head.Parted fresh body restart exit span parts) (restarts : restart.traits w = 0)
    (exits : exit.traits w = 0) :
    bagOf (Statement.traits w) parts.before + bagOf (Statement.traits w) parts.restart +
        bagOf (Statement.traits w) parts.next =
      bagOf (fun e => {.test (e.plain w.config)}) head.test?.toList +
        bagOf (Expr.traits w) head.test?.toList + bagOf (Statement.traits w) head.statements +
        body.traits w := by
  cases h with
  | whileDo hi hj hk =>
    simp [Statement.traits_branchWith unused hi, Statement.traits_callWith unused hk, restarts,
      exits, test?, statements]
  | doWhile hi hj hk hl =>
    simp only [bagOf_nil, bagOf_cons, Statement.traits_branchWith unused hi,
      Block.traits_eq, Statement.traits_callWith unused hk, restarts, exits, test?, statements,
      Option.toList_some, add_zero, zero_add]
    abel
  | counting hi hj hk =>
    simp only [bagOf_nil, bagOf_cons, bagOf_append, Statement.traits_branchWith unused hi,
      Statement.traits_callWith unused hk, restarts, exits, test?, statements,
      Option.toList_some, add_zero]
    abel
  | endless hk =>
    simp only [bagOf_nil, bagOf_cons, bagOf_append, Block.traits_eq,
      Statement.traits_callWith unused hk, restarts, test?, statements, Option.toList_none,
      add_zero, zero_add]
    abel

variable (enters : ∀ f : Func, w.max < f.id → w.enter f = true)
include enters

theorem Func.traits_new {i : NodeId} (new : fresh i) (name : Option Ident) (params : List Ident)
    (body : Block) (span : Span) :
    Func.traits w ⟨i, name, params, body, span⟩ = bagOf (Statement.traits w) body.statements := by
  rw [Func.traits_of_enter (enters _ (unused.above _ new)), Block.traits_eq]

theorem Statement.traits_routineWith {i j : NodeId} (hi : fresh i) (hj : fresh j) (k : NodeId)
    (name : String) (body : List Statement) (span : Span) :
    (Statement.routineWith i j k name body span).traits w =
      bagOf (Statement.traits w) body := by
  rw [Statement.traits_eq, share, traits_new unused hi]
  simp [routineWith, StatementKind.tests, StatementKind.operands, StatementKind.functions,
    StatementKind.headers, StatementKind.blocks, Func.traits_new unused enters hj]

theorem Expr.Resumes.traits {span : Span} {after : Option Expr} {value : Expr}
    (h : value.Resumes fresh span after) (goesOn : ∀ e ∈ after, e.traits w = 0) :
    value.traits w = 0 := by
  cases h with
  | routine => exact Expr.traits_ident _
  | @call call i j k hi hj hk =>
    rw [Expr.traits_eq]
    simp [Expr.operands, Expr.functions, Func.traits_new unused enters hi,
      Statement.traits_callWith unused hk, goesOn call rfl]
  | @nothing i j hi hj =>
    rw [Expr.traits_eq]
    simp [Expr.operands, Expr.functions, Func.traits_new unused enters hi]

end

/-! ## Woven code -/

section
variable {w : Scope} {lost : List NodeId}

/-- In code of which nothing is lost, all traits are kept. -/
theorem Sieved.remaining_of_unmarked {s : Statement} (h : Sieved w.table lost (.statement s))
    (unmarked : ∀ x, .statement x ∈ s.ownNodes → w.table.hasAny x.id .split = false) :
    remaining lost (s.labelled w) = s.traits w := by
  rw [← s.map_labelled]
  apply remaining_of_not_lost
  intro p hp
  obtain ⟨x, hx, same⟩ := Statement.mem_labelled hp
  rw [same]
  exact h.not_lost unmarked x hx

/-- Of statements that are lost, nothing is kept. -/
theorem remaining_of_subset {ss : List Statement}
    (h : ∀ s ∈ ss, (Node.statement s).ownIds ⊆ lost) :
    remaining lost (bagOf (Statement.labelled w) ss) = 0 := by
  apply remaining_of_lost
  intro p hp
  obtain ⟨s, hs, hp⟩ := mem_bagOf.mp hp
  obtain ⟨x, hx, same⟩ := Statement.mem_labelled hp
  rw [same]
  exact h s hs (Node.mem_ownIds hx rfl)

theorem Statement.share_of_marked {s : Statement} (marked : w.table.hasAny s.id .split = true) :
    s.share w = {.id s.id} + bagOf (fun e => {.test (e.plain w.config)}) s.kind.tests +
      bagOf (Expr.traits w) s.kind.tests + bagOf (Expr.traits w) s.kind.operands +
      bagOf (Func.traits w) s.kind.functions := by
  rw [share, Node.traits, if_pos marked]

theorem Statement.traits_exiting {i : NodeId} (marked : w.table.hasAny i .split = true)
    {exit : Option Expr} (ends : ∀ e ∈ exit, e.traits w = 0) (span : Span) :
    Statement.traits w ⟨i, .exiting exit, span⟩ = {.id i} := by
  rw [traits_eq, share_of_marked marked]
  cases exit with
  | none => rfl
  | some call => simp [StatementKind.exiting, StatementKind.tests, StatementKind.operands,
      StatementKind.functions, StatementKind.headers, StatementKind.blocks, ends call rfl]

theorem Statement.traits_block {i : NodeId} (marked : w.table.hasAny i .split = true) (b : Block)
    (span : Span) : Statement.traits w ⟨i, .block b, span⟩ = {.id i} + b.traits w := by
  rw [traits_eq, share_of_marked marked]
  simp [StatementKind.tests, StatementKind.operands, StatementKind.functions,
    StatementKind.headers, StatementKind.blocks]

/-- A marked statement keeps its traits if its blocks keep theirs and the rest is unchanged. -/
theorem Statement.keeps_of_blocks {s : Statement} {kind : StatementKind}
    (marked : w.table.hasAny s.id .split = true) (notLost : s.id ∉ lost)
    (tests : kind.tests = s.kind.tests) (operands : kind.operands = s.kind.operands)
    (functions : kind.functions = s.kind.functions) (headers : s.kind.headers = [])
    (headers' : kind.headers = [])
    (blocks : bagOf (Block.traits w) kind.blocks =
      remaining lost (bagOf (Block.labelled w) s.kind.blocks)) :
    Statement.traits w ⟨s.id, kind, s.span⟩ = remaining lost (s.labelled w) := by
  have same : Statement.share w ⟨s.id, kind, s.span⟩ = s.share w := by
    rw [share_of_marked marked, share_of_marked (s := ⟨s.id, kind, s.span⟩) marked, tests,
      operands, functions]
  rw [traits_eq, labelled_eq, remaining_add, remaining_add, remaining_share notLost, same, headers, headers',
    ← blocks]
  rfl

/-- A piece of code keeps the traits of what is not lost. -/
def Weaving.Keeps (w : Scope) (lost : List NodeId) : Weaving → Prop
  | .run ss _ out => SievedRun w.table lost ss →
    bagOf (Statement.traits w) out = remaining lost (bagOf (Statement.labelled w) ss)
  | .pivot s _ out => Sieved w.table lost (.statement s) →
    w.table.hasAny s.id .split = true → out.traits w = remaining lost (s.labelled w)
  | .arms as _ out => (∀ a ∈ as, SievedRun w.table lost a.body.statements) →
    out.map Arm.test = as.map Arm.test ∧ bagOf (Block.traits w) (out.map Arm.body) =
      remaining lost (bagOf (Block.labelled w) (as.map Arm.body))
  | .choice block _ out => (∀ b ∈ block, SievedRun w.table lost b.statements) →
    bagOf (Block.traits w) out.toList = remaining lost (bagOf (Block.labelled w) block.toList)

theorem Woven.not_jump {config : Config} {t : MarkTable} {max : NodeId} {fresh : NodeId → Prop}
    {visible : List String} {around : Option LoopContext} {s out : Statement}
    {after : Option Expr} {entries : List Entry}
    (h : Woven config t max fresh visible around (.pivot s after out) entries) :
    s.kind.isJump = false := by
  cases h <;> simp_all [StatementKind.isJump]

/-- **What code is woven to has the traits of the code, without those of code that is lost.** -/
theorem Woven.keeps {fresh : NodeId → Prop} {visible : List String}
    {around : Option LoopContext} {piece : Weaving} {entries : List Entry}
    (unused : Unused w.table w.max fresh) (enters : ∀ f : Func, w.max < f.id → w.enter f = true)
    (h : Woven w.config w.table w.max fresh visible around piece entries)
    (goesOn : ∀ e ∈ piece.goesOn, e.traits w = 0)
    (loops : ∀ loop ∈ around, (∀ e ∈ loop.exit, e.traits w = 0) ∧ loop.next.traits w = 0) :
    piece.Keeps w lost := by
  have calls {name : String} {span : Span} :
      ∀ e ∈ some (Expr.callNamed name span), e.traits w = 0 := by
    rintro _ ⟨⟩
    exact Expr.traits_callNamed _ _
  induction h with
  | done => exact fun _ => rfl
  | goOn hi =>
    intro _
    simp [Statement.traits_callWith unused hi, goesOn _ rfl, remaining_zero]
  | keep unmarked quiet closed rest ih =>
    intro sieved
    have goesOut := Statement.jumpsOut_of_unmarked unmarked
    have all : ∀ x, .statement x ∈ Node.ownNodes (.statement _) →
        w.table.hasAny x.id .split = false := fun x hx =>
      MarkTable.hasAny_of_none ((quiet _ hx).2 x.id rfl) _
    rw [bagOf_cons, bagOf_cons, remaining_add, ih goesOn loops (sieved.tail goesOut),
      sieved.head.remaining_of_unmarked all]
  | @jump _ loop s ss _ kind label marked isJump caught =>
    intro sieved
    obtain ⟨exit, next⟩ := loops loop rfl
    have leaves : s.jumpsOut w.table = true := by
      cases sieved.head with
      | statement _ jump => exact jump (by rw [isJump]; rfl) marked
    have before : remaining lost (s.labelled w) = {.id s.id} := by
      rw [Statement.labelled_eq, remaining_add, remaining_add,
        remaining_share sieved.head.kept, Statement.share_of_marked marked, isJump]
      rfl
    have after : Statement.traits w ⟨s.id, loop.lowered kind, s.span⟩ = {.id s.id} := by
      cases kind with
      | leave => exact Statement.traits_exiting marked exit s.span
      | resume =>
        have next : ∀ e ∈ some loop.next, e.traits w = 0 := by simpa
        exact Statement.traits_exiting marked next s.span
    rw [bagOf_cons, bagOf_cons, remaining_add, remaining_of_subset (sieved.rest leaves), before,
      after]
    rfl
  | last marked pivot ih =>
    intro sieved
    simpa using ih goesOn loops sieved.head marked
  | @split _ _ s _ _ _ _ _ _ _ _ _ _ marked notLast hi hj hk rest pivot ihRest ihPivot =>
    intro sieved
    have stays : s.jumpsOut w.table = false := by
      rw [Statement.jumpsOut, pivot.not_jump, Bool.false_and]
    rw [bagOf_cons, bagOf_cons, bagOf_nil, bagOf_cons, remaining_add, add_zero,
      Statement.traits_routineWith unused enters hi hj, ihRest goesOn loops (sieved.tail stays),
      ihPivot calls loops sieved.head marked, add_comm]
  | block isBlock inner ih =>
    intro sieved marked
    refine Statement.keeps_of_blocks marked sieved.kept (by simp [isBlock, StatementKind.tests])
      (by simp [isBlock, StatementKind.operands]) (by simp [isBlock, StatementKind.functions])
      (by simp [isBlock, StatementKind.headers]) rfl ?_
    have inside := (sieved.inBlock (b := _) (by rw [isBlock]; exact List.mem_cons_self)).run
    simp [isBlock, StatementKind.blocks, Block.traits_eq, Block.labelled_eq,
      ih goesOn loops inside]
  | @branch _ _ s condition yes no _ _ _ _ _ isBranch inYes inNo ihYes ihNo =>
    intro sieved marked
    have inside : ∀ b ∈ yes :: no.toList, SievedRun w.table lost b.statements := fun b hb =>
      (sieved.inBlock (by rw [isBranch]; exact hb)).run
    have yes' := ihYes goesOn loops (inside _ List.mem_cons_self)
    have no' := ihNo goesOn loops fun b hb =>
      inside b (List.mem_cons_of_mem _ (Option.mem_toList.mpr hb))
    refine Statement.keeps_of_blocks marked sieved.kept (by rw [isBranch]; rfl)
      (by rw [isBranch]; rfl) (by rw [isBranch]; rfl) (by rw [isBranch]; rfl) rfl ?_
    rw [isBranch, StatementKind.blocks, StatementKind.blocks, bagOf_cons, bagOf_cons,
      remaining_add, no', Block.traits_eq, Block.labelled_eq, yes']
  | @switch _ _ s subject arms arms' otherwise _ _ _ _ isSwitch inArms inRest ihArms ihRest =>
    intro sieved marked
    have inside : ∀ b ∈ arms.map Arm.body ++ otherwise.toList,
        SievedRun w.table lost b.statements := fun b hb =>
      (sieved.inBlock (by rw [isSwitch]; exact hb)).run
    obtain ⟨tests, bodies⟩ := ihArms goesOn loops fun a ha =>
      inside _ (List.mem_append_left _ (List.mem_map_of_mem ha))
    have rest := ihRest goesOn loops fun b hb =>
      inside b (List.mem_append_right _ (Option.mem_toList.mpr hb))
    refine Statement.keeps_of_blocks marked sieved.kept ?_ (by rw [isSwitch]; rfl)
      (by rw [isSwitch]; rfl) (by rw [isSwitch]; rfl) rfl ?_
    · rw [isSwitch, StatementKind.tests, StatementKind.tests, tests]
    · rw [isSwitch, StatementKind.blocks, StatementKind.blocks, bagOf_append, bagOf_append,
        remaining_add, bodies, rest]
  | @wait _ _ s body body' out after counter value i _ isWait hi lowers plain rewritten resumes inner ih =>
    intro sieved marked
    have lowers := lowers unused
    have same : (Node.block body').plain w.config = (Node.block body).plain w.config := by
      rw [Node.plain, Node.plain, plain]
    have sieved' : Sieved w.table lost (.block body') :=
      (sieved.inBlock (by rw [isWait]; exact List.mem_cons_self)).of_plain_eq same
    have call : ∀ e ∈ some (Expr.call (.memberNamed counter w.config.runtime.wait s.span) [value]
        s.span), e.traits w = 0 := by
      rintro _ ⟨⟩
      rw [Expr.traits_eq]
      simp [Expr.operands, Expr.functions, Expr.memberNamed, Expr.traits_eq (.member _ _ _),
        Expr.traits_ident, resumes.traits unused enters goesOn]
    have body' := ih call (by simp) sieved'.run
    refine Statement.keeps_of_blocks marked sieved.kept (by rw [isWait]; rfl)
      (by rw [isWait]; rfl) (by rw [isWait]; rfl) (by rw [isWait]; rfl) rfl ?_
    have same := lowers.labelled w.enter
    rw [Block.labelled_eq] at same
    rw [isWait, StatementKind.blocks, StatementKind.blocks, bagOf_cons, bagOf_cons, bagOf_nil,
      bagOf_nil, Block.traits_eq, bagOf_cons, Statement.traits_counter unused hi, body', zero_add,
      add_zero, add_zero, same]
  | @loop _ _ s label head body out after names parts i₁ j₁ k₁ i₂ j₂ k₂ x y z _ isLoop headers new
      inner parted ih =>
    intro sieved marked
    simp only [List.forall_mem_cons] at new
    obtain ⟨hi₁, hj₁, -, hi₂, hj₂, -, hx, -, hz, -⟩ := new
    have body' := ih calls (by rintro _ ⟨⟩; exact ⟨goesOn, Expr.traits_callNamed _ _⟩)
      (sieved.inBlock (by rw [isLoop]; exact List.mem_cons_self)).run
    have pieces := parted.traits unused (Expr.traits_callNamed _ _)
      (Statement.traits_exitWith unused hx goesOn s.span)
    have inHead : remaining lost (bagOf (Statement.labelled w) head.statements) =
        bagOf (Statement.traits w) head.statements := by
      rw [remaining_bagOf]
      apply bagOf_congr_mem
      intro h hh
      refine (sieved.header (by rw [isLoop]; exact hh)).remaining_of_unmarked fun x hx => ?_
      exact MarkTable.hasAny_of_none (((headers h hh).2 _ hx).2 x.id rfl) _
    have before : remaining lost (s.labelled w) = {.id s.id} +
        (bagOf (fun e => {.test (e.plain w.config)}) head.test?.toList +
          bagOf (Expr.traits w) head.test?.toList + bagOf (Statement.traits w) head.statements +
          Block.traits w { body with statements := out }) := by
      rw [Statement.labelled_eq, remaining_add, remaining_add, remaining_share sieved.kept,
        Statement.share_of_marked marked, isLoop, StatementKind.headers, inHead,
        StatementKind.blocks, bagOf_cons, Block.labelled_eq, bagOf_nil, add_zero, ← body',
        Block.traits_eq]
      simp only [StatementKind.tests, StatementKind.operands, StatementKind.functions, bagOf_nil,
        add_zero, add_assoc]
    rw [before, ← pieces, Statement.traits_block marked, Block.traits_eq, bagOf_append]
    simp only [bagOf_cons, bagOf_nil, Statement.traits_routineWith unused enters hi₁ hj₁,
      Statement.traits_routineWith unused enters hi₂ hj₂, Statement.traits_callWith unused hz,
      Expr.traits_callNamed, add_zero, add_assoc]
  | noArms => exact fun _ => ⟨rfl, rfl⟩
  | arm inArm rest ihArm ihRest =>
    intro sieved
    obtain ⟨tests, bodies⟩ := ihRest goesOn loops fun a ha => sieved a (List.mem_cons_of_mem _ ha)
    have body := ihArm goesOn loops (sieved _ List.mem_cons_self)
    constructor
    · rw [List.map_cons, List.map_cons, tests]
    · rw [List.map_cons, List.map_cons, bagOf_cons, bagOf_cons, remaining_add, bodies, Block.traits_eq,
        Block.labelled_eq, body]
  | chosen inner ih =>
    intro sieved
    simp [Block.traits_eq, Block.labelled_eq, ih goesOn loops (sieved _ rfl)]
  | missing hi hj =>
    intro _
    simp [Block.traits_eq, Statement.traits_callWith unused hi, goesOn _ rfl, remaining_zero]
  | absent => exact fun _ => rfl

end

end WaitDefer
