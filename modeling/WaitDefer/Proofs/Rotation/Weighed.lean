import WaitDefer.Proofs.Rotation.Lower
import WaitDefer.Proofs.Rotation.Hoisted
import WaitDefer.Proofs.Rotation.Turned

/-!
# What rotated code weighs

Rotation moves code and adds to it. What the result weighs is bounded by what was there before and
by what was taken from the supply:

* `Turned.weighs`: this for a piece of code, step by step;
* `Func.gives_lower`: what becomes of a function that is hoisted and rotated;
* `Func.weighs_lower`: and what that weighs.
-/

namespace WaitDefer

open Build Rotation

/-! ## Parts -/

namespace Weighing

variable {β : Type} (w : Weighing β)

theorem callWith_eq (i : NodeId) (call : Expr) :
    w.ofStatement (.callWith i call) = w.statement i [] [] [] + w.ofExpr call := by
  rw [Statement.callWith, w.leaf_eq i _ rfl rfl rfl rfl]
  simp [StatementKind.declared, StatementKind.titled, StatementKind.assigned, StatementKind.operands]

theorem exiting_eq (i : NodeId) (exit : Option Expr) (span : Span) :
    w.ofStatement ⟨i, .exiting exit, span⟩ = w.statement i [] [] [] + bagOf w.ofExpr exit.toList := by
  cases exit with
  | none =>
    rw [w.leaf_eq i _ rfl rfl rfl rfl]
    simp [StatementKind.exiting, StatementKind.declared, StatementKind.titled, StatementKind.assigned,
      StatementKind.operands]
  | some call =>
    rw [w.leaf_eq i _ rfl rfl rfl rfl]
    simp [StatementKind.exiting, StatementKind.declared, StatementKind.titled, StatementKind.assigned,
      StatementKind.operands]

theorem jump_eq (i : NodeId) (kind : JumpKind) (label : Option Ident) (span : Span) :
    w.ofStatement ⟨i, .jump kind label, span⟩ = w.statement i [] [] [] := by
  rw [w.leaf_eq i span rfl rfl rfl rfl]
  simp [StatementKind.declared, StatementKind.titled, StatementKind.assigned, StatementKind.operands]

theorem declare_eq (i : NodeId) (name : Ident) (init : Option Expr) (span : Span) :
    w.ofStatement ⟨i, .declare name init, span⟩ =
      w.statement i [name] [] [] + bagOf w.ofExpr init.toList := by
  rw [w.leaf_eq i span rfl rfl rfl rfl]
  simp [StatementKind.declared, StatementKind.titled, StatementKind.assigned, StatementKind.operands]

theorem block_kind_eq (i : NodeId) (b : Block) (span : Span) :
    w.ofStatement ⟨i, .block b, span⟩ = w.statement i [] [] [] + w.ofBlock b := by
  simp [w.statement_eq, ofKind, StatementKind.declared, StatementKind.titled, StatementKind.assigned,
    StatementKind.tests, StatementKind.operands, StatementKind.headers, StatementKind.blocks, StatementKind.functions]

theorem wait_kind_eq (i : NodeId) (b : Block) (span : Span) :
    w.ofStatement ⟨i, .wait b, span⟩ = w.statement i [] [] [] + w.ofBlock b := by
  simp [w.statement_eq, ofKind, StatementKind.declared, StatementKind.titled, StatementKind.assigned,
    StatementKind.tests, StatementKind.operands, StatementKind.headers, StatementKind.blocks, StatementKind.functions]

theorem branch_eq (i : NodeId) (condition : Expr) (yes : Block) (no : Option Block) (span : Span) :
    w.ofStatement ⟨i, .branch condition yes no, span⟩ =
      w.statement i [] [] [] + (w.ofExpr condition + w.ofBlock yes + bagOf w.ofBlock no.toList) := by
  simp [w.statement_eq, ofKind, StatementKind.declared, StatementKind.titled, StatementKind.assigned,
    StatementKind.tests, StatementKind.operands, StatementKind.headers, StatementKind.blocks, StatementKind.functions,
    add_assoc]

theorem switch_eq (i : NodeId) (subject : Expr) (arms : List Arm) (otherwise : Option Block)
    (span : Span) :
    w.ofStatement ⟨i, .switch subject arms otherwise, span⟩ =
      w.statement i [] [] [] +
        (w.ofExpr subject + bagOf w.ofArm arms + bagOf w.ofBlock otherwise.toList) := by
  simp only [w.statement_eq, ofKind, StatementKind.declared, StatementKind.titled, StatementKind.assigned,
    StatementKind.tests, StatementKind.operands, StatementKind.headers, StatementKind.blocks,
    StatementKind.functions, bagOf_cons, bagOf_append, bagOf_nil, arms_eq, add_zero]
  abel

theorem loop_eq (i : NodeId) (label : Option Ident) (head : LoopHead) (body : Block) (span : Span) :
    w.ofStatement ⟨i, .loop label head body, span⟩ =
      w.statement i [] [] [] + (bagOf w.ofExpr head.test?.toList + bagOf w.ofStatement head.statements +
        w.ofBlock body) := by
  simp [w.statement_eq, ofKind, StatementKind.declared, StatementKind.titled, StatementKind.assigned,
    StatementKind.tests, StatementKind.operands, StatementKind.headers, StatementKind.blocks, StatementKind.functions]

theorem routineWith_le (i j k : NodeId) (name : String) (body : List Statement) (span : Span) :
    w.ofStatement (.routineWith i j k name body span) ≤
      w.statement i [] [⟨name, span⟩] [] + w.func j (some ⟨name, span⟩) [] +
        (w.block k + bagOf w.ofStatement body) := by
  simp only [Statement.routineWith, w.statement_eq, ofKind, StatementKind.declared, StatementKind.titled,
    StatementKind.assigned, StatementKind.tests, StatementKind.operands, StatementKind.headers,
    StatementKind.blocks, StatementKind.functions, bagOf_nil, bagOf_cons, zero_add, add_zero,
    w.func_eq, w.block_eq, Option.toList_some, add_assoc]
  apply add_le_add_right
  split
  · exact le_refl _
  · exact Multiset.zero_le _

end Weighing

/-! ## Pieces of code -/

namespace Weaving

variable {β : Type} (w : Weighing β)

/-- What a piece of code weighs before. -/
def before : Weaving → Multiset β
  | run ss _ _ => bagOf w.ofStatement ss
  | pivot s _ _ => w.ofStatement s
  | arms as _ _ => bagOf w.ofArm as
  | choice b _ _ => bagOf w.ofBlock b.toList

/-- What it weighs when it is rotated. -/
def afterwards : Weaving → Multiset β
  | run _ _ out => bagOf w.ofStatement out
  | pivot _ _ out => w.ofStatement out
  | arms _ _ out => bagOf w.ofArm out
  | choice _ _ out => bagOf w.ofBlock out.toList

end Weaving

section
variable {β : Type} {w : Weighing β} {config : Config} {t : MarkTable} {new : NodeId → Prop}
  {ofId : NodeId → Multiset β} {ofName : String → Multiset β}

/-- The calls that go on from somewhere weigh nothing. -/
def Weighing.Free (w : Weighing β) (after : Option Expr) : Prop := ∀ e ∈ after, w.ofExpr e = 0

theorem Weighing.Free.bag {after : Option Expr} (h : w.Free after) :
    bagOf w.ofExpr after.toList = 0 :=
  bagOf_eq_zero fun e he => h e (Option.mem_toList.mp he)

theorem Weighing.free_callNamed (name : String) (span : Span) :
    w.Free (some (.callNamed name span)) := by
  intro e he
  cases he
  exact w.callNamed_eq name span

theorem LoopStack.mem_of_target? {loops : LoopStack} {loop : LoopContext} {label : Option String}
    (h : loops.target? label = some loop) : loop ∈ loops := by
  cases label with
  | none => exact List.mem_of_mem_head? h
  | some l => exact List.mem_of_find?_eq_some h

/-- What a counter is given weighs nothing. -/
theorem Expr.Resumes.free (charges : w.Charges config.reservedPrefix new ofId ofName)
    {fresh : NodeId → Prop} {span : Span} {after : Option Expr} {value : Expr}
    (h : value.Resumes fresh span after) (free : w.Free after) (isNew : ∀ i, fresh i → new i) :
    w.ofExpr value = 0 := by
  cases h with
  | routine => exact w.ident_eq _
  | @call call i j k hi hj hk =>
    refine charges.continuation i j _ span (isNew i hi) fun s hs => ?_
    exact ⟨k, call, List.mem_singleton.mp hs, free call rfl⟩
  | @nothing i j hi hj => exact charges.continuation i j _ span (isNew i hi) (by simp)

/-- The parts of a loop weigh no more than the loop, what ends it, and what was taken. -/
theorem LoopHead.Pieces.weighs (charges : w.Charges config.reservedPrefix new ofId ofName)
    {body : Block} {name : String} {exit : Statement} {span : Span} {head : LoopHead}
    {parts : Wiring.LoopParts} {ids : Multiset NodeId}
    (h : head.Pieces body (.callNamed name span) exit span parts ids) :
    bagOf w.ofStatement parts.before + bagOf w.ofStatement parts.restart +
        bagOf w.ofStatement parts.next ≤
      bagOf w.ofExpr head.test?.toList + bagOf w.ofStatement head.statements + w.ofBlock body +
        w.ofStatement exit + ids.bind ofId := by
  classical
  rw [Multiset.le_iff_count]
  intro b
  have block i := Multiset.le_iff_count.mp (charges.block i) b
  have statement i := Multiset.le_iff_count.mp (charges.statement i) b
  cases h with
  | @whileDo condition i j k =>
    have := block j
    have := statement i
    have := statement k
    simp only [Statement.branchWith, w.branch_eq, w.callWith_eq, w.callNamed_eq, bagOf_cons,
      bagOf_nil, Option.toList_some, w.block_eq ⟨j, _, _⟩, test?, statements, Multiset.add_bind,
      Multiset.singleton_bind, Multiset.count_add, Multiset.count_zero]
    omega
  | @doWhile condition i j k l =>
    have := block j
    have := block l
    have := statement i
    have := statement k
    simp only [Statement.branchWith, w.branch_eq, w.callWith_eq, w.callNamed_eq, bagOf_cons,
      bagOf_nil, Option.toList_some, w.block_eq, test?, statements, Multiset.add_bind,
      Multiset.singleton_bind, Multiset.count_add, Multiset.count_zero]
    omega
  | @counting init update condition i j k =>
    have := block j
    have := statement i
    have := statement k
    simp only [Statement.branchWith, w.branch_eq, w.callWith_eq, w.callNamed_eq, bagOf_cons,
      bagOf_nil, bagOf_append, Option.toList_some, w.block_eq ⟨j, _, _⟩, test?, statements,
      Multiset.add_bind, Multiset.singleton_bind, Multiset.count_add, Multiset.count_zero]
    omega
  | @endless init update k =>
    have := statement k
    simp only [w.callWith_eq, w.callNamed_eq, bagOf_cons, bagOf_nil, bagOf_append,
      Option.toList_none, w.block_eq, test?, statements, Multiset.singleton_bind,
      Multiset.count_add, Multiset.count_zero]
    omega

/-- **A piece of rotated code weighs no more than before and what was taken for it**, and what is
charged for the continuations among this is left over. -/
theorem Turned.weighs (charges : w.Charges config.reservedPrefix new ofId ofName)
    {loops : LoopStack} {piece : Weaving} {ids : Multiset NodeId} {names : Multiset String}
    {made : Multiset Func} (h : Turned config t loops piece ids names made)
    (isNew : ∀ i ∈ ids, new i) (free : w.Free piece.goesOn)
    (around : ∀ loop ∈ loops, w.ofExpr loop.next = 0 ∧ w.Free loop.exit) :
    piece.afterwards w + (unitIdsOf made).bind ofId ≤
      piece.before w + ids.bind ofId + names.bind ofName := by
  classical
  induction h with
  | done => exact le_refl _
  | @goOn loops call i =>
    simpa [Weaving.afterwards, Weaving.before, w.callWith_eq, free call rfl] using
      charges.statement i
  | keep unmarked rest ih =>
    have rest := ih isNew free around
    simp only [Weaving.afterwards, Weaving.before, bagOf_cons, add_assoc] at rest ⊢
    exact add_le_add_right rest _
  | @jump loops loop s ss tail kind label isJump target =>
    have known := around loop (LoopStack.mem_of_target? target)
    obtain ⟨id, _, span⟩ := s
    cases isJump
    have lowered : w.ofStatement ⟨id, loop.lowered kind, span⟩ = w.statement id [] [] [] := by
      cases kind with
      | leave => rw [LoopContext.lowered, w.exiting_eq, known.2.bag, add_zero]
      | resume =>
        have := w.callWith_eq id loop.next
        rw [known.1, add_zero] at this
        rw [← this, LoopContext.lowered, w.statement_eq, Statement.callWith, w.statement_eq]
    simp only [Weaving.afterwards, Weaving.before, bagOf_cons, bagOf_nil, lowered, w.jump_eq,
      unitIdsOf_zero, Multiset.zero_bind, add_zero]
    exact Multiset.le_add_right _ _
  | last marked pivot ih => simpa [Weaving.afterwards, Weaving.before] using ih isNew free around
  | @split loops s wired ss out tail name i j k ids more names others made further marked rest pivot
      ihRest ihPivot =>
    have rest := ihRest (fun x hx => isNew x (by simp [hx])) free around
    have pivot := ihPivot (fun x hx => isNew x (by simp [hx])) (Weighing.free_callNamed _ _) around
    rw [Multiset.le_iff_count] at rest pivot ⊢
    intro b
    have := rest b
    have := pivot b
    have := Multiset.le_iff_count.mp (w.routineWith_le i j k name out s.span) b
    have := Multiset.le_iff_count.mp (charges.routine i j name s.span) b
    have := Multiset.le_iff_count.mp (charges.block k) b
    simp only [Weaving.afterwards, Weaving.before, bagOf_cons, bagOf_nil, unitIdsOf_add,
      Multiset.add_bind, Multiset.singleton_bind, Multiset.count_add, Multiset.count_zero] at *
    omega
  | @block loops s body out after ids names made isBlock inner ih =>
    have inner := ih isNew free around
    obtain ⟨id, kind, span⟩ := s
    cases isBlock
    simp only [Weaving.afterwards, Weaving.before, w.block_kind_eq, w.block_eq, add_assoc]
      at inner ⊢
    exact add_le_add_right (add_le_add_right inner _) _
  | @branch loops s condition yes no no' out after ids more names others made further isBranch
      inYes inNo ihYes ihNo =>
    have inYes := ihYes (fun x hx => isNew x (by simp [hx])) free around
    have inNo := ihNo (fun x hx => isNew x (by simp [hx])) free around
    obtain ⟨id, kind, span⟩ := s
    cases isBranch
    rw [Multiset.le_iff_count] at inYes inNo ⊢
    intro b
    have := inYes b
    have := inNo b
    simp only [Weaving.afterwards, Weaving.before, w.branch_eq, w.block_eq, unitIdsOf_add,
      Multiset.add_bind, Multiset.count_add] at *
    omega
  | @switch loops s subject arms arms' otherwise otherwise' after ids more names others made further
      isSwitch inArms inRest ihArms ihRest =>
    have inArms := ihArms (fun x hx => isNew x (by simp [hx])) free around
    have inRest := ihRest (fun x hx => isNew x (by simp [hx])) free around
    obtain ⟨id, kind, span⟩ := s
    cases isSwitch
    rw [Multiset.le_iff_count] at inArms inRest ⊢
    intro b
    have := inArms b
    have := inRest b
    simp only [Weaving.afterwards, Weaving.before, w.switch_eq, unitIdsOf_add, Multiset.add_bind,
      Multiset.count_add] at *
    omega
  | @wait loops s body body' out after counter value i given ids names made here isWait lowered
      resumes inner ih =>
    obtain ⟨id, kind, span⟩ := s
    cases isWait
    have weightless := resumes.resumes.free charges free fun x hx => isNew x (by simp [hx])
    have call : w.Free (some (.call (.memberNamed counter config.runtime.wait span) [value] span))
        := by
      intro e he
      cases he
      rw [w.call_eq, w.memberNamed_eq, weightless, add_zero]
    have inner := ih (fun x hx => isNew x (by simp [hx])) call around
    have body := lowered.weight w new ofId ofName charges
    have create := charges.counter i counter span
    rw [Multiset.le_iff_count] at inner body create ⊢
    intro b
    have := inner b
    have := body b
    have := create b
    simp only [Weaving.afterwards, Weaving.before, w.block_kind_eq, w.wait_kind_eq, w.block_eq,
      bagOf_cons, bagOf_nil, w.declare_eq, Option.toList_some, w.callNamed_eq, unitIdsOf_add,
      Multiset.add_bind, Multiset.singleton_bind, Multiset.count_add, Multiset.count_zero] at *
    omega
  | @loop loops s label head body out after routines parts i₁ j₁ k₁ i₂ j₂ k₂ x y z ids more names
      made isLoop inner pieces ih =>
    obtain ⟨id, kind, span⟩ := s
    cases isLoop
    have inner := ih (fun x hx => isNew x (by simp [hx])) (Weighing.free_callNamed _ _) <| by
      intro loop hl
      rcases List.mem_cons.mp hl with rfl | hl
      · exact ⟨w.callNamed_eq _ _, free⟩
      · exact around loop hl
    have parts' := pieces.weighs charges
    have weightless : bagOf w.ofExpr after.toList = 0 := free.bag
    have exit : w.ofStatement (.exitWith x after span) ≤ ofId x := by
      rw [Statement.exitWith, w.exiting_eq, weightless, add_zero]
      exact charges.statement x
    have restart := w.routineWith_le i₁ j₁ k₁ routines.restart parts.restart span
    have next := w.routineWith_le i₂ j₂ k₂ routines.next parts.next span
    rw [Multiset.le_iff_count] at inner parts' exit restart next ⊢
    intro b
    have := inner b
    have := parts' b
    have := exit b
    have := restart b
    have := next b
    have := Multiset.le_iff_count.mp (charges.statement z) b
    have := Multiset.le_iff_count.mp (charges.routine i₁ j₁ routines.restart span) b
    have := Multiset.le_iff_count.mp (charges.routine i₂ j₂ routines.next span) b
    have := Multiset.le_iff_count.mp (charges.block k₁) b
    have := Multiset.le_iff_count.mp (charges.block k₂) b
    have := Multiset.le_iff_count.mp (charges.block y) b
    simp only [Weaving.afterwards, Weaving.before, w.block_kind_eq, w.loop_eq, w.block_eq,
      bagOf_cons, bagOf_nil, bagOf_append, w.callWith_eq, w.callNamed_eq, Multiset.add_bind,
      Multiset.singleton_bind, Multiset.count_add, Multiset.count_zero] at *
    omega
  | noArms => exact le_refl _
  | @arm loops a arms arms' out after ids more names others made further inArm rest ihArm ihRest =>
    have inArm := ihArm (fun x hx => isNew x (by simp [hx])) free around
    have rest := ihRest (fun x hx => isNew x (by simp [hx])) free around
    rw [Multiset.le_iff_count] at inArm rest ⊢
    intro b
    have := inArm b
    have := rest b
    simp only [Weaving.afterwards, Weaving.before, bagOf_cons, Weighing.ofArm, w.block_eq,
      unitIdsOf_add, Multiset.add_bind, Multiset.count_add] at *
    omega
  | @chosen loops b out after ids names made inner ih =>
    have inner := ih isNew free around
    simp only [Weaving.afterwards, Weaving.before, Option.toList_some, bagOf_cons, bagOf_nil,
      add_zero, w.block_eq, add_assoc] at inner ⊢
    exact add_le_add_right inner _
  | @missing loops call i j span =>
    simp only [Weaving.afterwards, Weaving.before, Option.toList_some, Option.toList_none,
      bagOf_cons, bagOf_nil, add_zero, zero_add, w.block_eq, w.callWith_eq, free call rfl,
      unitIdsOf_zero, Multiset.add_bind, Multiset.singleton_bind, Multiset.zero_bind]
    rw [add_comm]
    exact add_le_add (charges.statement i) (charges.block j)
  | absent => exact le_refl _

/-! ## Hoisting -/

/-- No rule is broken in any statement of code that breaks no rule. -/
theorem Node.lawful_of_survey {n : Node} {room : Nat} {inWait : Bool}
    (lawful : (n.survey config room inWait).violations = []) {s : Statement}
    (hs : .statement s ∈ n.ownNodes) : ∃ room inWait, s.kind.Lawful config room inWait := by
  induction n using Node.inductOn generalizing room inWait with
  | step n ih =>
    have inside : ∀ c ∈ n.children, ∃ room inWait, (c.survey config room inWait).violations = [] := by
      intro c hc
      cases n with
      | block b =>
        obtain ⟨x, hx, rfl⟩ := List.mem_map.mp hc
        simp only [Node.survey, Block.survey_eq, Survey.within_violations,
          Statement.listSurvey_violations_eq_nil] at lawful
        exact ⟨room, inWait, lawful x hx⟩
      | statement x =>
        obtain ⟨r, rfl⟩ := Statement.room_of_survey config lawful
        have lawful := Statement.lawful_of_survey config lawful
        rcases List.mem_append.mp hc with hc | hc
        · obtain ⟨h, hh, rfl⟩ := List.mem_map.mp hc
          exact ⟨r, inWait, lawful.headers h hh⟩
        · obtain ⟨b, hb, rfl⟩ := List.mem_map.mp hc
          exact ⟨r, _, lawful.blocks b hb⟩
      | _ => cases hc
    rcases (Node.mem_ownNodes (i := s.id) rfl).mp hs with rfl | ⟨c, hc, hs⟩
    · obtain ⟨r, rfl⟩ := Statement.room_of_survey config lawful
      exact ⟨r, inWait, Statement.lawful_of_survey config lawful⟩
    · obtain ⟨room, inWait, lawful⟩ := inside c hc
      exact ih c hc lawful hs

/-- No name that a unit without a broken rule declares is reserved. -/
theorem Func.not_reserved_of_marking {f : Func} {m : Marking} (ok : f.marking config = .ok m)
    {n : Node} (hn : n ∈ f.body.ownNodes) {x : Ident} (declares : n.declared? = some x) :
    config.isReserved x.name = false := by
  have lawful : ((Node.block f.body).survey config config.maxDepth false).violations = [] :=
    (marking_spec ok).1.body
  cases n with
  | statement s =>
    obtain ⟨room, inWait, lawful⟩ := Node.lawful_of_survey lawful hn
    obtain ⟨id, kind, span⟩ := s
    cases kind with
    | declare name init =>
      cases declares
      exact lawful.declared x (by simp [StatementKind.declared])
    | _ => cases declares
  | _ => cases declares

/-- What declarations at the top may count for: an assignment no more than the declaration in its
place, and a new declaration no more than is charged for its id. -/
structure Weighing.Hoists (w : Weighing β) (ofId : NodeId → Multiset β) (P : Ident → Prop) :
    Prop where
  assigns : ∀ i x, P x → w.statement i [] [] [x] ≤ w.statement i [x] [] []
  declares : ∀ i x, P x → w.statement i [x] [] [] ≤ ofId i

/-- Assignments in place of declarations add nothing. -/
theorem Block.weighs_undeclared {P : Ident → Prop} (hoists : w.Hoists ofId P) {b : Block}
    (names : ∀ n ∈ b.ownNodes, ∀ x, n.declared? = some x → P x) :
    w.ofBlock b.undeclared ≤ w.ofBlock b := by
  induction b using Block.inductOn (Q := fun s : Statement =>
      (∀ n ∈ s.ownNodes, ∀ x, n.declared? = some x → P x) →
        w.ofStatement s.undeclared ≤ w.ofStatement s) with
  | block b ih =>
    rw [Block.undeclared_eq, w.block_eq, w.block_eq, bagOf_map]
    refine add_le_add_right (Weighing.bagOf_le fun s hs => ih s hs fun n hn => ?_) _
    exact names n (Node.ownNodes_of_child (n := .block b) (c := .statement s)
      (List.mem_map_of_mem hs) hn)
  | statement s headers blocks =>
    rename_i names
    have own : w.statement s.id s.kind.undeclared.declared s.kind.undeclared.titled
        s.kind.undeclared.assigned ≤
          w.statement s.id s.kind.declared s.kind.titled s.kind.assigned := by
      obtain ⟨id, kind, span⟩ := s
      cases kind with
      | declare x init =>
        exact hoists.assigns id x (names _ (Node.self_mem_ownNodes (.statement _)) x rfl)
      | branch condition yes no => cases no <;> exact le_refl _
      | switch subject arms otherwise => cases otherwise <;> exact le_refl _
      | loop label head body => cases head <;> exact le_refl _
      | _ => exact le_refl _
    have operands : bagOf w.ofExpr s.kind.undeclared.operands = bagOf w.ofExpr s.kind.operands := by
      obtain ⟨more, trivial, same⟩ := s.kind.operands_undeclared
      rw [same, bagOf_append, bagOf_eq_zero, zero_add]
      intro e he
      rcases trivial e he with ⟨name, -, rfl⟩ | ⟨span, rfl⟩
      · exact w.ident_eq name
      · simp [w.expr_eq, Expr.bound, Expr.operands, Expr.functions]
    have inHeaders : bagOf w.ofStatement s.kind.undeclared.headers ≤
        bagOf w.ofStatement s.kind.headers := by
      rw [StatementKind.headers_undeclared, bagOf_map]
      refine Weighing.bagOf_le fun h hh => headers h hh fun n hn => names n ?_
      exact Node.ownNodes_of_child (n := .statement s) (c := .statement h)
        (List.mem_append_left _ (List.mem_map_of_mem hh)) hn
    have inBlocks : bagOf w.ofBlock s.kind.undeclared.blocks ≤ bagOf w.ofBlock s.kind.blocks := by
      rw [StatementKind.blocks_undeclared, bagOf_map]
      refine Weighing.bagOf_le fun b hb => blocks b hb fun n hn => names n ?_
      exact Node.ownNodes_of_child (n := .statement s) (c := .block b)
        (List.mem_append_right _ (List.mem_map_of_mem hb)) hn
    rw [Statement.undeclared_eq, w.statement_eq, w.statement_eq, Weighing.ofKind, Weighing.ofKind,
      StatementKind.tests_undeclared, StatementKind.functions_undeclared, operands]
    exact add_le_add own (add_le_add_left (add_le_add (add_le_add_right inHeaders _) inBlocks) _)

/-- New declarations of some names, and the ids taken for them. -/
structure DeclaresEach (names : List Ident) (ds : List Statement) (ids : Multiset NodeId) :
    Prop where
  each : List.Forall₂ (fun x d => d = .declaration d.id x) names ds
  ids : ids = ↑(ds.map Statement.id)

theorem takes_declarations (names : List Ident) :
    Takes (declarations names) fun ids ds => DeclaresEach names ds ids := by
  induction names with
  | nil => exact .pure ⟨.nil, rfl⟩
  | cons name names ih =>
    refine takes_fresh.bind fun i => ih.bind fun ds => .pure ?_
    rintro _ ⟨each, rfl⟩ _ rfl
    exact ⟨.cons rfl each, by simp [Statement.declaration]⟩

theorem DeclaresEach.exists_of_mem {names : List Ident} {ds : List Statement}
    {ids : Multiset NodeId} (h : DeclaresEach names ds ids) {d : Statement} (hd : d ∈ ds) :
    ∃ x ∈ names, d = .declaration d.id x := by
  obtain ⟨each, -⟩ := h
  induction each with
  | nil => cases hd
  | @cons x d₀ names ds first rest ih =>
    rcases List.mem_cons.mp hd with rfl | hd
    · exact ⟨x, List.mem_cons_self, first⟩
    · obtain ⟨y, hy, same⟩ := ih hd
      exact ⟨y, List.mem_cons_of_mem _ hy, same⟩

theorem DeclaresEach.exists_declaration {names : List Ident} {ds : List Statement}
    {ids : Multiset NodeId} (h : DeclaresEach names ds ids) {x : Ident} (hx : x ∈ names) :
    ∃ d ∈ ds, d = .declaration d.id x := by
  obtain ⟨each, -⟩ := h
  induction each with
  | nil => cases hx
  | @cons y d names ds first rest ih =>
    rcases List.mem_cons.mp hx with rfl | hx
    · exact ⟨d, List.mem_cons_self, first⟩
    · obtain ⟨d', hd, same⟩ := ih hx
      exact ⟨d', List.mem_cons_of_mem _ hd, same⟩

theorem DeclaresEach.weighs {P : Ident → Prop} (hoists : w.Hoists ofId P) {names : List Ident}
    {ds : List Statement} {ids : Multiset NodeId} (h : DeclaresEach names ds ids)
    (lawful : ∀ x ∈ names, P x) : bagOf w.ofStatement ds ≤ ids.bind ofId := by
  obtain ⟨each, rfl⟩ := h
  induction each with
  | nil => exact Multiset.zero_le _
  | @cons x d names ds first rest ih =>
    rw [List.map_cons, ← Multiset.cons_coe, Multiset.cons_bind, bagOf_cons]
    refine add_le_add ?_ (ih fun y hy => lawful y (List.mem_cons_of_mem _ hy))
    rw [first, Statement.declaration, w.declare_eq, Option.toList_none, bagOf_nil, add_zero]
    exact hoists.declares d.id x (lawful x List.mem_cons_self)

namespace Func

/-- A name that is hoisted is declared by the function's own code. -/
theorem exists_of_mem_declaredNames {f : Func} {x : Ident} (h : x ∈ f.declaredNames) :
    ∃ n ∈ f.body.ownNodes, n.declared? = some x := by
  have first : ∀ is : List Ident, x ∈ Ident.firsts is → x ∈ is := by
    intro is
    induction is with
    | nil => exact fun hx => hx
    | cons i is ih =>
      intro hx
      rcases List.mem_cons.mp hx with rfl | hx
      · exact List.mem_cons_self
      · exact List.mem_cons_of_mem _ (ih (List.mem_filter.mp hx).1)
  exact List.mem_filterMap.mp (List.mem_filter.mp (first _ h)).1

/-- Whatever becomes of a function that is hoisted and rotated: its name and parameters stay, and
its body, with declarations at the top, is turned into the new one. -/
theorem gives_lower (config : Config) (t : MarkTable) (f : Func) :
    Gives config.reservedPrefix (f.lower ⟨config, t⟩) fun ids names g =>
      ∃ ds out given rest made, ids = given + rest ∧ DeclaresEach f.declaredNames ds given ∧
        g = { f with body := { f.body with statements := out } } ∧
        Turned config t [] (.run (ds ++ f.body.undeclared.statements) none out) rest names made := by
  have hoisted : Takes f.hoist fun ids r => ∃ ds, DeclaresEach f.declaredNames ds ids ∧
      r.1 = { f with body := { f.body with
        statements := ds ++ f.body.undeclared.statements } } := by
    refine (takes_declarations _).bind fun ds => .pure fun ids declares => ⟨ds, ?_, rfl⟩
    rwa [add_zero]
  have rotated (g : Func) : Gives config.reservedPrefix (g.rotate ⟨config, t⟩) fun ids names g' =>
      ∃ out made, g' = { g with body := { g.body with statements := out } } ∧
        Turned config t [] (.run g.body.statements none out) ids names made := by
    refine (Block.gives_rotateTo _ [] g.body none (Nat.le_refl _)).bind fun b => .pure ?_
    rintro ids names ⟨out, made, rfl, turned⟩
    exact ⟨out, made, rfl, by rwa [add_zero, add_zero]⟩
  refine (Gives.drawIds hoisted).bind fun r => (rotated r.1).weaken ?_
  rintro rest names _ ⟨out, made, rfl, turned⟩ given _ ⟨rfl, ds, declares, same⟩
  rw [same] at turned
  refine ⟨ds, out, given, rest, made, rfl, declares, ?_, ?_⟩
  · rw [same]
  · rwa [zero_add]

/-- The body of a function that is hoisted and rotated weighs no more than before and what was
taken, without the continuations that may be copied. -/
theorem weighs_body {P : Ident → Prop} (charges : w.Charges config.reservedPrefix new ofId ofName)
    (hoists : w.Hoists ofId P) {f : Func}
    (lawful : ∀ n ∈ f.body.ownNodes, ∀ x, n.declared? = some x → P x)
    {ds out : List Statement} {given rest : Multiset NodeId} {names : Multiset String}
    {made : Multiset Func} (declares : DeclaresEach f.declaredNames ds given)
    (turned : Turned config t [] (.run (ds ++ f.body.undeclared.statements) none out) rest names
      made)
    (isNew : ∀ i ∈ rest, new i) :
    w.ofBlock { f.body with statements := out } + (unitIdsOf made).bind ofId ≤
      w.ofBlock f.body + (given + rest).bind ofId + names.bind ofName := by
  classical
  have own : ∀ x ∈ f.declaredNames, P x := by
    intro x hx
    obtain ⟨n, hn, named⟩ := exists_of_mem_declaredNames hx
    exact lawful n hn x named
  have tops := declares.weighs hoists own
  have body := Block.weighs_undeclared hoists lawful
  have whole := turned.weighs charges isNew (by simp [Weighing.Free, Weaving.goesOn]) (by simp)
  rw [Multiset.le_iff_count] at tops body whole ⊢
  intro b
  have := tops b
  have := body b
  have := whole b
  simp only [Weaving.afterwards, Weaving.before, bagOf_append, w.block_eq, Block.undeclared_eq,
    Multiset.add_bind, Multiset.count_add] at *
  omega

/-- The same for the function. -/
theorem weighs_lower {P : Ident → Prop} (charges : w.Charges config.reservedPrefix new ofId ofName)
    (hoists : w.Hoists ofId P) {f : Func}
    (lawful : ∀ n ∈ f.body.ownNodes, ∀ x, n.declared? = some x → P x)
    {ds out : List Statement} {given rest : Multiset NodeId} {names : Multiset String}
    {made : Multiset Func} (declares : DeclaresEach f.declaredNames ds given)
    (turned : Turned config t [] (.run (ds ++ f.body.undeclared.statements) none out) rest names
      made)
    (isNew : ∀ i ∈ rest, new i) :
    w.ofFunc { f with body := { f.body with statements := out } } ≤
      w.ofFunc f + (given + rest).bind ofId + names.bind ofName := by
  have body := (Multiset.le_add_right _ _).trans
    (weighs_body charges hoists lawful declares turned isNew)
  have sameEnter : w.enters { f with body := { f.body with statements := out } } = w.enters f := rfl
  rw [w.func_eq, w.func_eq, sameEnter]
  split
  · simp only [add_assoc] at body ⊢
    exact add_le_add_right body _
  · exact Multiset.zero_le _

/-- With settings that are accepted, a function is marked, hoisted and rotated to one that passes a
test. -/
def LowersTo (f : Func) (config : Config) (max : NodeId) (test : Func → Bool) : Prop :=
  config.fault? = none ∧ ∃ marking g s', f.marking config = .ok marking ∧
    f.lower ⟨config, marking.table⟩ ⟨.above max, .new config.reservedPrefix⟩ = (.ok g, s') ∧
    s'.ids.exhausted = false ∧ test g = true

theorem lowersTo_of_run {f : Func} {config : Config} {max : NodeId} {test : Func → Bool}
    (valid : config.fault? = none)
    (ran : (match f.marking config with
      | .ok marking =>
        match f.lower ⟨config, marking.table⟩ ⟨.above max, .new config.reservedPrefix⟩ with
        | (.ok g, s') => !s'.ids.exhausted && test g
        | (.error _, _) => false
      | .error _ => false) = true) : f.LowersTo config max test := by
  refine ⟨valid, ?_⟩
  split at ran
  · rename_i marking ok
    split at ran
    · rename_i g s' lowered
      rw [Bool.and_eq_true, Bool.not_eq_true'] at ran
      exact ⟨marking, g, s', ok, lowered, ran.1, ran.2⟩
    · cases ran
  · cases ran

end Func

end

end WaitDefer
