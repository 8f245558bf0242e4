import WaitDefer.Proofs.Marking.Ready
import WaitDefer.Proofs.Rotation.Woven

/-!
# What holds throughout rotated code

Rotated code is looked at node by node, routines included and functions that were there before left
out. A property of nodes that the code to be rotated has, and all that is made up, holds throughout
what comes of it:

* `Statement.Throughout`: all nodes of a statement have a property;
* `Settled`: statements of which only the last may end their block;
* `Fair`, `Weavable`: what is asked of the property and of the code to be rotated;
* `Woven.throughout`: then it holds throughout rotated code.
-/

namespace WaitDefer

/-! ## Part by part -/

section
variable (max : NodeId) (G : Node → Prop)

/-- All nodes of an expression have a property, those of made-up functions too. -/
def Expr.Throughout (e : Expr) : Prop := ∀ n ∈ e.nodes fun g => max < g.id, G n

/-- All nodes of a statement have a property, those of made-up functions too. -/
def Statement.Throughout (s : Statement) : Prop := ∀ n ∈ s.nodes fun g => max < g.id, G n

/-- All nodes of a block have a property, those of made-up functions too. -/
def Block.Throughout (b : Block) : Prop := ∀ n ∈ b.nodes fun g => max < g.id, G n

/-- Statements with a property throughout, of which only the last may end their block: the others
let it go on. -/
structure Settled (lets : Statement → Prop) (ss : List Statement) : Prop where
  throughout : ∀ s ∈ ss, s.Throughout max G
  lets : ∀ s ∈ ss.dropLast, lets s

/-- A property of nodes that everything has which is made up, if it is not put behind the end of a
block. -/
structure Fair (fresh : NodeId → Prop) (lets : Statement → Prop) : Prop where
  block : ∀ b : Block, (∀ s ∈ b.statements.dropLast, lets s) → G (.block b)
  statement : ∀ s : Statement, s.kind.isWait = false → s.kind.isLoop = false →
    s.kind.isJump = false → G (.statement s)
  expr : ∀ e : Expr, e.isDefer = false → G (.expr e)
  ident : ∀ x, G (.ident x)
  func : ∀ f, G (.func f)
  routine : ∀ i j k name body span, fresh i → lets (.routineWith i j k name body span)
  counter : ∀ i name value span, fresh i → lets ⟨i, .declare name value, span⟩

end

section
variable {max : NodeId} {G : Node → Prop} {fresh : NodeId → Prop} {lets : Statement → Prop}

namespace Settled

theorem nil : Settled max G lets [] := ⟨by simp, by simp⟩

theorem single {s : Statement} (h : s.Throughout max G) : Settled max G lets [s] :=
  ⟨by simpa, by simp⟩

theorem cons {s : Statement} {ss : List Statement} (throughout : s.Throughout max G)
    (goesOn : lets s) (h : Settled max G lets ss) : Settled max G lets (s :: ss) := by
  constructor
  · intro x hx
    rcases List.mem_cons.mp hx with rfl | hx
    · exact throughout
    · exact h.throughout x hx
  · intro x hx
    cases ss with
    | nil => cases hx
    | cons y ss =>
      rcases List.mem_cons.mp hx with rfl | hx
      · exact goesOn
      · exact h.lets x hx

theorem append {before ss : List Statement}
    (kept : ∀ s ∈ before, s.Throughout max G ∧ lets s) (h : Settled max G lets ss) :
    Settled max G lets (before ++ ss) := by
  induction before with
  | nil => exact h
  | cons s before ih =>
    obtain ⟨throughout, goesOn⟩ := kept s List.mem_cons_self
    exact .cons throughout goesOn (ih fun x hx => kept x (List.mem_cons_of_mem _ hx))

end Settled

section
variable (fair : Fair G fresh lets)
include fair

theorem Settled.block {b : Block} (h : Settled max G lets b.statements) : b.Throughout max G := by
  intro n hn
  rw [Block.nodes_eq, List.mem_cons, List.mem_flatMap] at hn
  rcases hn with rfl | ⟨s, hs, hn⟩
  · exact fair.block b h.lets
  · exact h.throughout s hs n hn

/-- A property holds throughout a statement if it does throughout the parts. -/
theorem Statement.throughout_of_parts {s : Statement} (own : G (.statement s))
    (exprs : ∀ e ∈ s.kind.tests ++ s.kind.operands, e.Throughout max G)
    (functions : ∀ f ∈ s.kind.functions, f.id ≤ max)
    (headers : ∀ h ∈ s.kind.headers, h.Throughout max G)
    (blocks : ∀ b ∈ s.kind.blocks, b.Throughout max G) : s.Throughout max G := by
  intro n hn
  rw [Statement.nodes_eq, List.mem_cons] at hn
  rcases hn with rfl | hn
  · exact own
  · rw [(StatementKind.nodes_perm _ s.kind).mem_iff] at hn
    simp only [List.mem_append, List.mem_map, List.mem_flatMap] at hn
    rcases hn with ((((⟨i, -, rfl⟩ | ⟨e, he, hn⟩) | ⟨e, he, hn⟩) | ⟨h, hh, hn⟩) | ⟨b, hb, hn⟩) |
      ⟨f, hf, hn⟩
    · exact fair.ident i
    · exact exprs e (List.mem_append_left _ he) n hn
    · exact exprs e (List.mem_append_right _ he) n hn
    · exact headers h hh n hn
    · exact blocks b hb n hn
    · rw [Func.nodes_of_old (functions f hf)] at hn
      cases hn

/-! ## Made-up code -/

theorem Expr.throughout_ident (name : Ident) : (Expr.ident name).Throughout max G := by
  intro n hn
  simp only [nodes, List.mem_cons, List.not_mem_nil, or_false] at hn
  rcases hn with rfl | rfl
  · exact fair.expr _ rfl
  · exact fair.ident _

theorem Expr.throughout_memberNamed (object property : String) (span : Span) :
    (Expr.memberNamed object property span).Throughout max G := by
  intro n hn
  rw [memberNamed, nodes, List.mem_cons] at hn
  rcases hn with rfl | hn
  · exact fair.expr _ rfl
  · exact throughout_ident fair _ n hn

theorem Expr.throughout_call {callee : Expr} {arguments : List Expr} {span : Span}
    (inside : ∀ e ∈ callee :: arguments, e.Throughout max G) :
    (Expr.call callee arguments span).Throughout max G := by
  intro n hn
  rw [nodes, listNodes_eq, List.mem_cons] at hn
  rcases hn with rfl | hn
  · exact fair.expr _ rfl
  · obtain ⟨e, he, hn⟩ : ∃ e ∈ callee :: arguments, n ∈ e.nodes fun g => max < g.id := by
      simpa [List.mem_append, List.mem_flatMap] using hn
    exact inside e he n hn

theorem Expr.throughout_callNamed (name : String) (span : Span) :
    (Expr.callNamed name span).Throughout max G :=
  throughout_call fair (List.forall_mem_singleton.mpr (throughout_ident fair _))

theorem Statement.throughout_callWith {i : NodeId} {call : Expr} (h : call.Throughout max G) :
    (Statement.callWith i call).Throughout max G :=
  throughout_of_parts fair (fair.statement _ rfl rfl rfl)
    (by simpa [callWith, StatementKind.tests, StatementKind.operands] using h)
    (by simp [callWith, StatementKind.functions]) (by simp [callWith, StatementKind.headers])
    (by simp [callWith, StatementKind.blocks])

theorem Statement.throughout_exiting {i : NodeId} {span : Span} {exit : Option Expr}
    (h : ∀ e ∈ exit, e.Throughout max G) :
    (⟨i, .exiting exit, span⟩ : Statement).Throughout max G := by
  cases exit with
  | none =>
    exact throughout_of_parts fair (fair.statement _ rfl rfl rfl)
      (by simp [StatementKind.exiting, StatementKind.tests, StatementKind.operands])
      (by simp [StatementKind.exiting, StatementKind.functions])
      (by simp [StatementKind.exiting, StatementKind.headers])
      (by simp [StatementKind.exiting, StatementKind.blocks])
  | some call =>
    apply throughout_of_parts fair (fair.statement _ rfl rfl rfl)
    · simpa [StatementKind.exiting, StatementKind.tests, StatementKind.operands] using h
    · simp [StatementKind.exiting, StatementKind.functions]
    · simp [StatementKind.exiting, StatementKind.headers]
    · simp [StatementKind.exiting, StatementKind.blocks]

theorem Statement.throughout_block {i : NodeId} {b : Block} {span : Span}
    (h : b.Throughout max G) : (⟨i, .block b, span⟩ : Statement).Throughout max G :=
  throughout_of_parts fair (fair.statement _ rfl rfl rfl)
    (by simp [StatementKind.tests, StatementKind.operands])
    (by simp [StatementKind.functions]) (by simp [StatementKind.headers])
    (by simpa [StatementKind.blocks] using h)

theorem Statement.throughout_branch {i : NodeId} {condition : Expr} {yes : Block}
    {no : Option Block} {span : Span} (test : condition.Throughout max G)
    (inYes : yes.Throughout max G) (inNo : ∀ b ∈ no, b.Throughout max G) :
    (⟨i, .branch condition yes no, span⟩ : Statement).Throughout max G := by
  apply throughout_of_parts fair (fair.statement _ rfl rfl rfl)
  · simpa [StatementKind.tests, StatementKind.operands] using test
  · simp [StatementKind.functions]
  · simp [StatementKind.headers]
  · simpa [StatementKind.blocks] using And.intro inYes inNo

theorem Statement.throughout_switch {i : NodeId} {subject : Expr} {arms : List Arm}
    {otherwise : Option Block} {span : Span} (test : subject.Throughout max G)
    (inArms : ∀ a ∈ arms, a.test.Throughout max G ∧ a.body.Throughout max G)
    (inRest : ∀ b ∈ otherwise, b.Throughout max G) :
    (⟨i, .switch subject arms otherwise, span⟩ : Statement).Throughout max G := by
  apply throughout_of_parts fair (fair.statement _ rfl rfl rfl)
  · simpa [StatementKind.tests, StatementKind.operands] using
      And.intro test fun a ha => (inArms a ha).1
  · simp [StatementKind.functions]
  · simp [StatementKind.headers]
  · simp only [StatementKind.blocks, List.mem_append, List.mem_map, Option.mem_toList]
    rintro b (⟨a, ha, rfl⟩ | hb)
    · exact (inArms a ha).2
    · exact inRest b hb

theorem Statement.throughout_branchWith {i j : NodeId} {condition : Expr} {yes : Block}
    {no : Statement} {span : Span} (test : condition.Throughout max G)
    (inYes : yes.Throughout max G) (inNo : no.Throughout max G) :
    (Statement.branchWith i j condition yes no span).Throughout max G := by
  apply throughout_branch fair test inYes
  rintro _ ⟨⟩
  exact Settled.block fair (.single inNo)

/-- A new function is looked into. -/
theorem Func.throughout_of_body {i j : NodeId} {name : Option Ident} {params : List Ident}
    {body : List Statement} {span span' : Span} (h : Settled max G lets body) :
    ∀ n ∈ Func.nodes (fun g => max < g.id) ⟨i, name, params, ⟨j, body, span⟩, span'⟩, G n := by
  intro n hn
  rw [Func.nodes] at hn
  split at hn
  · simp only [List.mem_cons, List.mem_append, List.mem_map] at hn
    rcases hn with rfl | (⟨x, -, rfl⟩ | ⟨x, -, rfl⟩) | hn
    · exact fair.func _
    · exact fair.ident _
    · exact fair.ident _
    · exact Settled.block fair (b := ⟨j, body, span⟩) h n hn
  · cases hn

theorem Expr.throughout_func {i j : NodeId} {params : List Ident} {body : List Statement}
    {span span' : Span} (h : Settled max G lets body) :
    (Expr.func ⟨i, none, params, ⟨j, body, span⟩, span'⟩).Throughout max G := by
  intro n hn
  rw [Expr.nodes, List.mem_cons] at hn
  rcases hn with rfl | hn
  · exact fair.expr _ rfl
  · exact Func.throughout_of_body fair h n hn

theorem Statement.throughout_routineWith {i j k : NodeId} {name : String} {body : List Statement}
    {span : Span} (h : Settled max G lets body) :
    (Statement.routineWith i j k name body span).Throughout max G := by
  intro n hn
  rw [routineWith, Statement.nodes, StatementKind.nodes, List.mem_cons] at hn
  rcases hn with rfl | hn
  · exact fair.statement _ rfl rfl rfl
  · exact Func.throughout_of_body fair h n hn

theorem Expr.Resumes.throughout {span : Span} {after : Option Expr} {value : Expr}
    (h : value.Resumes fresh span after) (goesOn : ∀ e ∈ after, e.Throughout max G) :
    value.Throughout max G := by
  cases h with
  | routine => exact throughout_ident fair _
  | call => exact throughout_func fair (.single (Statement.throughout_callWith fair (goesOn _ rfl)))
  | nothing => exact throughout_func fair .nil

theorem LoopHead.Parted.settled {head : LoopHead} {body : Block} {restart : Expr}
    {exit : Statement} {span : Span} {parts : Wiring.LoopParts}
    (h : head.Parted fresh body restart exit span parts)
    (inBody : Settled max G lets body.statements) (restarts : restart.Throughout max G)
    (exits : exit.Throughout max G) (test : ∀ e ∈ head.test?, e.Throughout max G)
    (headers : ∀ h ∈ head.statements, h.Throughout max G ∧ lets h) :
    (∀ s ∈ parts.before, s.Throughout max G ∧ lets s) ∧
      Settled max G lets parts.restart ∧ Settled max G lets parts.next := by
  have again {k : NodeId} : Settled max G lets [Statement.callWith k restart] :=
    .single (Statement.throughout_callWith fair restarts)
  have branch {i j : NodeId} {condition : Expr} {yes : Block}
      (atTest : condition.Throughout max G) (inYes : yes.Throughout max G) :
      Settled max G lets [Statement.branchWith i j condition yes exit span] :=
    .single (Statement.throughout_branchWith fair atTest inYes exits)
  have update {o : Option Statement} {k : NodeId} (ho : ∀ h ∈ o, h ∈ head.statements) :
      Settled max G lets (o.toList ++ [Statement.callWith k restart]) :=
    .append (fun s hs => headers s (ho s (Option.mem_toList.mp hs))) again
  cases h with
  | whileDo => exact ⟨by simp, branch (test _ rfl) (inBody.block fair), again⟩
  | doWhile => exact ⟨by simp, inBody, branch (test _ rfl) (Settled.block fair again)⟩
  | counting =>
    refine ⟨fun s hs => headers s (List.mem_append_left _ hs),
      branch (test _ rfl) (inBody.block fair), update fun s hs => ?_⟩
    exact List.mem_append_right _ (Option.mem_toList.mpr hs)
  | endless =>
    refine ⟨fun s hs => headers s (List.mem_append_left _ hs), inBody, update fun s hs => ?_⟩
    exact List.mem_append_right _ (Option.mem_toList.mpr hs)

end

/-! ## Woven code -/

/-- What is asked of the statements to be rotated. -/
structure Weavable (config : Config) (t : MarkTable) (max : NodeId) (G : Node → Prop)
    (lets : Statement → Prop) (Inv : Statement → Prop) : Prop where
  kept : ∀ s, Inv s → (Node.statement s).Quiet t → s.Throughout max G ∧ lets s
  tests : ∀ s, Inv s → s.kind.isWait = false → ∀ e ∈ s.kind.tests, e.Throughout max G
  headers : ∀ s, Inv s → s.kind.isWait = false → ∀ h ∈ s.kind.headers, Inv h
  blocks : ∀ s, Inv s → s.kind.isWait = false → ∀ b ∈ s.kind.blocks, ∀ x ∈ b.statements, Inv x
  wait : ∀ s body body' counter, Inv s → s.kind = .wait body → body.Lowers config t max body' →
    body.RewrittenTo config counter body' → ∀ x ∈ body'.statements, Inv x

/-- A piece has a property throughout when it is woven, if what goes on from there has. -/
def Weaving.Throughout (max : NodeId) (G : Node → Prop) (lets Inv : Statement → Prop) :
    Weaving → Prop
  | .run ss tail out => (∀ s ∈ ss, Inv s) → (∀ e ∈ tail, e.Throughout max G) →
    Settled max G lets out
  | .pivot s after out => Inv s → (∀ e ∈ after, e.Throughout max G) → out.Throughout max G
  | .arms as after out => (∀ a ∈ as, a.test.Throughout max G ∧ ∀ s ∈ a.body.statements, Inv s) →
    (∀ e ∈ after, e.Throughout max G) →
      ∀ a ∈ out, a.test.Throughout max G ∧ a.body.Throughout max G
  | .choice block after out => (∀ b ∈ block, ∀ s ∈ b.statements, Inv s) →
    (∀ e ∈ after, e.Throughout max G) → ∀ b ∈ out, b.Throughout max G

/-- A property that the code to be rotated has, and all that is made up, holds throughout rotated
code. -/
theorem Woven.throughout {config : Config} {t : MarkTable} {Inv : Statement → Prop}
    {visible : List String} {around : Option LoopContext} {piece : Weaving} {entries : List Entry}
    (unused : Unused t max fresh) (fair : Fair G fresh lets)
    (weavable : Weavable config t max G lets Inv)
    (h : Woven config t max fresh visible around piece entries)
    (loops : ∀ loop ∈ around,
      (∀ e ∈ loop.exit, e.Throughout max G) ∧ loop.next.Throughout max G) :
    piece.Throughout max G lets Inv := by
  induction h with
  | done => exact fun _ _ => .nil
  | goOn hi => exact fun _ tail => .single (Statement.throughout_callWith fair (tail _ rfl))
  | keep unmarked quiet closed rest ih =>
    intro inv tail
    obtain ⟨throughout, goesOn⟩ := weavable.kept _ (inv _ List.mem_cons_self) quiet
    exact .cons throughout goesOn (ih loops (fun s hs => inv s (List.mem_cons_of_mem _ hs)) tail)
  | @jump _ loop s _ _ kind _ marked isJump caught =>
    intro _ _
    obtain ⟨exit, next⟩ := loops loop rfl
    cases kind with
    | leave => exact .single (Statement.throughout_exiting fair exit)
    | resume =>
      have next : ∀ e ∈ some loop.next, e.Throughout max G := by simpa
      exact .single (Statement.throughout_exiting fair next)
  | last marked pivot ih =>
    intro inv tail
    exact .single (ih loops (inv _ List.mem_cons_self) tail)
  | split marked notLast hi hj hk rest pivot ihRest ihPivot =>
    intro inv tail
    have body := ihRest loops (fun s hs => inv s (List.mem_cons_of_mem _ hs)) tail
    apply Settled.cons (Statement.throughout_routineWith fair body)
      (fair.routine _ _ _ _ _ _ hi)
    apply Settled.single
    apply ihPivot loops (inv _ List.mem_cons_self)
    rintro _ ⟨⟩
    exact Expr.throughout_callNamed fair _ _
  | block isBlock inner ih =>
    intro inv after
    apply Statement.throughout_block fair
    refine Settled.block fair (ih loops (weavable.blocks _ inv ?_ _ ?_) after)
    · simp [isBlock, StatementKind.isWait]
    · simp [isBlock, StatementKind.blocks]
  | branch isBranch inYes inNo ihYes ihNo =>
    intro inv after
    have notWait := weavable.blocks _ inv (by simp [isBranch, StatementKind.isWait])
    have tests := weavable.tests _ inv (by simp [isBranch, StatementKind.isWait])
    simp only [isBranch, StatementKind.tests, StatementKind.blocks] at tests notWait
    refine Statement.throughout_branch fair (tests _ (by simp))
      (Settled.block fair (ihYes loops ?_ after)) (ihNo loops ?_ after)
    · exact notWait _ List.mem_cons_self
    · exact fun b hb => notWait b (List.mem_cons_of_mem _ (Option.mem_toList.mpr hb))
  | switch isSwitch inArms inRest ihArms ihRest =>
    intro inv after
    have blocks := weavable.blocks _ inv (by simp [isSwitch, StatementKind.isWait])
    have tests := weavable.tests _ inv (by simp [isSwitch, StatementKind.isWait])
    simp only [isSwitch, StatementKind.tests, StatementKind.blocks] at tests blocks
    refine Statement.throughout_switch fair (tests _ (by simp))
      (ihArms loops (fun a ha => ⟨?_, ?_⟩) after) (ihRest loops (fun b hb => ?_) after)
    · exact tests _ (List.mem_cons_of_mem _ (List.mem_map_of_mem ha))
    · exact blocks _ (List.mem_append_left _ (List.mem_map_of_mem ha))
    · exact blocks b (List.mem_append_right _ (Option.mem_toList.mpr hb))
  | @wait _ _ s body body' out after counter value i _ isWait hi lowers plain rewritten resumes
      inner ih =>
    intro inv after
    have value := resumes.throughout fair after
    have create : Statement.Throughout max G ⟨i, .declare ⟨counter, s.span⟩
        (some (.callNamed config.runtime.newCounter s.span)), s.span⟩ := by
      apply Statement.throughout_of_parts fair (fair.statement _ rfl rfl rfl)
      · simpa [StatementKind.tests, StatementKind.operands] using
          Expr.throughout_callNamed fair _ _
      · simp [StatementKind.functions]
      · simp [StatementKind.headers]
      · simp [StatementKind.blocks]
    apply Statement.throughout_block fair
    refine Settled.block fair (.cons create (fair.counter _ _ _ _ hi) (ih (by simp)
      (weavable.wait _ _ _ _ inv isWait (lowers unused) rewritten) ?_))
    rintro _ ⟨⟩
    exact Expr.throughout_call fair (List.forall_mem_cons.mpr
      ⟨Expr.throughout_memberNamed fair _ _ _, List.forall_mem_singleton.mpr value⟩)
  | loop isLoop headers new inner parted ih =>
    intro inv after
    have blocks := weavable.blocks _ inv (by simp [isLoop, StatementKind.isWait])
    have tests := weavable.tests _ inv (by simp [isLoop, StatementKind.isWait])
    have heads := weavable.headers _ inv (by simp [isLoop, StatementKind.isWait])
    simp only [isLoop, StatementKind.tests, StatementKind.headers, StatementKind.blocks]
      at tests heads blocks
    simp only [List.forall_mem_cons] at new
    obtain ⟨hi₁, -, -, hi₂, -⟩ := new
    have next {name : String} {span : Span} : ∀ e ∈ some (Expr.callNamed name span),
        e.Throughout max G := by
      rintro _ ⟨⟩
      exact Expr.throughout_callNamed fair _ _
    have body := ih (by rintro _ ⟨⟩; exact ⟨after, Expr.throughout_callNamed fair _ _⟩)
      (blocks _ List.mem_cons_self) next
    obtain ⟨before, restart, goOn⟩ := parted.settled fair body
      (Expr.throughout_callNamed fair _ _) (Statement.throughout_exiting fair after)
      (fun e he => tests e (Option.mem_toList.mpr he))
      fun h hh => weavable.kept h (heads h hh) (headers h hh).2
    apply Statement.throughout_block fair
    refine Settled.block fair (.append before ?_)
    apply Settled.cons (Statement.throughout_routineWith fair restart)
      (fair.routine _ _ _ _ _ _ hi₁)
    apply Settled.cons (Statement.throughout_routineWith fair goOn)
      (fair.routine _ _ _ _ _ _ hi₂)
    exact .single (Statement.throughout_callWith fair (Expr.throughout_callNamed fair _ _))
  | noArms => exact fun _ _ a ha => by cases ha
  | arm inArm rest ihArm ihRest =>
    intro inv after a ha
    rcases List.mem_cons.mp ha with rfl | ha
    · obtain ⟨test, body⟩ := inv _ List.mem_cons_self
      exact ⟨test, Settled.block fair (ihArm loops body after)⟩
    · exact ihRest loops (fun a ha => inv a (List.mem_cons_of_mem _ ha)) after a ha
  | chosen inner ih =>
    rintro inv after _ ⟨⟩
    exact Settled.block fair (ih loops (inv _ rfl) after)
  | missing hi hj =>
    rintro - after _ ⟨⟩
    exact Settled.block fair (.single (Statement.throughout_callWith fair (after _ rfl)))
  | absent => exact fun _ _ b hb => by cases hb

end

end WaitDefer
