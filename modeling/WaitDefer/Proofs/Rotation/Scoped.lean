import WaitDefer.Proofs.Rotation.Weighed
import WaitDefer.Proofs.Tree.Scopes

/-!
# Rotated code is well scoped

Routines and counters are declared where all that refers to them can see them:

* `Block.Lowered.knows`: callbacks refer to the counter of their wait-block;
* `Turned.arranged`: rotated code refers to what it declares before, or to what is known around it.
-/

namespace WaitDefer

section
variable (made : String → Prop) (known : List String)

/-- Own code that only refers to known names. -/
def Expr.Knows (e : Expr) : Prop := ∀ n ∈ e.ownNodes, n.Knows made known

def Statement.Knows (s : Statement) : Prop := ∀ n ∈ s.ownNodes, n.Knows made known

def Block.Knows (b : Block) : Prop := ∀ n ∈ b.ownNodes, n.Knows made known

end

section
variable {made : String → Prop} {known : List String}

/-! ## Part by part -/

theorem Node.knows_ident (x : Ident) : (Node.ident x).Knows made known :=
  ⟨by simp [refers], by simp [functions]⟩

theorem Expr.knows_iff {e : Expr} : e.Knows made known ↔
    (∀ x ∈ e.names, made x.name → x.name ∈ known) ∧ (∀ o ∈ e.operands, o.Knows made known) ∧
      ∀ f ∈ e.functions, f.Scoped made known := by
  constructor
  · intro h
    have self := h (.expr e) (by rw [ownNodes, nodes_parts]; exact List.mem_cons_self)
    refine ⟨fun x hx hm => self.refers _ (List.mem_map_of_mem hx) hm, fun o ho n hn => h n ?_,
      self.functions⟩
    · rw [ownNodes, nodes_parts]
      refine List.mem_cons_of_mem _ (List.mem_append_left _ (List.mem_append_left _ ?_))
      exact List.mem_flatMap.mpr ⟨o, ho, hn⟩
  · rintro ⟨names, operands, functions⟩ n hn
    rw [ownNodes, nodes_parts] at hn
    simp only [List.mem_cons, List.mem_append, List.mem_flatMap, List.mem_map,
      Func.not_mem_nodes, and_false, exists_false, or_false] at hn
    rcases hn with rfl | ⟨o, ho, hn⟩ | ⟨x, -, rfl⟩
    · refine ⟨fun x hx hm => ?_, functions⟩
      obtain ⟨y, hy, rfl⟩ := List.mem_map.mp hx
      exact names y hy hm
    · exact operands o ho n hn
    · exact Node.knows_ident x

theorem Block.knows_iff {b : Block} :
    b.Knows made known ↔ ∀ s ∈ b.statements, s.Knows made known := by
  constructor
  · intro h s hs n hn
    refine h n ?_
    rw [ownNodes, nodes_eq]
    exact List.mem_cons_of_mem _ (List.mem_flatMap.mpr ⟨s, hs, hn⟩)
  · intro h n hn
    rw [ownNodes, nodes_eq] at hn
    rcases List.mem_cons.mp hn with rfl | hn
    · exact ⟨by simp [Node.refers], by simp [Node.functions]⟩
    · obtain ⟨s, hs, hn⟩ := List.mem_flatMap.mp hn
      exact h s hs n hn

/-- What is known of the parts of a statement that only refers to known names. -/
structure StatementKind.KnowsParts (made : String → Prop) (known : List String)
    (kind : StatementKind) : Prop where
  exprs : ∀ e ∈ kind.tests ++ kind.operands, e.Knows made known
  headers : ∀ h ∈ kind.headers, h.Knows made known
  blocks : ∀ b ∈ kind.blocks, b.Knows made known
  functions : ∀ f ∈ kind.functions, f.Scoped made known

theorem Statement.knows_iff {s : Statement} :
    s.Knows made known ↔ s.kind.KnowsParts made known := by
  have parts := fun n => (StatementKind.nodes_perm (fun _ => false) s.kind).mem_iff (a := n)
  have own : ∀ n, n ∈ s.ownNodes ↔ n = .statement s ∨ n ∈ s.kind.nodes fun _ => false := by
    intro n
    rw [ownNodes, nodes_eq, List.mem_cons]
  simp only [List.mem_append, List.mem_flatMap, List.mem_map, Func.not_mem_nodes, and_false,
    exists_false, or_false] at parts
  constructor
  · intro h
    have self := h (.statement s) ((own _).mpr (.inl rfl))
    refine ⟨fun e he n hn => h n ?_, fun x hx n hn => h n ?_, fun b hb n hn => h n ?_,
      self.functions⟩ <;> rw [own, parts]
    · rcases List.mem_append.mp he with he | he
      · exact .inr (.inl (.inl (.inl (.inr ⟨e, he, hn⟩))))
      · exact .inr (.inl (.inl (.inr ⟨e, he, hn⟩)))
    · exact .inr (.inl (.inr ⟨x, hx, hn⟩))
    · exact .inr (.inr ⟨b, hb, hn⟩)
  · intro h n hn
    rw [own, parts] at hn
    rcases hn with rfl | (((⟨x, -, rfl⟩ | ⟨e, he, hn⟩) | ⟨e, he, hn⟩) | ⟨x, hx, hn⟩) | ⟨b, hb, hn⟩
    · exact ⟨by simp [Node.refers], h.functions⟩
    · exact Node.knows_ident x
    · exact h.exprs e (List.mem_append_left _ he) n hn
    · exact h.exprs e (List.mem_append_right _ he) n hn
    · exact h.headers x hx n hn
    · exact h.blocks b hb n hn

theorem Expr.Knows.mono {known' : List String} {e : Expr} (h : e.Knows made known)
    (sub : ∀ x ∈ known, x ∈ known') : e.Knows made known' := fun n hn => (h n hn).mono sub

theorem Statement.Knows.mono {known' : List String} {s : Statement} (h : s.Knows made known)
    (sub : ∀ x ∈ known, x ∈ known') : s.Knows made known' := fun n hn => (h n hn).mono sub

theorem Block.Knows.mono {known' : List String} {b : Block} (h : b.Knows made known)
    (sub : ∀ x ∈ known, x ∈ known') : b.Knows made known' := fun n hn => (h n hn).mono sub

theorem Expr.knows_ident {x : Ident} (h : made x.name → x.name ∈ known) :
    (Expr.ident x).Knows made known := by
  rw [knows_iff]
  exact ⟨by simpa [names] using h, by simp [operands], by simp [functions]⟩

theorem Expr.knows_memberNamed {object property : String} {span : Span}
    (h : made object → object ∈ known) : (Expr.memberNamed object property span).Knows made known := by
  rw [knows_iff]
  refine ⟨by simp [memberNamed, names], ?_, by simp [memberNamed, functions]⟩
  simpa [memberNamed, operands] using knows_ident h

theorem Expr.knows_call {callee : Expr} {arguments : List Expr} {span : Span}
    (h : ∀ e ∈ callee :: arguments, e.Knows made known) :
    (Expr.call callee arguments span).Knows made known := by
  rw [knows_iff]
  exact ⟨by simp [names], h, by simp [functions]⟩

theorem Expr.knows_callNamed {name : String} {span : Span} (h : made name → name ∈ known) :
    (Expr.callNamed name span).Knows made known :=
  knows_call (by simpa using knows_ident h)

theorem Expr.knows_func {f : Func} (h : f.Scoped made known) :
    (Expr.func f).Knows made known := by
  rw [knows_iff]
  exact ⟨by simp [names], by simp [operands], by simpa [functions] using h⟩

/-! ## Callbacks -/

theorem Callbacks.knows_assignments {bindings params : List Ident}
    (bound : ∀ b ∈ bindings, made b.name → b.name ∈ known)
    (given : ∀ p ∈ params, p.name ∈ known) (ids : IdSupply) :
    ∀ s ∈ (assignments bindings params ids).1, s.Knows made known := by
  induction bindings generalizing params ids with
  | nil => exact fun s hs => by cases hs
  | cons b bs ih =>
    cases params with
    | nil => exact fun s hs => by cases hs
    | cons p ps =>
      intro s hs
      rw [assignments_cons] at hs
      rcases List.mem_cons.mp hs with rfl | hs
      · rw [Statement.knows_iff]
        refine ⟨?_, by simp [StatementKind.headers], by simp [StatementKind.blocks],
          by simp [StatementKind.functions]⟩
        simp only [StatementKind.tests, StatementKind.operands, List.nil_append,
          List.forall_mem_cons]
        exact ⟨Expr.knows_ident (bound b List.mem_cons_self),
          Expr.knows_ident fun _ => given p List.mem_cons_self, by simp⟩
      · exact ih (fun b hb => bound b (List.mem_cons_of_mem _ hb))
          (fun p hp => given p (List.mem_cons_of_mem _ hp)) _ s hs

theorem Callbacks.knows_lower {c : Callbacks} (counter : c.counter ∈ known)
    {bindings : List Ident} (bound : ∀ b ∈ bindings, made b.name → b.name ∈ known) (span : Span)
    (ids : IdSupply) : (c.lower bindings span ids).1.Knows made known := by
  have member : (Expr.memberNamed c.counter c.method span).Knows made known :=
    Expr.knows_memberNamed fun _ => counter
  unfold lower
  split
  · exact Expr.knows_call (by simpa using member)
  · refine Expr.knows_call (List.forall_mem_cons.mpr ⟨member, ?_⟩)
    simp only [List.forall_mem_cons, List.not_mem_nil, false_implies, implies_true, and_true]
    refine Expr.knows_func (Arranged.scopes (Arranged.of_knows ?_))
    refine Block.knows_iff.mpr (knows_assignments (fun b hb hm => ?_) (fun p hp => ?_) ids)
    · exact List.mem_append_left _ (bound b hb hm)
    · exact List.mem_append_right _ (List.mem_map_of_mem hp)

/-- What is alike to code that only refers to known names, with the same functions. -/
theorem Expr.Alike.knows {known' : List String} {e e' : Expr}
    (h : e.Alike (fun e e' => e.Knows made known → e'.Knows made known') Eq e')
    (sub : ∀ x ∈ known, x ∈ known') (knows : e.Knows made known) : e'.Knows made known' := by
  rw [knows_iff] at knows ⊢
  refine ⟨fun x hx hm => ?_, fun o ho => ?_, fun f hf => ?_⟩
  · rw [h.names] at hx
    exact sub _ (knows.1 x hx hm)
  · obtain ⟨o₀, ho₀, inside⟩ := exists_left_of_forall₂ h.operands ho
    exact inside (knows.2.1 o₀ ho₀)
  · obtain ⟨f₀, hf₀, rfl⟩ := exists_left_of_forall₂ h.functions hf
    exact (knows.2.2 f₀ hf₀).mono sub

theorem StatementKind.Alike.knows {known' : List String} {k k' : StatementKind}
    (h : k.Alike (fun e e' => e.Knows made known → e'.Knows made known')
      (fun s s' => s.Knows made known → s'.Knows made known')
      (fun b b' => b.Knows made known → b'.Knows made known') Eq k')
    (sub : ∀ x ∈ known, x ∈ known') (knows : k.KnowsParts made known) :
    k'.KnowsParts made known' := by
  refine ⟨fun e he => ?_, fun s hs => ?_, fun b hb => ?_, fun f hf => ?_⟩
  · obtain ⟨e₀, he₀, inside⟩ := exists_left_of_forall₂ (List.rel_append h.tests h.operands) he
    exact inside (knows.exprs e₀ he₀)
  · obtain ⟨s₀, hs₀, inside⟩ := exists_left_of_forall₂ h.headers hs
    exact inside (knows.headers s₀ hs₀)
  · obtain ⟨b₀, hb₀, inside⟩ := exists_left_of_forall₂ h.blocks hb
    exact inside (knows.blocks b₀ hb₀)
  · obtain ⟨f₀, hf₀, rfl⟩ := exists_left_of_forall₂ h.functions hf
    exact (knows.functions f₀ hf₀).mono sub

section
variable {c : Callbacks}

/-- Whatever the supply, a rewriting makes something with a property. -/
def anyway : Triples IdSupply Unit := .keeping fun _ => True

/-- Code without its callbacks refers to the counter besides. -/
theorem Callbacks.relates_knows : c.Relates anyway
    (fun _ e e' => e.Knows made known → e'.Knows made (known ++ [c.counter]))
    (fun _ s s' => s.Knows made known → s'.Knows made (known ++ [c.counter]))
    fun _ b b' => b.Knows made known → b'.Knows made (known ++ [c.counter]) where
  callback bindings span ids _ := by
    refine ⟨trivial, fun knows => Callbacks.knows_lower (by simp) (fun b hb hm => ?_) span ids⟩
    exact List.mem_append_left _ ((Expr.knows_iff.mp knows).1 b hb hm)
  expr _ congruent := congruent.alike.knows fun _ hx => List.mem_append_left _ hx
  block same knows := by
    rw [Block.knows_iff] at knows ⊢
    intro s hs
    obtain ⟨s₀, hs₀, inside⟩ := exists_left_of_forall₂ same hs
    exact inside (knows s₀ hs₀)
  wait _ knows := knows.mono fun _ hx => List.mem_append_left _ hx
  statement _ congruent knows := by
    rw [Statement.knows_iff] at knows ⊢
    exact congruent.alike.knows (fun _ hx => List.mem_append_left _ hx) knows

end

/-- Without its callbacks, the body of a wait-block refers to the counter besides. -/
theorem Block.Lowered.knows {config : Config} {counter : String} {b b' : Block}
    {ids : Multiset NodeId} (h : b.Lowered config counter b' ids) (knows : b.Knows made known) :
    b'.Knows made (known ++ [counter]) := by
  obtain ⟨names, s, s', -, run, -⟩ := h.rewritten
  have same : b' = (b.rewrite (Callbacks.rewriting ⟨counter, config.runtime.defer, names⟩) s).1 := by
    rw [run]
  exact same ▸ (Callbacks.relates_knows.block_rewrite b s trivial).2 knows

/-! ## Rotated code -/

namespace Weaving

/-- The code of a piece only refers to known names. -/
def Knows (made : String → Prop) (known : List String) : Weaving → Prop
  | run ss _ _ => ∀ s ∈ ss, s.Knows made known
  | pivot s _ _ => s.Knows made known
  | arms as _ _ => ∀ a ∈ as, a.test.Knows made known ∧ a.body.Knows made known
  | choice b _ _ => ∀ body ∈ b, body.Knows made known

/-- The own code of a piece when it is rotated. -/
def nodesAfter : Weaving → List Node
  | run _ _ out => out.flatMap Statement.ownNodes
  | pivot _ _ out => out.ownNodes
  | arms _ _ out => Arm.listNodes (fun _ => false) out
  | choice _ _ out => out.toList.flatMap Block.ownNodes

end Weaving

/-- A statement that only picks what to run declares nothing itself. -/
theorem Arranged.statement {s : Statement} (functions : s.kind.functions = [])
    (declares : (Node.statement s).declares = [])
    (h : Arranged made known (s.kind.nodes fun _ => false)) :
    Arranged made known s.ownNodes := by
  rw [Statement.ownNodes, Statement.nodes_eq]
  exact .cons rfl functions (by simpa [declares] using h)

theorem Arranged.block {b : Block}
    (h : Arranged made known (b.statements.flatMap Statement.ownNodes)) :
    Arranged made known b.ownNodes := by
  have nothing : known ++ (Node.block b).declares = known := by simp [Node.declares]
  rw [Block.ownNodes, Block.nodes_eq]
  refine .cons rfl rfl ?_
  rw [nothing]
  exact h

theorem Arranged.callWith {i : NodeId} {call : Expr} (h : call.Knows made known) :
    Arranged made known (Statement.callWith i call).ownNodes :=
  .statement rfl rfl (.of_knows h)

theorem Arranged.exiting {i : NodeId} {exit : Option Expr} {span : Span}
    (h : ∀ e ∈ exit, e.Knows made known) :
    Arranged made known (Statement.ownNodes ⟨i, .exiting exit, span⟩) := by
  cases exit with
  | none => exact .statement rfl rfl .nil
  | some call => exact .statement rfl rfl (.of_knows (h call rfl))

theorem Arranged.branch {i : NodeId} {condition : Expr} {yes : Block} {no : Option Block}
    {span : Span} (test : condition.Knows made known) (inYes : Arranged made known yes.ownNodes)
    (inNo : Arranged made known (no.toList.flatMap Block.ownNodes)) :
    Arranged made known (Statement.ownNodes ⟨i, .branch condition yes no, span⟩) := by
  refine .statement rfl rfl ?_
  cases no with
  | none => exact (Arranged.of_knows test).beside inYes
  | some no =>
    rw [Option.toList_some, List.flatMap_singleton] at inNo
    exact ((Arranged.of_knows test).beside inYes).beside inNo

/-- The own code of a routine is only its declaration. -/
theorem Statement.ownNodes_routineWith (i j k : NodeId) (name : String) (body : List Statement)
    (span : Span) : (Statement.routineWith i j k name body span).ownNodes =
      [.statement (.routineWith i j k name body span)] := by
  simp [routineWith, ownNodes, Statement.nodes, StatementKind.nodes, Func.nodes]

theorem Func.Scoped.routine {i j : NodeId} {name : Option Ident} {body : List Statement}
    {span : Span} (h : Arranged made known (body.flatMap Statement.ownNodes)) :
    Func.Scoped made known ⟨i, name, [], ⟨j, body, span⟩, span⟩ := by
  refine Arranged.scopes ?_
  rw [List.map_nil, List.append_nil]
  exact .block h

theorem Arranged.routineWith {i j k : NodeId} {name : String} {body : List Statement} {span : Span}
    (h : Arranged made known (body.flatMap Statement.ownNodes)) :
    Arranged made known (Statement.routineWith i j k name body span).ownNodes := by
  rw [Statement.ownNodes_routineWith]
  refine .of_knows fun n hn => ?_
  obtain rfl := List.mem_singleton.mp hn
  refine ⟨by simp [Node.refers], fun g hg => ?_⟩
  obtain rfl := List.mem_singleton.mp hg
  exact .routine h

/-- What a counter is given refers to what it goes on with. -/
theorem Expr.Resumes.knows {fresh : NodeId → Prop} {span : Span} {after : Option Expr}
    {value : Expr} (h : value.Resumes fresh span after) (goesOn : ∀ e ∈ after, e.Knows made known) :
    value.Knows made known := by
  cases h with
  | @routine name place =>
    have := (Expr.knows_iff.mp (goesOn _ rfl)).2.1 (.ident name) (by simp [Expr.operands])
    exact this
  | @call call i j k =>
    refine Expr.knows_func (.routine ?_)
    simpa using Arranged.callWith (goesOn call rfl)
  | nothing => exact Expr.knows_func (.routine .nil)

/-- The parts of a loop refer to its routines and to what ends it. -/
theorem LoopHead.Pieces.arranged {body : Block} {name : String} {exit : Statement} {span : Span}
    {head : LoopHead} {parts : Wiring.LoopParts} {ids : Multiset NodeId}
    (h : head.Pieces body (.callNamed name span) exit span parts ids) (restart : name ∈ known)
    (test : ∀ e ∈ head.test?, e.Knows made known)
    (headers : ∀ s ∈ head.statements, s.Knows made known)
    (inBody : Arranged made known (body.statements.flatMap Statement.ownNodes))
    (atExit : Arranged made known exit.ownNodes) :
    Arranged made known (parts.restart.flatMap Statement.ownNodes) ∧
      Arranged made known (parts.next.flatMap Statement.ownNodes) ∧
      ∀ s ∈ parts.before, s ∈ head.statements := by
  have again (k : NodeId) : Arranged made known
      (Statement.callWith k (.callNamed name span)).ownNodes :=
    .callWith (Expr.knows_callNamed fun _ => restart)
  have choose {i j : NodeId} {condition : Expr} {yes : Block}
      (knows : condition.Knows made known) (inYes : Arranged made known yes.ownNodes) :
      Arranged made known (Statement.branchWith i j condition yes exit span).ownNodes := by
    refine .branch knows inYes ?_
    simpa using Arranged.block (b := ⟨j, [exit], span⟩) (by simpa using atExit)
  cases h with
  | whileDo =>
    refine ⟨?_, ?_, by simp⟩
    · simpa using choose (test _ rfl) (.block inBody)
    · simpa using again _
  | @doWhile condition i j k l =>
    refine ⟨inBody, ?_, by simp⟩
    simpa using choose (test _ rfl) (.block (b := ⟨l, _, span⟩) (by simpa using again k))
  | @counting init update condition i j k =>
    refine ⟨?_, ?_, fun s hs => List.mem_append_left _ hs⟩
    · simpa using choose (test _ rfl) (.block inBody)
    · rw [List.flatMap_append]
      refine Arranged.beside (.of_knows fun n hn => ?_) (by simpa using again k)
      obtain ⟨s, hs, hn⟩ := List.mem_flatMap.mp hn
      exact headers s (List.mem_append_right _ hs) n hn
  | @endless init update k =>
    refine ⟨inBody, ?_, fun s hs => List.mem_append_left _ hs⟩
    rw [List.flatMap_append]
    refine Arranged.beside (.of_knows fun n hn => ?_) (by simpa using again k)
    obtain ⟨s, hs, hn⟩ := List.mem_flatMap.mp hn
    exact headers s (List.mem_append_right _ hs) n hn

/-- A loop's two routines may call each other. -/
theorem Arranged.loopRoutines {i₁ j₁ k₁ i₂ j₂ k₂ : NodeId} {names : LoopNames}
    {round next : List Statement} {span : Span}
    (inRound : Arranged made (known ++ [names.restart, names.next])
      (round.flatMap Statement.ownNodes))
    (inNext : Arranged made (known ++ [names.restart, names.next])
      (next.flatMap Statement.ownNodes)) :
    Arranged made known
      [.statement (.routineWith i₁ j₁ k₁ names.restart round span),
        .statement (.routineWith i₂ j₂ k₂ names.next next span)] := by
  refine ⟨by simp [Ordered, Node.refers], fun all inKnown declared n hn g hg => ?_⟩
  have visible : ∀ x ∈ known ++ [names.restart, names.next], x ∈ all := by
    intro x hx
    rcases List.mem_append.mp hx with hx | hx
    · exact inKnown x hx
    · rcases List.mem_cons.mp hx with rfl | hx
      · exact declared _ List.mem_cons_self _ (by simp [Statement.routineWith, Node.declares])
      · rw [List.mem_singleton.mp hx]
        exact declared _ (List.mem_cons_of_mem _ List.mem_cons_self) _
          (by simp [Statement.routineWith, Node.declares])
  rcases List.mem_cons.mp hn with rfl | hn
  · obtain rfl := List.mem_singleton.mp hg
    exact (Func.Scoped.routine inRound).mono visible
  · obtain rfl := List.mem_singleton.mp hn
    obtain rfl := List.mem_singleton.mp hg
    exact (Func.Scoped.routine inNext).mono visible

/-- A wait-block's counter is declared before its body. -/
theorem Arranged.counted {i j : NodeId} {counter maker : String} {span span' : Span}
    {out : List Statement} (runtime : made maker → maker ∈ known)
    (h : Arranged made (known ++ [counter]) (out.flatMap Statement.ownNodes)) :
    Arranged made known (Block.ownNodes ⟨j,
      ⟨i, .declare ⟨counter, span⟩ (some (.callNamed maker span)), span⟩ :: out, span'⟩) := by
  refine .block ?_
  rw [List.flatMap_cons, Statement.ownNodes, Statement.nodes_eq, List.cons_append]
  refine .cons rfl rfl (.beside (.of_knows ?_) h)
  refine List.forall_mem_cons.mpr ⟨Node.knows_ident _, ?_⟩
  exact Expr.knows_callNamed fun hm => List.mem_append_left _ (runtime hm)

/-- **Rotated code refers to made-up names that it declares before, or that are known around it.** -/
theorem Turned.arranged {config : Config} {t : MarkTable} {loops : LoopStack} {piece : Weaving}
    {ids : Multiset NodeId} {names : Multiset String} {fs : Multiset Func}
    (h : Turned config t loops piece ids names fs) (knows : piece.Knows made known)
    (goesOn : ∀ e ∈ piece.goesOn, e.Knows made known)
    (around : ∀ loop ∈ loops, loop.next.Knows made known ∧ ∀ e ∈ loop.exit, e.Knows made known)
    (runtime : made config.runtime.newCounter → config.runtime.newCounter ∈ known) :
    Arranged made known piece.nodesAfter := by
  induction h generalizing known with
  | done => exact .nil
  | @goOn loops call i =>
    rw [Weaving.nodesAfter, List.flatMap_singleton]
    exact .callWith (goesOn call rfl)
  | @keep loops s ss out tail ids names fs unmarked rest ih =>
    rw [Weaving.nodesAfter, List.flatMap_cons]
    refine Arranged.beside (.of_knows (knows s List.mem_cons_self)) ?_
    exact ih (fun x hx => knows x (List.mem_cons_of_mem _ hx)) goesOn around runtime
  | @jump loops loop s ss tail kind label isJump target =>
    obtain ⟨next, exit⟩ := around loop (LoopStack.mem_of_target? target)
    rw [Weaving.nodesAfter, List.flatMap_singleton]
    cases kind with
    | leave => exact .exiting exit
    | resume => exact .statement rfl rfl (.of_knows next)
  | @last loops s wired tail ids names fs marked pivot ih =>
    rw [Weaving.nodesAfter, List.flatMap_singleton]
    exact ih (knows s List.mem_cons_self) goesOn around runtime
  | @split loops s wired ss out tail name i j k ids more names others fs gs marked rest pivot ihRest
      ihPivot =>
    have inRest := ihRest (fun x hx => knows x (List.mem_cons_of_mem _ hx)) goesOn around runtime
    have sub : ∀ x ∈ known, x ∈ known ++ [name] := fun _ hx => List.mem_append_left _ hx
    have inPivot : Arranged made (known ++ [name]) wired.ownNodes :=
      ihPivot (Statement.Knows.mono (knows s List.mem_cons_self) sub)
        (fun e he => by
          cases he
          exact Expr.knows_callNamed (by simp))
        (fun loop hl => ⟨(around loop hl).1.mono sub, fun e he => ((around loop hl).2 e he).mono sub⟩)
        fun hm => sub _ (runtime hm)
    rw [Weaving.nodesAfter, List.flatMap_cons, List.flatMap_singleton]
    refine (Arranged.routineWith inRest).append ?_
    rw [Statement.ownNodes_routineWith, List.flatMap_singleton]
    exact inPivot
  | @block loops s body out after ids names fs isBlock inner ih =>
    obtain ⟨id, kind, span⟩ := s
    cases isBlock
    have parts := Statement.knows_iff.mp knows
    have inBody := ih (Block.knows_iff.mp (parts.blocks body List.mem_cons_self)) goesOn around
      runtime
    exact .statement rfl rfl (.block inBody)
  | @branch loops s condition yes no no' out after ids more names others fs gs isBranch inYes inNo
      ihYes ihNo =>
    obtain ⟨id, kind, span⟩ := s
    cases isBranch
    have parts := Statement.knows_iff.mp knows
    have inYes := ihYes (Block.knows_iff.mp (parts.blocks yes List.mem_cons_self)) goesOn around
      runtime
    have inNo := ihNo (fun b hb => parts.blocks b
      (List.mem_cons_of_mem _ (Option.mem_toList.mpr hb))) goesOn around runtime
    exact .branch (parts.exprs condition List.mem_cons_self) (.block inYes) inNo
  | @switch loops s subject arms arms' otherwise otherwise' after ids more names others fs gs
      isSwitch inArms inRest ihArms ihRest =>
    obtain ⟨id, kind, span⟩ := s
    cases isSwitch
    have parts := Statement.knows_iff.mp knows
    have inArms := ihArms (fun a ha => ⟨parts.exprs a.test
      (List.mem_append_left _ (List.mem_cons_of_mem _ (List.mem_map_of_mem ha))),
      parts.blocks a.body (List.mem_append_left _ (List.mem_map_of_mem ha))⟩) goesOn around runtime
    have inRest := ihRest (fun b hb => parts.blocks b
      (List.mem_append_right _ (Option.mem_toList.mpr hb))) goesOn around runtime
    have subject := Arranged.of_knows (parts.exprs subject List.mem_cons_self)
    refine .statement rfl rfl ?_
    cases otherwise' with
    | none => exact subject.beside inArms
    | some b =>
      rw [Weaving.nodesAfter, Option.toList_some, List.flatMap_singleton] at inRest
      exact (subject.beside inArms).beside inRest
  | @wait loops s body body' out after counter value i given ids names fs gs isWait lowered resumes
      inner ih =>
    obtain ⟨id, kind, span⟩ := s
    cases isWait
    have parts := Statement.knows_iff.mp knows
    have inBody := lowered.knows (parts.blocks body List.mem_cons_self)
    have sub : ∀ x ∈ known, x ∈ known ++ [counter] := fun _ hx => List.mem_append_left _ hx
    have inside := ih (Block.knows_iff.mp inBody)
      (fun e he => by
        cases he
        refine Expr.knows_call (List.forall_mem_cons.mpr ⟨Expr.knows_memberNamed (by simp), ?_⟩)
        simpa using (resumes.resumes.knows goesOn).mono sub)
      (fun loop hl => ⟨(around loop hl).1.mono sub, fun e he => ((around loop hl).2 e he).mono sub⟩)
      fun hm => sub _ (runtime hm)
    exact .statement rfl rfl (.counted runtime inside)
  | @loop loops s label head body out after routines parts i₁ j₁ k₁ i₂ j₂ k₂ x y z ids more names
      fs isLoop inner pieces ih =>
    obtain ⟨id, kind, span⟩ := s
    cases isLoop
    have knows := Statement.knows_iff.mp knows
    have sub : ∀ x ∈ known, x ∈ known ++ [routines.restart, routines.next] :=
      fun _ hx => List.mem_append_left _ hx
    have next : (Expr.callNamed routines.next span).Knows made
        (known ++ [routines.restart, routines.next]) := Expr.knows_callNamed (by simp)
    have exit : ∀ e ∈ after, e.Knows made (known ++ [routines.restart, routines.next]) :=
      fun e he => (goesOn e he).mono sub
    have inside := ih
      (Block.knows_iff.mp ((knows.blocks body List.mem_cons_self).mono sub))
      (fun e he => by
        cases he
        exact next)
      (fun loop hl => by
        rcases List.mem_cons.mp hl with rfl | hl
        · exact ⟨next, exit⟩
        · exact ⟨(around loop hl).1.mono sub, fun e he => ((around loop hl).2 e he).mono sub⟩)
      fun hm => sub _ (runtime hm)
    obtain ⟨inRound, inNext, before⟩ := pieces.arranged (by simp)
      (fun e he => (knows.exprs e (List.mem_append_left _ (Option.mem_toList.mpr he))).mono sub)
      (fun s hs => (knows.headers s hs).mono sub) inside (.exiting exit)
    refine .statement rfl rfl (.block ?_)
    rw [List.flatMap_append]
    refine Arranged.beside (.of_knows fun n hn => ?_) ?_
    · obtain ⟨s, hs, hn⟩ := List.mem_flatMap.mp hn
      exact knows.headers s (before s hs) n hn
    · simp only [List.flatMap_cons, List.flatMap_nil, List.append_nil,
        Statement.ownNodes_routineWith]
      rw [← List.append_assoc]
      refine (Arranged.loopRoutines inRound inNext).append (.callWith (Expr.knows_callNamed ?_))
      simp [Statement.routineWith, Node.declares]
  | noArms => exact .nil
  | @arm loops a arms arms' out after ids more names others fs gs inArm rest ihArm ihRest =>
    obtain ⟨test, body⟩ := knows a List.mem_cons_self
    have inArm := ihArm (Block.knows_iff.mp body) goesOn around runtime
    have inRest := ihRest (fun x hx => knows x (List.mem_cons_of_mem _ hx)) goesOn around runtime
    have inBody : Arranged made known (Block.ownNodes { a.body with statements := out }) :=
      .block inArm
    exact ((Arranged.of_knows test).beside inBody).beside inRest
  | @chosen loops b out after ids names fs inner ih =>
    rw [Weaving.nodesAfter, Option.toList_some, List.flatMap_singleton]
    exact .block (ih (Block.knows_iff.mp (knows b rfl)) goesOn around runtime)
  | @missing loops call i j span =>
    rw [Weaving.nodesAfter, Option.toList_some, List.flatMap_singleton]
    refine .block ?_
    rw [List.flatMap_singleton]
    exact .callWith (goesOn call rfl)
  | absent => exact .nil

/-! ## Functions -/

theorem Node.declared?_of_mem {s : Statement} {x : Ident} (h : x ∈ s.kind.declared) :
    (Node.statement s).declared? = some x := by
  obtain ⟨id, kind, span⟩ := s
  cases kind with
  | declare name init =>
    rw [List.mem_singleton.mp h]
    rfl
  | _ => cases h

/-- An assignment in place of a declaration refers to the name that was declared. -/
theorem Block.knows_undeclared {b : Block} (knows : b.Knows made known)
    (names : ∀ n ∈ b.ownNodes, ∀ x, n.declared? = some x → ¬ made x.name) :
    b.undeclared.Knows made known := by
  induction b using Block.inductOn (Q := fun s : Statement => s.Knows made known →
      (∀ n ∈ s.ownNodes, ∀ x, n.declared? = some x → ¬ made x.name) →
        s.undeclared.Knows made known) with
  | block b ih =>
    rw [Block.undeclared_eq, Block.knows_iff]
    intro s' hs'
    obtain ⟨s, hs, rfl⟩ := List.mem_map.mp hs'
    exact ih s hs (Block.knows_iff.mp knows s hs) fun n hn => names n (mem_nodes_of_statement hs hn)
  | statement s headers blocks =>
    rename_i knows names
    have parts := Statement.knows_iff.mp knows
    have own : ∀ x ∈ s.kind.declared, ¬ made x.name := fun x hx =>
      names _ (Node.self_mem_ownNodes (.statement s)) x (Node.declared?_of_mem hx)
    rw [Statement.undeclared_eq, Statement.knows_iff]
    refine ⟨fun e he => ?_, fun h hh => ?_, fun b hb => ?_, fun f hf => ?_⟩
    · rcases List.mem_append.mp he with he | he
      · rw [StatementKind.tests_undeclared] at he
        exact parts.exprs e (List.mem_append_left _ he)
      · obtain ⟨more, trivial, operands⟩ := s.kind.operands_undeclared
        rw [operands] at he
        rcases List.mem_append.mp he with he | he
        · rcases trivial e he with ⟨name, hx, rfl⟩ | ⟨span, rfl⟩
          · exact Expr.knows_ident fun hm => absurd hm (own name hx)
          · rw [Expr.knows_iff]
            exact ⟨by simp [Expr.names], by simp [Expr.operands], by simp [Expr.functions]⟩
        · exact parts.exprs e (List.mem_append_right _ he)
    · rw [StatementKind.headers_undeclared] at hh
      obtain ⟨x, hx, rfl⟩ := List.mem_map.mp hh
      exact headers x hx (parts.headers x hx)
        fun n hn => names n (Statement.mem_nodes_of_header hx hn)
    · rw [StatementKind.blocks_undeclared] at hb
      obtain ⟨x, hx, rfl⟩ := List.mem_map.mp hb
      exact blocks x hx (parts.blocks x hx) fun n hn => names n (Statement.mem_nodes_of_block hx hn)
    · rw [StatementKind.functions_undeclared] at hf
      exact parts.functions f hf

/-- **A function that mentions no made-up name is well scoped when it is hoisted and rotated.** -/
theorem Func.scoped_lower {config : Config} {t : MarkTable} {f g : Func}
    (knows : f.body.Knows made [])
    (names : ∀ n ∈ f.body.ownNodes, ∀ x, n.declared? = some x → ¬ made x.name)
    (runtime : ¬ made config.runtime.newCounter) {ds out : List Statement}
    {given rest : Multiset NodeId} {used : Multiset String} {fs : Multiset Func}
    (declares : DeclaresEach f.declaredNames ds given)
    (result : g = { f with body := { f.body with statements := out } })
    (turned : Turned config t [] (.run (ds ++ f.body.undeclared.statements) none out) rest used fs) :
    g.Scoped made [] := by
  have body := Block.knows_iff.mp (Block.knows_undeclared knows names)
  have tops : ∀ d ∈ ds, d.Knows made [] := by
    intro d hd
    obtain ⟨x, -, same⟩ := declares.exists_of_mem hd
    rw [same, Statement.knows_iff]
    constructor <;> simp [Statement.declaration, StatementKind.tests, StatementKind.operands,
      StatementKind.headers, StatementKind.blocks, StatementKind.functions]
  have arranged : Arranged made [] (out.flatMap Statement.ownNodes) := turned.arranged
    (fun s hs => (List.mem_append.mp hs).elim (tops s) (body s)) (by simp [Weaving.goesOn])
    (by simp) fun hm => absurd hm runtime
  subst result
  exact Arranged.scopes (Arranged.block (arranged.mono (by simp)))

end

end WaitDefer
