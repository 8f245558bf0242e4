import WaitDefer.Proofs.Marking.Table
import WaitDefer.Proofs.Tree.Congruent
import WaitDefer.Proofs.Tree.Stepwise
import WaitDefer.Rotation.Check

/-!
# What the check accepts

The check goes through a unit: the body of a function and the routines made up inside it. This
module says without a walk what it looks for and where:

* `Func.Reaches`: the nodes of a unit, one inside the other;
* `Node.Rotated`: a node as rotation leaves it;
* `Block.blanked`: code in which the functions that were there before are left blank;
* `Func.check_exact`: the check accepts a unit exactly if all its nodes are rotated, and looks at
  nothing that can be left blank.
-/

namespace WaitDefer

/-! ## The nodes of a unit -/

/-- The nodes right inside a node. -/
def Node.parts : Node → List Node
  | .func f => f.name.toList.map .ident ++ f.params.map .ident ++ [.block f.body]
  | .block b => b.statements.map .statement
  | .statement s => s.kind.declared.map .ident ++ (s.kind.tests ++ s.kind.operands).map .expr ++
      s.kind.headers.map .statement ++ s.kind.blocks.map .block ++ s.kind.functions.map .func
  | .expr e => e.operands.map .expr ++ e.names.map .ident ++ e.functions.map .func
  | .ident _ => []

/-- A node of a function's body, or of one of the functions with an id above `max` in which it lies
one inside the other. -/
inductive Func.Reaches (max : NodeId) (f : Func) : Node → Prop
  | body : Reaches max f (.block f.body)
  | part {n m : Node} (reached : Reaches max f n) (inside : m ∈ n.parts)
    (new : ∀ g, m = .func g → max < g.id) : Reaches max f m

section
variable {max : NodeId} {f : Func}

/-- A part of a node is walked with it, unless it is a function that is not entered. -/
theorem Node.mem_walk_of_part {n m : Node} (inside : m ∈ n.parts)
    (entered : ∀ g, n = .func g → max < g.id) (new : ∀ g, m = .func g → max < g.id) :
    m ∈ n.walk fun g => max < g.id := by
  have self (g : Func) (h : max < g.id) : .func g ∈ g.nodes fun g => max < g.id := by
    obtain ⟨id, name, params, body, span⟩ := g
    rw [Func.nodes, if_pos (by simpa using h)]
    exact List.mem_cons_self
  have block (b : Block) : .block b ∈ b.nodes fun g => max < g.id := by
    rw [Block.nodes_eq]
    exact List.mem_cons_self
  have statement (s : Statement) : .statement s ∈ s.nodes fun g => max < g.id := by
    rw [Statement.nodes_eq]
    exact List.mem_cons_self
  have expr (e : Expr) : .expr e ∈ e.nodes fun g => max < g.id := by
    rw [Expr.nodes_parts]
    exact List.mem_cons_self
  cases n with
  | func g =>
    have h := entered g rfl
    obtain ⟨id, name, params, body, span⟩ := g
    rw [walk, Func.nodes, if_pos (by simpa using h)]
    apply List.mem_cons_of_mem
    rcases List.mem_append.mp inside with inside | inside
    · exact List.mem_append_left _ inside
    · rw [List.mem_singleton] at inside
      exact List.mem_append_right _ (inside ▸ block body)
  | block b =>
    obtain ⟨s, hs, rfl⟩ := List.mem_map.mp inside
    exact Block.mem_nodes_of_statement hs (statement s)
  | statement s =>
    simp only [parts, List.mem_append, List.mem_map] at inside
    rcases inside with (((⟨i, hi, rfl⟩ | ⟨e, he, rfl⟩) | ⟨h, hh, rfl⟩) | ⟨b, hb, rfl⟩) |
      ⟨g, hg, rfl⟩
    · exact Statement.mem_nodes_iff.mpr (.inr (.inl ⟨i, hi, rfl⟩))
    · exact Statement.mem_nodes_of_expr (List.mem_append.mpr he) (expr e)
    · exact Statement.mem_nodes_of_header hh (statement h)
    · exact Statement.mem_nodes_of_block hb (block b)
    · exact Statement.mem_nodes_of_function hg (self g (new g rfl))
  | expr e =>
    simp only [parts, List.mem_append, List.mem_map] at inside
    rcases inside with (⟨o, ho, rfl⟩ | ⟨i, hi, rfl⟩) | ⟨g, hg, rfl⟩
    · exact Expr.mem_nodes_of_operand ho (expr o)
    · rw [walk, Expr.nodes_parts]
      refine List.mem_cons_of_mem _ (List.mem_append_left _ (List.mem_append_right _ ?_))
      exact List.mem_map_of_mem hi
    · exact Expr.mem_nodes_of_function hg (self g (new g rfl))
  | ident x => cases inside

/-- Whatever is walked from a node that is reached is reached. -/
theorem reaches_cases (max : NodeId) (f : Func) :
    Cases (fun e => f.Reaches max (.expr e) → ∀ n ∈ e.nodes fun g => max < g.id, f.Reaches max n)
      (fun g => (max < g.id → f.Reaches max (.func g)) →
        ∀ n ∈ g.nodes fun g => max < g.id, f.Reaches max n)
      (fun b => f.Reaches max (.block b) → ∀ n ∈ b.nodes fun g => max < g.id, f.Reaches max n)
      fun s => f.Reaches max (.statement s) →
        ∀ n ∈ s.nodes fun g => max < g.id, f.Reaches max n where
  expr e operands functions reached n hn := by
    rw [Expr.nodes_parts] at hn
    simp only [List.mem_cons, List.mem_append, List.mem_flatMap, List.mem_map] at hn
    rcases hn with rfl | (⟨o, ho, hn⟩ | ⟨i, hi, rfl⟩) | ⟨g, hg, hn⟩
    · exact reached
    · refine operands o ho (reached.part ?_ (by simp)) n hn
      exact List.mem_append_left _ (List.mem_append_left _ (List.mem_map_of_mem ho))
    · refine reached.part ?_ (by simp)
      exact List.mem_append_left _ (List.mem_append_right _ (List.mem_map_of_mem hi))
    · refine functions g hg (fun new => reached.part ?_ (by simpa using new)) n hn
      exact List.mem_append_right _ (List.mem_map_of_mem hg)
  func g body reached n hn := by
    obtain ⟨id, name, params, b, span⟩ := g
    rw [Func.nodes] at hn
    split at hn
    · rename_i entered
      have reached := reached (by simpa using entered)
      rcases List.mem_cons.mp hn with rfl | hn
      · exact reached
      rcases List.mem_append.mp hn with hn | hn
      · refine reached.part (List.mem_append_left _ hn) fun g same => ?_
        subst same
        simp at hn
      · refine body (reached.part (List.mem_append_right _ ?_) (by simp)) n hn
        exact List.mem_singleton_self _
    · cases hn
  block b statements reached n hn := by
    rw [Block.nodes_eq, List.mem_cons, List.mem_flatMap] at hn
    rcases hn with rfl | ⟨s, hs, hn⟩
    · exact reached
    · exact statements s hs (reached.part (List.mem_map_of_mem hs) (by simp)) n hn
  statement s exprs headers blocks functions reached n hn := by
    have part {m : Node} (inside : m ∈ (Node.statement s).parts)
        (new : ∀ g, m = .func g → max < g.id) := reached.part inside new
    simp only [Node.parts, List.mem_append, List.mem_map] at part
    rcases Statement.mem_nodes_iff.mp hn with rfl | ⟨i, hi, rfl⟩ | ⟨e, he, hn⟩ | ⟨h, hh, hn⟩ |
      ⟨b, hb, hn⟩ | ⟨g, hg, hn⟩
    · exact reached
    · exact part (.inl (.inl (.inl (.inl ⟨i, hi, rfl⟩)))) (by simp)
    · refine exprs e he (part (.inl (.inl (.inl (.inr ⟨e, ?_, rfl⟩)))) (by simp)) n hn
      exact List.mem_append.mp he
    · exact headers h hh (part (.inl (.inl (.inr ⟨h, hh, rfl⟩))) (by simp)) n hn
    · exact blocks b hb (part (.inl (.inr ⟨b, hb, rfl⟩)) (by simp)) n hn
    · exact functions g hg (fun new => part (.inr ⟨g, hg, rfl⟩) (by simpa using new)) n hn

/-- The nodes that are reached are those of the unit. -/
theorem Func.reaches_iff {n : Node} : f.Reaches max n ↔ n ∈ f.unitNodes max := by
  refine ⟨fun h => ?_, Block.whole (reaches_cases max f) f.body .body n⟩
  have within : Whole (fun g : Func => decide (max < g.id)) (f.unitNodes max) :=
    Block.whole (whole_cases _) f.body
  -- a function is only reached if it is entered
  suffices n ∈ f.unitNodes max ∧ ∀ g, n = .func g → max < g.id from this.1
  induction h with
  | body =>
    refine ⟨?_, by simp⟩
    rw [unitNodes, Block.nodes_eq]
    exact List.mem_cons_self
  | part reached inside new ih =>
    exact ⟨(within _ ih.1).subset (Node.mem_walk_of_part inside ih.2 new), new⟩

/-! ## Rotated nodes -/

/-- A node as rotation leaves it: only the last statement of a block is marked for a split, and no
wait-block, no callback and no loop that waits is left. -/
def Node.Rotated (t : MarkTable) : Node → Prop
  | .block b => ∀ s ∈ b.statements.dropLast,
      (t.get s.id).awaits = false ∧ (t.get s.id).propagates = false
  | .statement s => s.kind.isWait = false ∧ (s.kind.isLoop = true → (t.get s.id).loops = false)
  | .expr e => e.isDefer = false
  | .func _ | .ident _ => True

theorem MarkTable.hasAny_split (t : MarkTable) (i : NodeId) :
    t.hasAny i .split = ((t.get i).awaits || (t.get i).propagates) := by
  simp [hasAny, Marks.meets, Marks.split, Marks.union, Marks.await, Marks.propagate]

theorem Node.flaws_eq_nil_iff {t : MarkTable} {n : Node} : n.flaws t = [] ↔ n.Rotated t := by
  cases n with
  | block b =>
    simp only [flaws, Rotated, List.map_eq_nil_iff, List.filter_eq_nil_iff, MarkTable.hasAny_split,
      Bool.not_eq_true, Bool.or_eq_false_iff]
  | statement s =>
    obtain ⟨id, kind, span⟩ := s
    cases kind with
    | loop label head body =>
      simp [flaws, Rotated, StatementKind.isWait, StatementKind.isLoop, MarkTable.has_loop]
    | _ => simp [flaws, Rotated, StatementKind.isWait, StatementKind.isLoop]
  | expr e => cases e <;> simp [flaws, Rotated, Expr.isDefer]
  | func _ | ident _ => exact ⟨fun _ => trivial, fun _ => rfl⟩

end

/-! ## Functions that were there before -/

/-- Leaves blank the functions with an id up to `max`. -/
def Rewriting.blanking (max : NodeId) : Rewriting Unit where
  func f body := if max < f.id then do return { f with body := ← body } else return default

/-- Code in which the functions with an id up to `max` are left blank. -/
def Block.blanked (max : NodeId) (b : Block) : Block := (b.rewrite (.blanking max) ()).1

section
variable (t : MarkTable) (max : NodeId)

/-- The flaws of a block itself are read off the ids, kinds and places of its statements. -/
theorem Node.flaws_block (b : Block) : (Node.block b).flaws t =
    (((b.statements.map fun s => (s.id, s.kind.name, s.span)).dropLast.filter fun p =>
      t.hasAny p.1 .split).map fun p => ⟨.residualMark p.1 p.2.1, p.2.2⟩) := by
  rw [flaws, ← List.map_dropLast, List.filter_map, List.map_map]
  rfl

/-- No flaws are found in functions that are left blank, nor any others elsewhere. -/
theorem blanked_cases :
    let T : Triples Unit Unit := .keeping fun _ => True
    let r := Rewriting.blanking max
    let W := Comparison.reading (Node.flaws t)
    let enter := fun g : Func => decide (max < g.id)
    Cases (fun e => T.Of (e.rewrite r) fun _ => e.Compares W enter enter)
      (fun f => T.Of (f.rewrite r) fun _ => f.Compares W enter enter)
      (fun b => T.Of (b.rewrite r) fun _ => b.Compares W enter enter)
      fun s => T.Of (s.rewrite r) fun _ s' =>
        s.Compares W enter enter s' ∧ s'.id = s.id ∧ s'.span = s.span ∧ s'.kind.name = s.kind.name where
  expr e operands functions := by
    refine Triples.weaken _ (Expr.congruent_rewrite _ (fun _ => rfl) operands functions)
      fun _ e' congruent => ?_
    have rest := congruent.walk
    have first : (Node.expr e').flaws t = (Node.expr e).flaws t := by cases congruent <;> rfl
    rw [Expr.nodes_parts, Expr.nodes_parts, List.tail_cons, List.tail_cons] at rest
    rw [Expr.Compares, Expr.nodes_parts, Expr.nodes_parts]
    exact Comparison.reading_cons first rest
  func f body _ _ := by
    refine ⟨trivial, ?_⟩
    have inside := (body () trivial).2
    obtain ⟨id, name, params, b, span⟩ := f
    by_cases new : max < id
    · have rewritten : (Func.rewrite (.blanking max) ⟨id, name, params, b, span⟩ ()).1 =
          ⟨id, name, params, (b.rewrite (.blanking max) ()).1, span⟩ := by
        simp only [Func.rewrite, Rewriting.blanking, if_pos new]
        rfl
      change (Comparison.reading _).Of _ _
      rw [rewritten, Func.nodes, Func.nodes, if_pos (by simpa using new),
        if_pos (by simpa using new)]
      exact Comparison.reading_cons rfl ((Comparison.reading _).append rfl inside)
    · have rewritten : (Func.rewrite (.blanking max) ⟨id, name, params, b, span⟩ ()).1 = default := by
        simp only [Func.rewrite, Rewriting.blanking, if_neg new]
        rfl
      have blank : Func.nodes (fun g => decide (max < g.id)) default = [] := by
        rw [show (default : Func) = ⟨0, none, [], default, default⟩ from rfl, Func.nodes]
        simp
      change (Comparison.reading _).Of _ _
      rw [rewritten, blank, Func.nodes, if_neg (by simpa using new)]
      rfl
  block b statements := by
    obtain ⟨i, ss, span⟩ := b
    refine Triples.bind _ (Statement.alike_listRewrite _ statements) fun ss' =>
      Triples.pure _ fun _ alike => ?_
    have places : (ss'.map fun s => (s.id, s.kind.name, s.span)) =
        ss.map fun s => (s.id, s.kind.name, s.span) := by
      clear statements
      induction alike with
      | nil => rfl
      | cons same _ ih =>
        rw [List.map_cons, List.map_cons, same.2.1, same.2.2.1, same.2.2.2, ih]
    have first : (Node.block ⟨i, ss', span⟩).flaws t = (Node.block ⟨i, ss, span⟩).flaws t := by
      rw [Node.flaws_block, Node.flaws_block, places]
    rw [Block.Compares, Block.nodes_eq, Block.nodes_eq]
    refine Comparison.reading_cons first ?_
    exact (Comparison.reading _).flatMap alike fun _ _ same => same.1
  statement s exprs headers blocks functions := by
    obtain ⟨id, kind, span⟩ := s
    refine Triples.bind _ (StatementKind.congruent_rewrite _ exprs (fun h hh =>
      Triples.weaken _ (headers h hh) fun _ _ same => same.1) blocks functions) fun k' =>
        Triples.pure _ fun _ congruent => ⟨?_, rfl, rfl, congruent.form.1⟩
    have first : (Node.statement ⟨id, k', span⟩).flaws t =
        (Node.statement ⟨id, kind, span⟩).flaws t := by cases congruent <;> rfl
    rw [Statement.Compares, Statement.nodes_eq, Statement.nodes_eq]
    exact Comparison.reading_cons first congruent.walk

theorem Block.flaws_blanked (b : Block) :
    ((b.blanked max).nodes fun g => max < g.id).flatMap (Node.flaws t) =
      (b.nodes fun g => max < g.id).flatMap (Node.flaws t) :=
  (Block.whole (blanked_cases t max) b () trivial).2

end

/-- **The check accepts exactly rotated code**: the unit of a function passes if all the nodes that
are reached from its body, through new functions only, are rotated. What is in functions that were
there before makes no difference to what the check says. -/
theorem Func.check_exact (f : Func) (t : MarkTable) (max : NodeId) :
    (f.flaw? t max = none ↔ ∀ n, f.Reaches max n → n.Rotated t) ∧
      ∀ f' : Func, f'.body.blanked max = f.body.blanked max → f'.flaw? t max = f.flaw? t max := by
  constructor
  · rw [flaw?, List.head?_eq_none_iff, List.flatMap_eq_nil_iff]
    simp only [reaches_iff, Node.flaws_eq_nil_iff]
    rfl
  · intro f' same
    rw [flaw?, flaw?, ← f'.body.flaws_blanked, ← f.body.flaws_blanked, same]

/-- A new routine that holds an old function with the given body. -/
def Func.holding (body : Block) : Func :=
  let old : Func := ⟨1, none, [], body, default⟩
  let routine : Func := ⟨5, none, [], ⟨6, [⟨7, .func old, default⟩], default⟩, default⟩
  ⟨2, none, [], ⟨3, [⟨8, .func routine, default⟩], default⟩, default⟩

/-- With ids up to 4 taken for old, it makes no difference whether the old function waits. -/
theorem Func.check_exact_holding :
    let waiting := holding ⟨4, [⟨0, .wait default, default⟩], default⟩
    waiting.flaw? .empty 4 = none ∧ waiting.flaw? .empty 4 = (holding default).flaw? .empty 4 :=
  have same := (check_exact (holding default) .empty 4).2
    (holding ⟨4, [⟨0, .wait default, default⟩], default⟩) rfl
  ⟨same.trans (by decide +kernel), same⟩

end WaitDefer
