import WaitDefer.Proofs.Rotation.Throughout
import WaitDefer.Proofs.Tree.Whole

/-!
# Code without flaws

Rotated code is checked node by node, routines included and functions that were there before left
out:

* `fair_flaws`: what is made up has no flaws, if only the last statement of a block is marked;
* `Statement.own_or_done`: what there is to check in a bare statement;
* `Statement.clean_of_bare`: nothing is wrong with one in which nothing is marked or waits;
* `Woven.clean`: nor with what bare code is woven to.
-/

namespace WaitDefer

section
variable {t : MarkTable} {max : NodeId}

/-! ## Flaws -/

/-- What is made up has no flaws, if only the last statement of a block is marked. -/
theorem fair_flaws (t : MarkTable) (fresh : NodeId → Prop)
    (unmarked : ∀ i, fresh i → t.get i = .none) :
    Fair (fun n => n.flaws t = []) fresh fun s => t.hasAny s.id .split = false where
  block _ none := Node.flaws_block_of_unmarked none
  statement s notWait notLoop _ := by
    obtain ⟨id, kind, span⟩ := s
    cases kind with
    | loop => cases notLoop
    | wait => cases notWait
    | _ => rfl
  expr e notDefer := by
    cases e with
    | defer => cases notDefer
    | _ => rfl
  ident _ := rfl
  func _ := rfl
  routine i _ _ _ _ _ hi := MarkTable.hasAny_of_none (unmarked i hi) _
  counter i _ _ _ hi := MarkTable.hasAny_of_none (unmarked i hi) _

/-! ## Kept statements -/

theorem Node.flaws_statement_of_quiet {s : Statement} (quiet : (Node.statement s).Quiet t) :
    (Node.statement s).flaws t = [] := by
  obtain ⟨notWait, unmarked⟩ := quiet _ (self_mem_ownNodes _)
  have unmarked := unmarked s.id rfl
  obtain ⟨id, kind, span⟩ := s
  cases kind with
  | wait body => cases notWait
  | loop label head body => simp [flaws, MarkTable.has_loop, unmarked, Marks.none]
  | _ => rfl

/-- The nodes of a bare statement without wait-blocks are its own code, or what its expressions are
made of. -/
theorem Statement.own_or_done {s : Statement} (bare : (Node.statement s).Bare t max)
    (noWait : ∀ n ∈ s.ownNodes, n.isWait = false) :
    ∀ n ∈ s.nodes fun g => max < g.id, (n ∈ s.ownNodes ∧ n.isCode = true) ∨ n.Done t := by
  induction s using Statement.inductOn (P := fun b : Block => (Node.block b).Bare t max →
      (∀ n ∈ b.ownNodes, n.isWait = false) →
        ∀ n ∈ b.nodes fun g => max < g.id, (n ∈ b.ownNodes ∧ n.isCode = true) ∨ n.Done t) with
  | block b ih =>
    rename_i bare noWait n hn
    cases bare with
    | block statements =>
      rw [Block.nodes_eq, List.mem_cons, List.mem_flatMap] at hn
      rcases hn with rfl | ⟨s, hs, hn⟩
      · exact .inl ⟨Node.self_mem_ownNodes (.block b), rfl⟩
      · have inside : ∀ k ∈ s.ownNodes, k ∈ b.ownNodes := fun k hk =>
          Block.mem_nodes_of_statement hs hk
        exact (ih s hs (statements s hs) (fun k hk => noWait k (inside k hk)) n hn).imp_left
          fun own => ⟨inside n own.1, own.2⟩
  | statement s headers blocks =>
    cases bare with
    | wait isWait raw =>
      have := noWait _ (Node.self_mem_ownNodes (.statement s))
      simp [Node.isWait, isWait, StatementKind.isWait] at this
    | other _ exprs functions bareHeaders bareBlocks =>
      intro n hn
      rcases mem_nodes_iff.mp hn with rfl | ⟨i, -, rfl⟩ | ⟨e, he, hn⟩ | ⟨h, hh, hn⟩ | ⟨b, hb, hn⟩ |
        ⟨f, hf, hn⟩
      · exact .inl ⟨Node.self_mem_ownNodes (.statement s), rfl⟩
      · exact .inr trivial
      · exact .inr (exprs e he n hn)
      · have inside : ∀ k ∈ h.ownNodes, k ∈ s.ownNodes := fun k hk =>
          mem_nodes_of_header hh hk
        exact (headers h hh (bareHeaders h hh) (fun k hk => noWait k (inside k hk)) n hn).imp_left
          fun own => ⟨inside n own.1, own.2⟩
      · have inside : ∀ k ∈ b.ownNodes, k ∈ s.ownNodes := fun k hk =>
          mem_nodes_of_block hb hk
        exact (blocks b hb (bareBlocks b hb) (fun k hk => noWait k (inside k hk)) n hn).imp_left
          fun own => ⟨inside n own.1, own.2⟩
      · rw [Func.nodes_of_old (functions f hf)] at hn
        cases hn

/-- The check finds nothing in a bare statement in which nothing is marked or waits. -/
theorem Statement.clean_of_bare {s : Statement} (bare : (Node.statement s).Bare t max)
    (quiet : (Node.statement s).Quiet t) : s.Throughout max fun n => n.flaws t = [] := by
  intro n hn
  rcases s.own_or_done bare (fun k hk => (quiet k hk).1) n hn with ⟨own, isCode⟩ | done
  · cases n with
    | block b =>
      apply Node.flaws_block_of_unmarked
      intro x hx
      have child : Node.statement x ∈ (Node.block b).children :=
        List.mem_map_of_mem (List.dropLast_subset _ hx)
      have own := Node.ownNodes_trans (n := .statement s) own (Node.child_mem_ownNodes child)
      exact MarkTable.hasAny_of_none ((quiet _ own).2 x.id rfl) _
    | statement x =>
      apply Node.flaws_statement_of_quiet
      exact fun k hk => quiet k (Node.ownNodes_trans (n := .statement s) own hk)
    | _ => cases isCode
  · exact done.flaws

/-! ## Woven code -/

theorem Node.Bare.parts {s : Statement} (h : (Node.statement s).Bare t max)
    (notWait : s.kind.isWait = false) :
    (∀ e ∈ s.kind.tests ++ s.kind.operands, e.Clean t max) ∧
      (∀ h ∈ s.kind.headers, (Node.statement h).Bare t max) ∧
      ∀ b ∈ s.kind.blocks, ∀ x ∈ b.statements, (Node.statement x).Bare t max := by
  cases h with
  | wait isWait => simp [isWait, StatementKind.isWait] at notWait
  | other _ exprs functions headers blocks =>
    refine ⟨exprs, headers, fun b hb x hx => ?_⟩
    cases blocks b hb with
    | block statements => exact statements x hx

/-- Bare statements can be woven to code without flaws. -/
theorem weavable_bare (config : Config) : Weavable config t max (fun n => n.flaws t = [])
    (fun s => t.hasAny s.id .split = false) fun s => (Node.statement s).Bare t max where
  kept s bare quiet := ⟨Statement.clean_of_bare bare quiet, MarkTable.hasAny_of_none
    ((quiet _ (Node.self_mem_ownNodes _)).2 s.id rfl) _⟩
  tests _ bare notWait e he n hn :=
    ((bare.parts notWait).1 e (List.mem_append_left _ he) n hn).flaws
  headers _ bare notWait := (bare.parts notWait).2.1
  blocks _ bare notWait := (bare.parts notWait).2.2
  wait s body body' counter bare isWait lowers _ := by
    have raw : (Node.block body).Raw max := by
      cases bare with
      | wait isWait' raw =>
        rw [isWait] at isWait'
        cases isWait'
        exact raw
      | other notWait => simp [isWait, StatementKind.isWait] at notWait
    cases lowers.bare raw with
    | block statements => exact statements

/-- Bare code is woven to code without flaws, if what goes on from there has none. -/
theorem Woven.clean {config : Config} {fresh : NodeId → Prop} {visible : List String}
    {around : Option LoopContext} {piece : Weaving} {entries : List Entry}
    (unused : Unused t max fresh) (h : Woven config t max fresh visible around piece entries)
    (loops : ∀ loop ∈ around, (∀ e ∈ loop.exit, e.Throughout max fun n => n.flaws t = []) ∧
      loop.next.Throughout max fun n => n.flaws t = []) :
    piece.Throughout max (fun n => n.flaws t = []) (fun s => t.hasAny s.id .split = false)
      fun s => (Node.statement s).Bare t max :=
  h.throughout unused (fair_flaws t fresh unused.unmarked) (weavable_bare config) loops

end

end WaitDefer
