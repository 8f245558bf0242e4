import WaitDefer.Proofs.Marking.Exact
import WaitDefer.Proofs.Tree.Plain

/-!
# Code that is ready to be rotated

What the marks of a function give its rotation, said along the tree:

* `Node.Closed`: every jump is caught by a loop around it;
* `Node.Quiet`: nothing in it is marked or waits;
* `Node.Ready`: an unmarked statement is quiet and closed, a marked one is of a form that can be
  split, and a marked jump is caught by the loop next to it;
* `Func.ready_of_marking`: the body of a function that breaks no rule is ready.
-/

namespace WaitDefer

/-! ## Closed and quiet code -/

/-- One of some loops, given by their labels, catches a jump. -/
def Caught (label : Option Ident) (around : List (Option String)) : Prop :=
  ∃ own ∈ around, ∀ l ∈ label, own = some l.name

/-- Every jump is caught by a loop inside, or by one of those around. -/
inductive Node.Closed : List (Option String) → Node → Prop
  | block {around : List (Option String)} {b : Block}
      (statements : ∀ s ∈ b.statements, Closed around (.statement s)) : Closed around (.block b)
  | jump {around : List (Option String)} {s : Statement} {kind : JumpKind} {label : Option Ident}
      (isJump : s.kind = .jump kind label) (caught : Caught label around) :
      Closed around (.statement s)
  | loop {around : List (Option String)} {s : Statement} {label : Option Ident} {head : LoopHead}
      {body : Block} (isLoop : s.kind = .loop label head body)
      (simple : ∀ h ∈ head.statements, h.kind.isSimple = true)
      (body : Closed (label.map Ident.name :: around) (.block body)) :
      Closed around (.statement s)
  | other {around : List (Option String)} {s : Statement} (notJump : s.kind.isJump = false)
      (notLoop : s.kind.isLoop = false)
      (blocks : ∀ b ∈ s.kind.blocks, Closed around (.block b)) : Closed around (.statement s)

/-- Nothing in the own code of a node is marked, and nothing waits. -/
def Node.Quiet (t : MarkTable) (n : Node) : Prop :=
  ∀ m ∈ n.ownNodes, m.isWait = false ∧ ∀ i, m.id? = some i → t.get i = .none

/-! ## Ready code -/

/-- A block or statement can be rotated. `around` is the label of the loop next to it, if there is
a loop and no wait-block between. -/
inductive Node.Ready (t : MarkTable) : Option (Option String) → Node → Prop
  | block {around : Option (Option String)} {b : Block}
      (statements : ∀ s ∈ b.statements, Ready t around (.statement s)) : Ready t around (.block b)
  | keep {around : Option (Option String)} {s : Statement}
      (unmarked : t.hasAny s.id .split = false) (quiet : (Node.statement s).Quiet t)
      (closed : (Node.statement s).Closed []) : Ready t around (.statement s)
  | jump {own : Option String} {s : Statement} {kind : JumpKind} {label : Option Ident}
      (marked : t.hasAny s.id .split = true) (isJump : s.kind = .jump kind label)
      (caught : ∀ l ∈ label, own = some l.name) : Ready t (some own) (.statement s)
  | nest {around : Option (Option String)} {s : Statement}
      (marked : t.hasAny s.id .split = true) (isNest : s.kind.isNest = true)
      (blocks : ∀ b ∈ s.kind.blocks, Ready t around (.block b)) : Ready t around (.statement s)
  | wait {around : Option (Option String)} {s : Statement} {body : Block}
      (marked : t.hasAny s.id .split = true) (isWait : s.kind = .wait body)
      (body : Ready t none (.block body)) : Ready t around (.statement s)
  | loop {around : Option (Option String)} {s : Statement} {label : Option Ident}
      {head : LoopHead} {body : Block} (marked : t.hasAny s.id .split = true)
      (waits : t.has s.id .loop = true) (isLoop : s.kind = .loop label head body)
      (headers : ∀ h ∈ head.statements, h.kind.isSimple = true ∧ (Node.statement h).Quiet t)
      (body : Ready t (some (label.map Ident.name)) (.block body)) : Ready t around (.statement s)

/-! ## Plain code -/

theorem Node.Closed.plain {around : List (Option String)} {n : Node} (config : Config)
    (h : n.Closed around) : (n.plain config).Closed around := by
  induction h with
  | @block around b _ ih =>
    refine .block fun x hx => ?_
    rw [Block.plain_statements] at hx
    obtain ⟨s, hs, rfl⟩ := List.mem_map.mp hx
    exact ih s hs
  | jump isJump caught =>
    exact .jump (by rw [Statement.plain_kind, isJump, StatementKind.plain]) caught
  | @loop around s label head body isLoop simple _ ih =>
    refine .loop (by rw [Statement.plain_kind, isLoop, StatementKind.plain_loop]) ?_ ih
    intro x hx
    rw [LoopHead.statements_plain] at hx
    obtain ⟨h, hh, rfl⟩ := List.mem_map.mp hx
    simpa using simple h hh
  | @other around s notJump notLoop _ ih =>
    refine .other (by simpa using notJump) (by simpa using notLoop) fun x hx => ?_
    rw [Statement.plain_kind, StatementKind.blocks_plain] at hx
    obtain ⟨b, hb, rfl⟩ := List.mem_map.mp hx
    exact ih b hb

theorem Node.quiet_plain (config : Config) {t : MarkTable} {n : Node} :
    (n.plain config).Quiet t ↔ n.Quiet t := by
  have isWait : ∀ k : Node, (k.plain config).isWait = k.isWait := by
    intro k
    cases k <;> simp [plain, Node.isWait]
  constructor
  · intro h k hk
    cases hi : k.id? with
    | none => exact ⟨by cases k <;> simp_all [id?, Node.isWait], by simp⟩
    | some i =>
      have := h _ ((mem_ownNodes_plain config (by simpa using hi)).mpr ⟨k, hk, rfl⟩)
      simpa [isWait, hi] using this
  · intro h x hx
    cases hi : x.id? with
    | none => exact ⟨by cases x <;> simp_all [id?, Node.isWait], by simp⟩
    | some i =>
      obtain ⟨k, hk, rfl⟩ := (mem_ownNodes_plain config hi).mp hx
      simpa [isWait, ← hi] using h k hk

theorem Node.Ready.plain {t : MarkTable} {around : Option (Option String)} {n : Node}
    (config : Config) (h : n.Ready t around) : (n.plain config).Ready t around := by
  induction h with
  | @block around b _ ih =>
    refine .block fun x hx => ?_
    rw [Block.plain_statements] at hx
    obtain ⟨s, hs, rfl⟩ := List.mem_map.mp hx
    exact ih s hs
  | keep unmarked quiet closed =>
    exact .keep (by simpa using unmarked) ((quiet_plain config).mpr quiet) (closed.plain config)
  | jump marked isJump caught =>
    exact .jump (by simpa using marked)
      (by rw [Statement.plain_kind, isJump, StatementKind.plain]) caught
  | @nest around s marked isNest _ ih =>
    refine .nest (by simpa using marked) (by simpa using isNest) fun x hx => ?_
    rw [Statement.plain_kind, StatementKind.blocks_plain] at hx
    obtain ⟨b, hb, rfl⟩ := List.mem_map.mp hx
    exact ih b hb
  | wait marked isWait _ ih =>
    exact .wait (by simpa using marked)
      (by rw [Statement.plain_kind, isWait, StatementKind.plain]) ih
  | @loop around s label head body marked waits isLoop headers _ ih =>
    refine .loop (by simpa using marked) (by simpa using waits)
      (by rw [Statement.plain_kind, isLoop, StatementKind.plain_loop]) (fun x hx => ?_) ih
    rw [LoopHead.statements_plain] at hx
    obtain ⟨h, hh, rfl⟩ := List.mem_map.mp hx
    exact ⟨by simpa using (headers h hh).1, (quiet_plain config).mpr (headers h hh).2⟩

theorem Node.Closed.of_plain {config : Config} {n : Node} {around : List (Option String)}
    (h : (n.plain config).Closed around) : n.Closed around := by
  induction n using Node.inductOn generalizing around with
  | step n ih =>
    cases n with
    | block b =>
      cases h with
      | block statements =>
        refine .block fun s hs => ih _ (List.mem_map_of_mem hs) (statements _ ?_)
        rw [Block.plain_statements]
        exact List.mem_map_of_mem hs
    | statement s =>
      have blocks : ∀ b ∈ s.kind.blocks, Node.block b ∈ (Node.statement s).children :=
        fun b hb => List.mem_append_right _ (List.mem_map_of_mem hb)
      cases h with
      | jump isJump caught =>
        exact .jump (StatementKind.plain_eq_jump config (by simpa using isJump)) caught
      | loop isLoop simple body =>
        obtain ⟨head, b, wasLoop, rfl, rfl⟩ :=
          StatementKind.plain_eq_loop config (by simpa using isLoop)
        refine .loop wasLoop (fun h hh => ?_)
          (ih (.block b) (blocks b (by simp [wasLoop, StatementKind.blocks])) body)
        have := simple (h.plain config) (by
          rw [LoopHead.statements_plain]
          exact List.mem_map_of_mem hh)
        simpa using this
      | other notJump notLoop inner =>
        refine .other (by simpa using notJump) (by simpa using notLoop) fun b hb => ?_
        refine ih (.block b) (blocks b hb) (inner _ ?_)
        rw [Statement.plain_kind, StatementKind.blocks_plain]
        exact List.mem_map_of_mem hb
    | _ => cases h

theorem Node.Ready.of_plain {config : Config} {t : MarkTable} {n : Node}
    {around : Option (Option String)} (h : (n.plain config).Ready t around) : n.Ready t around := by
  induction n using Node.inductOn generalizing around with
  | step n ih =>
    cases n with
    | block b =>
      cases h with
      | block statements =>
        refine .block fun s hs => ih _ (List.mem_map_of_mem hs) (statements _ ?_)
        rw [Block.plain_statements]
        exact List.mem_map_of_mem hs
    | statement s =>
      have blocks : ∀ b ∈ s.kind.blocks, Node.block b ∈ (Node.statement s).children :=
        fun b hb => List.mem_append_right _ (List.mem_map_of_mem hb)
      cases h with
      | keep unmarked quiet closed =>
        exact .keep (by simpa using unmarked) ((quiet_plain config).mp quiet) closed.of_plain
      | jump marked isJump caught =>
        exact .jump (by simpa using marked)
          (StatementKind.plain_eq_jump config (by simpa using isJump)) caught
      | nest marked isNest inner =>
        refine .nest (by simpa using marked) (by simpa using isNest) fun b hb => ?_
        refine ih (.block b) (blocks b hb) (inner _ ?_)
        rw [Statement.plain_kind, StatementKind.blocks_plain]
        exact List.mem_map_of_mem hb
      | wait marked isWait body =>
        obtain ⟨b, wasWait, rfl⟩ := StatementKind.plain_eq_wait config (by simpa using isWait)
        exact .wait (by simpa using marked) wasWait
          (ih (.block b) (blocks b (by simp [wasWait, StatementKind.blocks])) body)
      | loop marked waits isLoop headers body =>
        obtain ⟨head, b, wasLoop, rfl, rfl⟩ :=
          StatementKind.plain_eq_loop config (by simpa using isLoop)
        refine .loop (by simpa using marked) (by simpa using waits) wasLoop (fun h hh => ?_)
          (ih (.block b) (blocks b (by simp [wasLoop, StatementKind.blocks])) body)
        obtain ⟨simple, quiet⟩ := headers (h.plain config) (by
          rw [LoopHead.statements_plain]
          exact List.mem_map_of_mem hh)
        exact ⟨by simpa using simple, (quiet_plain config (n := .statement h)).mp quiet⟩
    | _ => cases h

/-- Whether code is ready shows in its plain form. -/
theorem Node.Ready.of_plain_eq {config : Config} {t : MarkTable} {n k : Node}
    {around : Option (Option String)} (h : n.Ready t around)
    (same : k.plain config = n.plain config) : k.Ready t around := by
  have plain := h.plain config
  rw [← same] at plain
  exact plain.of_plain

/-- The label of the loop next to what a node holds. -/
def Node.entering (around : Option (Option String)) : Node → Option (Option String)
  | .statement ⟨_, .loop label _ _, _⟩ => some (label.map Ident.name)
  | .statement ⟨_, .wait _, _⟩ => none
  | _ => around

theorem Node.entering_of_free {n : Node} (around : Option (Option String))
    (noWait : n.isWait = false) (noLoop : n.isLoop = false) : n.entering around = around := by
  unfold entering
  split <;> simp_all [isWait, isLoop, StatementKind.isWait, StatementKind.isLoop]

theorem Node.foldl_entering_of_free {p : List Node} (around : Option (Option String))
    (free : ∀ n ∈ p, n.isWait = false ∧ n.isLoop = false) :
    p.foldl entering around = around := by
  induction p generalizing around with
  | nil => rfl
  | cons n p ih =>
    obtain ⟨noWait, noLoop⟩ := free n List.mem_cons_self
    rw [List.foldl_cons, entering_of_free around noWait noLoop]
    exact ih around fun x hx => free x (List.mem_cons_of_mem _ hx)

/-! ## Marked functions are ready -/

theorem Node.isLoop_eq_true {s : Statement} :
    (Node.statement s).isLoop = true ↔ ∃ label head body, s.kind = .loop label head body := by
  obtain ⟨id, kind, span⟩ := s
  cases kind <;> simp [isLoop, StatementKind.isLoop]

theorem Node.catches_loop {s : Statement} {own : Option Ident} {head : LoopHead} {body : Block}
    (isLoop : s.kind = .loop own head body) (label : Option Ident) :
    (Node.statement s).catches label = true ↔ ∀ l ∈ label, own.map Ident.name = some l.name := by
  obtain ⟨id, kind, span⟩ := s
  cases isLoop
  cases label <;> simp [catches]

/-- Blocks and statements. -/
def Node.isCode : Node → Bool
  | .block _ | .statement _ => true
  | _ => false

/-- Code is closed if on each way down to a jump there is a loop that catches it. -/
theorem Node.closed_of_ways {n : Node} (isCode : n.isCode = true) {around : List (Option String)} (simple : ∀ m ∈ n.ownNodes, m.HasSimpleHead)
    (ways : ∀ (p : List Node) (j : Statement) (kind : JumpKind) (label : Option Ident),
      Path n p (.statement j) → j.kind = .jump kind label →
        (∃ x ∈ p, x.catches label = true) ∨ Caught label around) : n.Closed around := by
  induction n using Node.inductOn generalizing around with
  | step n ih =>
    have inChild : ∀ c ∈ n.children, ∀ m ∈ c.ownNodes, m.HasSimpleHead :=
      fun c hc m hm => simple m (ownNodes_of_child hc hm)
    cases n with
    | block b =>
      refine .block fun s hs => ?_
      have child : Node.statement s ∈ (Node.block b).children := List.mem_map_of_mem hs
      refine ih _ child rfl (inChild _ child) fun p j kind label path isJump => ?_
      rcases ways _ j kind label (.down child path) isJump with ⟨x, hx, catches⟩ | caught
      · rcases List.mem_cons.mp hx with rfl | hx
        · cases catches
        · exact .inl ⟨x, hx, catches⟩
      · exact .inr caught
    | statement s =>
      have blockChild : ∀ b ∈ s.kind.blocks, Node.block b ∈ (Node.statement s).children :=
        fun b hb => List.mem_append_right _ (List.mem_map_of_mem hb)
      by_cases isJump : s.kind.isJump = true
      · obtain ⟨kind, label, isJump⟩ : ∃ kind label, s.kind = .jump kind label := by
          cases hk : s.kind <;> simp_all [StatementKind.isJump]
        refine .jump isJump ?_
        rcases ways _ s kind label (.here _) isJump with ⟨x, hx, catches⟩ | caught
        · rw [List.mem_singleton] at hx
          subst hx
          obtain ⟨_, _, _, _, ⟨⟩, isLoop, -⟩ := exists_of_catches catches
          rw [isJump] at isLoop
          cases isLoop
        · exact caught
      · by_cases isLoop : s.kind.isLoop = true
        · obtain ⟨own, head, body, isLoop⟩ := Node.isLoop_eq_true.mp isLoop
          have child := blockChild body (by simp [isLoop, StatementKind.blocks])
          refine .loop isLoop ?_ (ih _ child rfl (inChild _ child) ?_)
          · intro h hh
            have := simple _ (self_mem_ownNodes _)
            simp only [HasSimpleHead, isLoop] at this
            exact this h hh
          · intro p j kind label path isJump
            rcases ways _ j kind label (.down child path) isJump with ⟨x, hx, catches⟩ | caught
            · rcases List.mem_cons.mp hx with rfl | hx
              · exact .inr ⟨_, List.mem_cons_self, (catches_loop isLoop label).mp catches⟩
              · exact .inl ⟨x, hx, catches⟩
            · obtain ⟨o, ho, same⟩ := caught
              exact .inr ⟨o, List.mem_cons_of_mem _ ho, same⟩
        · rw [Bool.not_eq_true] at isJump isLoop
          refine .other isJump isLoop fun b hb => ?_
          have child := blockChild b hb
          refine ih _ child rfl (inChild _ child) fun p j kind label path jumps => ?_
          rcases ways _ j kind label (.down child path) jumps with ⟨x, hx, catches⟩ | caught
          · rcases List.mem_cons.mp hx with rfl | hx
            · have := isLoop_of_catches catches
              simp [Node.isLoop, isLoop] at this
            · exact .inl ⟨x, hx, catches⟩
          · exact .inr caught
    | _ => cases isCode

namespace Func

section
variable {config : Config} {f : Func} {m : Marking}
  (distinct : (Node.block f.body).ownIds.Nodup) (simple : f.HasSimpleHeads)
  (ok : f.marking config = .ok m)

include distinct simple ok

/-- Nothing inside an unmarked statement is marked. -/
theorem quiet_of_unmarked {s : Statement} (hs : .statement s ∈ f.body.ownNodes)
    (unmarked : m.table.hasAny s.id .split = false) : (Node.statement s).Quiet m.table := by
  have notWaits : ¬ (Node.statement s).Waits := fun waits => by
    have := (has_await_iff distinct simple ok hs rfl).mpr waits
    simp [(MarkTable.hasAny_split_iff _ _).mpr (.inl this)] at unmarked
  have notPropagating : m.table.has s.id .propagate = false := by
    rw [← Bool.not_eq_true]
    intro marked
    simp [(MarkTable.hasAny_split_iff _ _).mpr (.inr marked)] at unmarked
  intro n hn
  have hn' : n ∈ f.body.ownNodes := Node.ownNodes_trans (n := .block f.body) hs hn
  have quiet : ∀ k ∈ (Node.statement s).ownNodes, ∀ i, k.id? = some i →
      m.table.has i .await = false := by
    intro k hk i hi
    rw [← Bool.not_eq_true]
    intro marked
    have waits := (has_await_iff distinct simple ok (Node.ownNodes_trans (n := .block f.body) hs hk)
      hi).mp marked
    exact notWaits (waits.of_mem hk)
  refine ⟨?_, fun i hi => ?_⟩
  · rw [← Bool.not_eq_true]
    intro isWait
    exact notWaits ⟨n, hn, isWait⟩
  · rw [Marks.eq_none_iff, ← MarkTable.has_await, ← MarkTable.has_loop,
      ← MarkTable.has_propagate]
    have awaits := quiet n hn i hi
    refine ⟨awaits, ?_, ?_⟩ <;> rw [← Bool.not_eq_true] <;> intro marked
    · have := ((has_loop_iff distinct simple ok hn' hi).mp marked).2
      simp [awaits] at this
    · obtain ⟨l, j, hl, loops, leads, inside, around⟩ :=
        (has_propagate_iff distinct simple ok hn' hi).mp marked
      -- the loop lies in the statement, which then waits, or around it, which is then marked
      have waits := ((has_loop_iff distinct simple ok hl rfl).mp loops).2
      have inS : .statement l ∉ (Node.statement s).ownNodes := fun mem => by
        simp [quiet _ mem l.id rfl] at waits
      have onS := (Node.nested_of_around distinct hi rfl rfl hl hs inside.mem hn).resolve_left inS
      have differ : Node.statement s ≠ .statement l := fun same =>
        inS (same ▸ Node.self_mem_ownNodes _)
      have := (has_propagate_iff distinct simple ok hs rfl).mpr
        ⟨l, j, hl, loops, leads, Node.holds_of_mem onS rfl differ, Node.ownNodes_trans hn around⟩
      simp [notPropagating] at this

/-- A statement with a mark at which blocks are split is a jump, or holds blocks. -/
theorem blocks_of_marked {s : Statement} (hs : .statement s ∈ f.body.ownNodes)
    (marked : m.table.hasAny s.id .split = true) :
    s.kind.isJump = true ∨ s.kind.blocks ≠ [] := by
  have leaf : s.kind.isJump = false → s.kind.blocks = [] → ∀ k ∈ (Node.statement s).ownNodes,
      (∃ x, k = .statement x ∧ x.kind.isJump = true) ∨ k.isWait = true → False := by
    intro notJump noBlocks k hk special
    have noChildren : (Node.statement s).children = [] := by
      obtain ⟨id, kind, span⟩ := s
      cases kind <;> simp_all [Node.children, StatementKind.headers, StatementKind.blocks]
    have notWait : (Node.statement s).isWait = false := by
      obtain ⟨id, kind, span⟩ := s
      cases kind <;> simp_all [Node.isWait, StatementKind.isWait, StatementKind.blocks]
    have hasId : ∃ i, k.id? = some i := by
      rcases special with ⟨x, rfl, -⟩ | isWait
      · exact ⟨_, rfl⟩
      · exact Node.id?_of_isWait isWait
    obtain ⟨i, hi⟩ := hasId
    rcases (Node.mem_ownNodes hi).mp hk with rfl | ⟨c, hc, -⟩
    · rcases special with ⟨x, ⟨⟩, isJump⟩ | isWait
      · simp [notJump] at isJump
      · simp [notWait] at isWait
    · simp [noChildren] at hc
  by_contra none
  simp only [not_or, Bool.not_eq_true, ne_eq, not_not] at none
  rcases (MarkTable.hasAny_split_iff _ _).mp marked with awaits | propagates
  · obtain ⟨w, hw, isWait⟩ := (has_await_iff distinct simple ok hs rfl).mp awaits
    exact leaf none.1 none.2 w hw (.inr isWait)
  · obtain ⟨l, j, -, -, ⟨kind, label, isJump, -⟩, -, around⟩ :=
      (has_propagate_iff distinct simple ok hs rfl).mp propagates
    exact leaf none.1 none.2 _ around (.inl ⟨j, rfl, by simp [isJump, StatementKind.isJump]⟩)

/-- A loop at which blocks are split waits: a loop between another and a jump to it would be
crossed. -/
theorem has_loop_of_marked {s : Statement} (hs : .statement s ∈ f.body.ownNodes)
    (marked : m.table.hasAny s.id .split = true) (isLoop : (Node.statement s).isLoop = true) :
    m.table.has s.id .loop = true := by
  rcases (MarkTable.hasAny_split_iff _ _).mp marked with awaits | propagates
  · exact (has_loop_iff distinct simple ok hs rfl).mpr ⟨isLoop, awaits⟩
  · obtain ⟨l, j, hl, loops, leads, inside, around⟩ :=
      (has_propagate_iff distinct simple ok hs rfl).mp propagates
    have := (between_leadsTo distinct simple ok hl leads rfl inside around).2 loops
    simp [isLoop] at this

/-- An unmarked statement is closed if everything around it is marked. -/
theorem closed_of_unmarked {s : Statement} (hs : .statement s ∈ f.body.ownNodes)
    (unmarked : m.table.hasAny s.id .split = false)
    (above : ∀ l : Statement, .statement l ∈ f.body.ownNodes →
      (Node.statement l).Holds (.statement s) → m.table.hasAny l.id .split = true) :
    (Node.statement s).Closed [] := by
  have inS : ∀ k ∈ (Node.statement s).ownNodes, k ∈ f.body.ownNodes :=
    fun k hk => Node.ownNodes_trans (n := .block f.body) hs hk
  refine Node.closed_of_ways rfl (fun k hk => simple k (inS k hk))
    fun p j kind label path isJump => .inl ?_
  have hj := path.end_mem_ownNodes
  obtain ⟨l, hl, leads⟩ := exists_leadsTo distinct simple ok (inS _ hj) isJump
  have ⟨kind', label', isJump', catches, holds, _⟩ := leads
  rw [isJump] at isJump'
  cases isJump'
  obtain ⟨q, up⟩ := Node.path_of_mem (n := .block f.body) (i := s.id) rfl hs
  have distinctS := up.nodup_ownIds distinct
  by_cases inside : .statement l ∈ (Node.statement s).ownNodes
  · exact ⟨_, path.mem_of_between distinctS rfl rfl inside holds.mem, catches⟩
  · -- otherwise the jump would leave the statement for a loop that waits, and mark it
    have onS := (Node.nested_of_around distinct rfl rfl rfl hl hs holds.mem hj).resolve_left inside
    have differ : Node.statement s ≠ .statement l := fun same =>
      inside (same ▸ Node.self_mem_ownNodes _)
    have aroundS := Node.holds_of_mem onS rfl differ
    have loops := has_loop_of_marked distinct simple ok hl (above l hl aroundS)
      (Node.isLoop_of_catches catches)
    have := (has_propagate_iff distinct simple ok hs rfl).mpr ⟨l, j, hl, loops, leads, aroundS, hj⟩
    simp [(MarkTable.hasAny_split_iff _ _).mpr (.inr this)] at unmarked

/-- The statements in the head of a loop are not marked. -/
theorem quiet_of_header {s : Statement} (hs : .statement s ∈ f.body.ownNodes) (h : Statement)
    (hh : h ∈ s.kind.headers) : (Node.statement h).Quiet m.table := by
  have inside : .statement h ∈ (Node.statement s).ownNodes :=
    Node.child_mem_ownNodes (List.mem_append_left _ (List.mem_map_of_mem hh))
  have mem : .statement h ∈ f.body.ownNodes := Node.ownNodes_trans (n := .block f.body) hs inside
  refine quiet_of_unmarked distinct simple ok mem ?_
  rw [← Bool.not_eq_true]
  intro marked
  have isSimple := simple _ hs h hh
  have := blocks_of_marked distinct simple ok mem marked
  obtain ⟨id, kind, span⟩ := h
  cases kind <;> simp_all [StatementKind.isSimple, StatementKind.isJump, StatementKind.blocks]

/-- A marked jump is caught by the loop next to it. -/
theorem around_of_jump {p : List Node} {s : Statement} {kind : JumpKind} {label : Option Ident}
    (path : Node.Path (.block f.body) (p ++ [.statement s]) (.statement s))
    (marked : m.table.hasAny s.id .split = true) (isJump : s.kind = .jump kind label) :
    ∃ own, p.foldl Node.entering none = some own ∧ ∀ l ∈ label, own = some l.name := by
  have hs := path.end_mem_ownNodes
  have alone : ∀ (k : Node) (i : NodeId), k.id? = some i → k ∈ (Node.statement s).ownNodes →
      k = .statement s := by
    intro k i hi hk
    refine ((Node.mem_ownNodes hi).mp hk).resolve_right ?_
    simp [Node.children, isJump, StatementKind.headers, StatementKind.blocks]
  have notWaits : ¬ (Node.statement s).Waits := by
    rintro ⟨w, hw, isWait⟩
    obtain ⟨i, hi⟩ := Node.id?_of_isWait isWait
    rw [alone w i hi hw] at isWait
    simp [Node.isWait, isJump, StatementKind.isWait] at isWait
  have propagates := ((MarkTable.hasAny_split_iff _ _).mp marked).resolve_left fun awaits =>
    notWaits ((has_await_iff distinct simple ok hs rfl).mp awaits)
  obtain ⟨l, j, hl, loops, leads, inside, around⟩ :=
    (has_propagate_iff distinct simple ok hs rfl).mp propagates
  cases alone _ _ rfl around
  have way := leads
  obtain ⟨_, _, isJump', catches, _, _⟩ := way
  rw [isJump] at isJump'
  cases isJump'
  obtain ⟨_, own, head, body, ⟨⟩, isLoop, same⟩ := Node.exists_of_catches catches
  have differ : Node.statement l ≠ .statement s := by
    rintro ⟨⟩
    simp [isLoop] at isJump
  have onWay : .statement l ∈ p := by
    have := path.mem_of_between distinct rfl rfl hl inside.mem
    simpa [differ] using this
  obtain ⟨p₁, p₂, rfl⟩ := List.append_of_mem onWay
  rw [List.append_assoc, List.cons_append] at path
  obtain ⟨up, down⟩ := path.split
  have free : ∀ x ∈ p₂, x.isWait = false ∧ x.isLoop = false := by
    intro x hx
    have mem : x ∈ p₂ ++ [.statement s] := List.mem_append_left _ hx
    obtain ⟨i, hi⟩ := down.exists_id rfl (List.mem_cons_of_mem _ mem)
    obtain ⟨inside, around⟩ := (down.mem_iff_holds (up.nodup_ownIds distinct) rfl rfl hi).mp mem
    obtain ⟨noWait, noLoop⟩ := between_leadsTo distinct simple ok hl leads hi inside around
    exact ⟨noWait, noLoop loops⟩
  refine ⟨own.map Ident.name, ?_, same⟩
  rw [List.foldl_append, List.foldl_cons, Node.foldl_entering_of_free _ free]
  obtain ⟨id, kind, span⟩ := l
  cases isLoop
  rfl

/-- Along every way down through marked statements, code is ready. -/
theorem ready_of_path {n : Node} (isCode : n.isCode = true) {p : List Node}
    (path : Node.Path (.block f.body) (p ++ [n]) n)
    (above : ∀ s, .statement s ∈ p → m.table.hasAny s.id .split = true) :
    n.Ready m.table (p.foldl Node.entering none) := by
  induction n using Node.inductOn generalizing p with
  | step n ih =>
    have hn := path.end_mem_ownNodes
    have below : ∀ c ∈ n.children, c.isCode = true → (∀ s, n = .statement s →
        m.table.hasAny s.id .split = true) → c.Ready m.table (n.entering (p.foldl Node.entering none)) := by
      intro c hc isCode marked
      have := ih c hc isCode (path.snoc hc) fun s hs => by
        rcases List.mem_append.mp hs with hs | hs
        · exact above s hs
        · rw [List.mem_singleton] at hs
          exact marked s hs.symm
      rwa [List.foldl_append] at this
    cases n with
    | block b =>
      refine .block fun s hs => ?_
      exact below (.statement s) (List.mem_map_of_mem hs) rfl (by simp)
    | statement s =>
      have blocks : ∀ b ∈ s.kind.blocks, Node.block b ∈ (Node.statement s).children :=
        fun b hb => List.mem_append_right _ (List.mem_map_of_mem hb)
      cases marked : m.table.hasAny s.id .split with
      | false =>
        refine .keep marked (quiet_of_unmarked distinct simple ok hn marked)
          (closed_of_unmarked distinct simple ok hn marked fun l hl holds => above l ?_)
        have differ : Node.statement l ≠ .statement s := by
          rintro ⟨⟩
          obtain ⟨c, hc, inside⟩ := holds
          exact Node.id_not_below (path.nodup_ownIds distinct) rfl hc (Node.mem_ownIds inside rfl)
        have mem := path.mem_of_between distinct rfl rfl hl holds.mem
        simpa [differ] using mem
      | true =>
        have below : ∀ b ∈ s.kind.blocks, (Node.block b).Ready m.table
            ((Node.statement s).entering (p.foldl Node.entering none)) := fun b hb =>
          below _ (blocks b hb) rfl (by rintro _ ⟨⟩; exact marked)
        have holds := blocks_of_marked distinct simple ok hn marked
        have loops := has_loop_of_marked distinct simple ok hn marked
        have heads := simple _ hn
        have quiet := quiet_of_header distinct simple ok hn
        have jumps : ∀ kind label, s.kind = .jump kind label → _ := fun _ _ =>
          around_of_jump distinct simple ok path marked
        obtain ⟨id, kind, span⟩ := s
        cases kind with
        | jump kind label =>
          obtain ⟨own, next, caught⟩ := jumps kind label rfl
          rw [next]
          exact .jump marked rfl caught
        | block body => exact .nest marked rfl below
        | branch condition yes no => exact .nest marked rfl below
        | switch subject arms otherwise => exact .nest marked rfl below
        | wait body => exact .wait marked rfl (below body List.mem_cons_self)
        | loop label head body =>
          exact .loop marked (loops rfl) rfl (fun h hh => ⟨heads h hh, quiet h hh⟩)
            (below body List.mem_cons_self)
        | _ => simp [StatementKind.isJump, StatementKind.blocks] at holds
    | _ => cases isCode

/-- The body of a function that breaks no rule can be rotated. -/
theorem ready_of_marking : (Node.block f.body).Ready m.table none :=
  ready_of_path distinct simple ok rfl (p := []) (.here _) (by simp)

end

end Func

end WaitDefer
