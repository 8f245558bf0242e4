import WaitDefer.Marking.Jumps
import WaitDefer.Marking.Loops
import WaitDefer.Proofs.Marking.Table
import WaitDefer.Proofs.Marking.Waits

/-!
# Loops that wait, and jumps to them

* `Node.mem_waitingLoops`: the loops found are those among the nodes that wait, whatever is passed
  over on the way to them;
* `Node.escapes_iff`: what is noted about jumps is what is noted at the end of each way down to one;
* `Surroundings.jump_spec`: what is noted about a jump, read off the way down to it.
-/

namespace WaitDefer

/-! ## Loops that wait -/

/-- The loops that wait in a block or statement. -/
def Node.waitingLoops (t : MarkTable) : Node → List NodeId
  | .block b => b.waitingLoops t
  | .statement s => s.waitingLoops t
  | _ => []

section
variable (t : MarkTable)

theorem Statement.listWaitingLoops_eq (ss : List Statement) :
    Statement.listWaitingLoops t ss = ss.flatMap (Statement.waitingLoops t) := by
  induction ss with
  | nil => rfl
  | cons s ss ih => simp [Statement.listWaitingLoops, ih]

theorem Arm.listWaitingLoops_eq (arms : List Arm) :
    Arm.listWaitingLoops t arms = (arms.map Arm.body).flatMap (Block.waitingLoops t) := by
  induction arms with
  | nil => rfl
  | cons a arms ih => obtain ⟨test, body, span⟩ := a; simp [Arm.listWaitingLoops, ih]

theorem Block.waitingLoops_eq (b : Block) :
    b.waitingLoops t = b.statements.flatMap (Statement.waitingLoops t) := by
  obtain ⟨id, statements, span⟩ := b
  simp [Block.waitingLoops, Statement.listWaitingLoops_eq]

theorem StatementKind.waitingLoops_eq (id : NodeId) (kind : StatementKind) :
    kind.waitingLoops t id = (if kind.isLoop then [id] else []) ++
      (kind.headers.flatMap (Statement.waitingLoops t) ++
        kind.blocks.flatMap (Block.waitingLoops t)) := by
  cases kind with
  | branch condition yes no => cases no <;> simp [waitingLoops, isLoop, headers, blocks]
  | switch subject arms otherwise =>
    cases otherwise <;> simp [waitingLoops, isLoop, headers, blocks, Arm.listWaitingLoops_eq]
  | loop label head body =>
    cases head with
    | counting init test update =>
      cases init <;> cases update <;>
        simp [waitingLoops, isLoop, headers, LoopHead.statements, blocks]
    | whileDo _ => simp [waitingLoops, isLoop, headers, LoopHead.statements, blocks]
    | doWhile _ => simp [waitingLoops, isLoop, headers, LoopHead.statements, blocks]
  | _ => simp [waitingLoops, isLoop, headers, blocks]

theorem Statement.waitingLoops_eq (s : Statement) :
    s.waitingLoops t = if t.has s.id .await then s.kind.waitingLoops t s.id else [] := by
  obtain ⟨id, kind, span⟩ := s
  simp [Statement.waitingLoops]

theorem Statement.mem_waitingLoops (s : Statement) (i : NodeId) :
    i ∈ (Node.statement s).waitingLoops t ↔ t.has s.id .await = true ∧
      (s.kind.isLoop = true ∧ i = s.id ∨
        ∃ c ∈ (Node.statement s).children, i ∈ c.waitingLoops t) := by
  rw [Node.waitingLoops, Statement.waitingLoops_eq, StatementKind.waitingLoops_eq]
  cases t.has s.id .await <;> cases s.kind.isLoop <;>
    simp [Node.children, Node.waitingLoops, or_and_right, exists_or]

/-- Where exactly the nodes that wait are marked, the loops found are all loops marked so: what is
passed over holds none. -/
theorem Node.mem_waitingLoops (n : Node) (i : NodeId)
    (marked : ∀ m ∈ n.ownNodes, ∀ j, m.id? = some j → (t.has j .await = true ↔ m.Waits)) :
    i ∈ n.waitingLoops t ↔ ∃ s : Statement, .statement s ∈ n.ownNodes ∧ s.kind.isLoop = true ∧
      s.id = i ∧ t.has i .await = true := by
  induction n using Node.inductOn with
  | step n ih =>
    have inChild : ∀ c ∈ n.children, _ := fun c hc =>
      ih c hc fun m hm => marked m (Node.ownNodes_of_child hc hm)
    have below : (∃ s : Statement, .statement s ∈ n.ownNodes ∧ s.kind.isLoop = true ∧ s.id = i ∧
        t.has i .await = true) ↔
        (∃ s : Statement, .statement s = n ∧ s.kind.isLoop = true ∧ s.id = i ∧
          t.has i .await = true) ∨ ∃ c ∈ n.children, i ∈ c.waitingLoops t := by
      constructor
      · rintro ⟨s, hs, rest⟩
        rcases (Node.mem_ownNodes (m := .statement s) rfl).mp hs with h | ⟨c, hc, hsc⟩
        · exact .inl ⟨s, h, rest⟩
        · exact .inr ⟨c, hc, (inChild c hc).mpr ⟨s, hsc, rest⟩⟩
      · rintro (⟨s, rfl, rest⟩ | ⟨c, hc, found⟩)
        · exact ⟨s, Node.self_mem_ownNodes _, rest⟩
        · obtain ⟨s, hs, rest⟩ := (inChild c hc).mp found
          exact ⟨s, Node.ownNodes_of_child hc hs, rest⟩
    rw [below]
    cases n with
    | block b =>
      simp [Node.waitingLoops, Block.waitingLoops_eq, Node.children]
    | statement s =>
      rw [Statement.mem_waitingLoops]
      constructor
      · rintro ⟨hs, ⟨isLoop, rfl⟩ | found⟩
        · exact .inl ⟨s, rfl, isLoop, rfl, hs⟩
        · exact .inr found
      · rintro (⟨_, ⟨⟩, isLoop, rfl, hs⟩ | ⟨c, hc, found⟩)
        · exact ⟨hs, .inl ⟨isLoop, rfl⟩⟩
        · -- an unmarked statement holds no wait-block, so nothing in it would be marked either
          obtain ⟨s', hs', -, rfl, h⟩ := (inChild c hc).mp found
          have inside := Node.ownNodes_of_child hc hs'
          have waits := (marked _ inside s'.id rfl).mp h
          exact ⟨(marked _ (Node.self_mem_ownNodes _) s.id rfl).mpr (waits.of_mem inside),
            .inr ⟨c, hc, found⟩⟩
    | _ => simp [Node.waitingLoops, Node.children]

theorem Node.ownsId_of_waitingLoops (n : Node) {i : NodeId}
    (h : i ∈ n.waitingLoops t) : n.OwnsId i := by
  induction n using Node.inductOn with
  | step n ih =>
    cases n with
    | block b =>
      rw [Node.waitingLoops, Block.waitingLoops_eq, List.mem_flatMap] at h
      obtain ⟨s, hs, found⟩ := h
      have child : Node.statement s ∈ (Node.block b).children := List.mem_map_of_mem hs
      exact ownsId_of_child child (ih _ child found)
    | statement s =>
      obtain ⟨-, ⟨-, rfl⟩ | ⟨c, hc, found⟩⟩ := (Statement.mem_waitingLoops t s i).mp h
      · exact ownsId_self rfl
      · exact ownsId_of_child hc (ih c hc found)
    | _ => cases h

end

/-! ## Jumps, way by way -/

/-- Something noted about jumps: a broken rule, or the id of a node on the way to a loop. -/
def Escapes.Notes (e : Escapes) : Violation ⊕ NodeId → Prop
  | .inl v => v ∈ e.violations
  | .inr i => i ∈ e.propagating

theorem Escapes.notes_append (a b : Escapes) (x : Violation ⊕ NodeId) :
    (a ++ b).Notes x ↔ a.Notes x ∨ b.Notes x := by
  cases x <;> exact List.mem_append

theorem Escapes.notes_nothing (x : Violation ⊕ NodeId) : ¬ nothing.Notes x := by
  cases x <;> simp [Notes, nothing]

namespace Surroundings

/-- Around what a statement holds; the statement itself is already on the path. -/
def into (around : Surroundings) (t : MarkTable) (s : Statement) : Surroundings :=
  match s.kind with
  | .wait _ => around.enterWait s.span
  | .loop label _ _ => around.enterLoop label (t.has s.id .loop) s.span
  | _ => around

/-- Around what a node holds. -/
def past (t : MarkTable) (around : Surroundings) : Node → Surroundings
  | .func f => around.enter f.id
  | .block b => around.enter b.id
  | .statement s => (around.enter s.id).into t s
  | _ => around

/-- Around the end of a way down. -/
def along (t : MarkTable) (around : Surroundings) (p : List Node) : Surroundings :=
  p.foldl (past t) around

end Surroundings

/-- The jumps of a block or statement. -/
def Node.escapes (t : MarkTable) (around : Surroundings) : Node → Escapes
  | .block b => b.escapes t around
  | .statement s => s.escapes t around
  | _ => .nothing

section
variable (t : MarkTable)

theorem Statement.notes_listEscapes (around : Surroundings) (ss : List Statement)
    (x : Violation ⊕ NodeId) :
    (Statement.listEscapes t around ss).Notes x ↔ ∃ s ∈ ss, (s.escapes t around).Notes x := by
  induction ss with
  | nil => simp [Statement.listEscapes, Escapes.notes_nothing]
  | cons s ss ih => simp [Statement.listEscapes, Escapes.notes_append, ih]

theorem Arm.notes_listEscapes (around : Surroundings) (arms : List Arm)
    (x : Violation ⊕ NodeId) :
    (Arm.listEscapes t around arms).Notes x ↔ ∃ a ∈ arms, (a.body.escapes t around).Notes x := by
  induction arms with
  | nil => simp [Arm.listEscapes, Escapes.notes_nothing]
  | cons a arms ih =>
    obtain ⟨test, body, span⟩ := a
    simp [Arm.listEscapes, Escapes.notes_append, ih]

theorem Block.notes_escapes (around : Surroundings) (b : Block) (x : Violation ⊕ NodeId) :
    (b.escapes t around).Notes x ↔ ∃ s ∈ b.statements,
      (s.escapes t (around.past t (.block b))).Notes x := by
  obtain ⟨id, statements, span⟩ := b
  simp [Block.escapes, Statement.notes_listEscapes, Surroundings.past]

/-- A statement's notes are its own, if it is a jump, and those of its blocks. -/
theorem Statement.notes_escapes (around : Surroundings) (s : Statement)
    (x : Violation ⊕ NodeId) :
    (s.escapes t around).Notes x ↔
      (∃ kind label, s.kind = .jump kind label ∧
        ((around.past t (.statement s)).jump kind label s.span).Notes x) ∨
      ∃ b ∈ s.kind.blocks, (b.escapes t (around.past t (.statement s))).Notes x := by
  obtain ⟨id, kind, span⟩ := s
  simp only [Statement.escapes, Surroundings.past, Surroundings.into]
  cases kind with
  | branch condition yes no =>
    cases no <;> simp [StatementKind.escapes, StatementKind.blocks, Escapes.notes_append]
  | switch subject arms otherwise =>
    cases otherwise <;> simp [StatementKind.escapes, StatementKind.blocks, Escapes.notes_append,
      Arm.notes_listEscapes, or_and_right, exists_or]
  | _ => simp [StatementKind.escapes, StatementKind.blocks, Escapes.notes_nothing]

/-- What is noted about jumps is what is noted at the end of each way down to a jump. -/
theorem Node.escapes_iff (n : Node) (around : Surroundings) (x : Violation ⊕ NodeId)
    (simple : ∀ m ∈ n.ownNodes, m.HasSimpleHead) :
    (n.escapes t around).Notes x ↔ ∃ (p : List Node) (j : Statement) (kind : JumpKind)
      (label : Option Ident), Node.Path n p (.statement j) ∧ j.kind = .jump kind label ∧
        ((around.along t p).jump kind label j.span).Notes x := by
  induction n using Node.inductOn generalizing around with
  | step n ih =>
    have inChild : ∀ c ∈ n.children, _ := fun c hc around =>
      ih c hc around fun m hm => simple m (Node.ownNodes_of_child hc hm)
    -- a way down either ends at once or goes on through a child
    have ways : (∃ (p : List Node) (j : Statement) (kind : JumpKind) (label : Option Ident),
        Node.Path n p (.statement j) ∧ j.kind = .jump kind label ∧
          ((around.along t p).jump kind label j.span).Notes x) ↔
        (∃ (j : Statement) (kind : JumpKind) (label : Option Ident), n = .statement j ∧
          j.kind = .jump kind label ∧ ((around.past t n).jump kind label j.span).Notes x) ∨
        ∃ c ∈ n.children, (c.escapes t (around.past t n)).Notes x := by
      constructor
      · rintro ⟨p, j, kind, label, path, isJump, noted⟩
        cases path with
        | here => exact .inl ⟨j, kind, label, rfl, isJump, noted⟩
        | @down _ c _ p child rest =>
          exact .inr ⟨c, child, (inChild c child _).mpr ⟨p, j, kind, label, rest, isJump, noted⟩⟩
      · rintro (⟨j, kind, label, rfl, isJump, noted⟩ | ⟨c, child, noted⟩)
        · exact ⟨_, j, kind, label, .here _, isJump, noted⟩
        · obtain ⟨p, j, kind, label, rest, isJump, noted⟩ := (inChild c child _).mp noted
          exact ⟨_, j, kind, label, .down child rest, isJump, noted⟩
    rw [ways]
    cases n with
    | block b =>
      simp [Node.escapes, Block.notes_escapes, Node.children]
    | statement s =>
      rw [Node.escapes, Statement.notes_escapes]
      constructor
      · rintro (⟨kind, label, isJump, noted⟩ | ⟨b, hb, noted⟩)
        · exact .inl ⟨s, kind, label, rfl, isJump, noted⟩
        · exact .inr ⟨_, List.mem_append_right _ (List.mem_map_of_mem hb), noted⟩
      · rintro (⟨_, kind, label, ⟨⟩, isJump, noted⟩ | ⟨c, hc, noted⟩)
        · exact .inl ⟨kind, label, isJump, noted⟩
        · rcases List.mem_append.mp hc with hc | hc
          · -- no jump stands in the head of a loop
            obtain ⟨h, hh, rfl⟩ := List.mem_map.mp hc
            have simpleHead := simple (.statement s) (Node.self_mem_ownNodes _) h hh
            rw [Node.escapes, Statement.notes_escapes] at noted
            obtain ⟨id, kind, span⟩ := h
            cases kind <;> simp_all [StatementKind.isSimple, StatementKind.blocks]
          · obtain ⟨b, hb, rfl⟩ := List.mem_map.mp hc
            exact .inr ⟨b, hb, noted⟩
    | _ => simp [Node.escapes, Node.children, Escapes.notes_nothing]

end

/-! ## Where a jump leads -/

namespace Node

def isLoop : Node → Bool
  | .statement s => s.kind.isLoop
  | _ => false

/-- A node is marked as a loop that waits. -/
def isMarkedLoop (t : MarkTable) (n : Node) : Bool := n.id?.any (t.has · .loop)

/-- A loop catches the jumps without a label and those with its own. -/
def catches (label : Option Ident) : Node → Bool
  | .statement ⟨_, .loop own _ _, _⟩ =>
    match label with
    | some l => own.map Ident.name == some l.name
    | none => true
  | _ => false

theorem exists_of_catches {label : Option Ident} {n : Node} (h : n.catches label = true) :
    ∃ (s : Statement) (own : Option Ident) (head : LoopHead) (body : Block),
      n = .statement s ∧ s.kind = .loop own head body ∧
        ∀ l ∈ label, own.map Ident.name = some l.name := by
  unfold catches at h
  split at h
  · rename_i id own head body span
    refine ⟨_, own, head, body, rfl, rfl, fun l hl => ?_⟩
    cases Option.mem_def.mp hl
    simpa using h
  · cases h

theorem isLoop_of_catches {label : Option Ident} {n : Node} (h : n.catches label = true) :
    n.isLoop = true := by
  obtain ⟨s, own, head, body, rfl, hk, -⟩ := exists_of_catches h
  simp [isLoop, hk, StatementKind.isLoop]

theorem catches_none (n : Node) : n.catches none = n.isLoop := by
  unfold catches isLoop
  split
  · rfl
  · rename_i h
    cases n with
    | statement s =>
      obtain ⟨id, kind, span⟩ := s
      cases kind with
      | loop => exact absurd rfl (h _ _ _ _ _)
      | _ => rfl
    | _ => rfl

end Node

namespace Surroundings

section
variable (t : MarkTable) (around : Surroundings)

theorem along_append (p q : List Node) :
    around.along t (p ++ q) = (around.along t p).along t q :=
  List.foldl_append

theorem past_path (n : Node) : (around.past t n).path = n.id?.toList ++ around.path := by
  cases n with
  | statement s =>
    simp only [past, into, Node.id?]
    split <;> rfl
  | _ => rfl

theorem along_path (p : List Node) :
    (around.along t p).path = (p.filterMap Node.id?).reverse ++ around.path := by
  induction p generalizing around with
  | nil => rfl
  | cons n p ih =>
    have step : around.along t (n :: p) = (around.past t n).along t p := rfl
    rw [step, ih, past_path]
    cases h : n.id? <;> simp [h]

theorem past_waits (n : Node) :
    (around.past t n).waits = (if n.isWait then [n.span] else []) ++ around.waits := by
  cases n with
  | statement s =>
    obtain ⟨id, kind, span⟩ := s
    cases kind <;> rfl
  | _ => rfl

theorem along_waits (p : List Node) :
    (around.along t p).waits = ((p.filter Node.isWait).map Node.span).reverse ++ around.waits := by
  induction p generalizing around with
  | nil => rfl
  | cons n p ih =>
    have step : around.along t (n :: p) = (around.past t n).along t p := rfl
    rw [step, ih, past_waits]
    cases h : n.isWait <;> simp [h]

/-- The outermost of the wait-blocks inside a loop is the first on the way down from it. -/
theorem waitInside?_along {frame : LoopFrame} (p : List Node)
    (here : frame.waits = around.waits.length) :
    (around.along t p).waitInside? frame = (p.find? Node.isWait).map Node.span := by
  rw [waitInside?, along_waits, here, List.reverse_append, List.reverse_reverse,
    List.getElem?_append_right (by simp), List.length_reverse, Nat.sub_self, List.getElem?_map,
    ← List.head?_eq_getElem?, List.head?_filter]

/-- A node adds a frame exactly if it is a loop. -/
theorem past_loops (n : Node) :
    (n.isLoop = false ∧ (around.past t n).loops = around.loops) ∨
    ∃ (s : Statement) (own : Option Ident) (head : LoopHead) (body : Block),
      n = .statement s ∧ s.kind = .loop own head body ∧
        (around.past t n).loops = ⟨own.map Ident.name, t.has s.id .loop, around.path.length + 1,
          around.waits.length, s.span⟩ :: around.loops := by
  cases n with
  | statement s =>
    obtain ⟨id, kind, span⟩ := s
    cases kind with
    | loop own head body =>
      exact .inr ⟨_, own, head, body, rfl, rfl, by simp [past, into, enter, enterLoop]⟩
    | _ => exact .inl ⟨rfl, rfl⟩
  | _ => exact .inl ⟨rfl, rfl⟩

/-- The frames along a way are those of its loops, the innermost first. -/
theorem along_frames (p : List Node) :
    (around.along t p).loops.map (fun frame => (frame.marked, frame.span)) =
      ((p.filter Node.isLoop).map fun n => (n.isMarkedLoop t, n.span)).reverse ++
        around.loops.map fun frame => (frame.marked, frame.span) := by
  induction p generalizing around with
  | nil => rfl
  | cons n p ih =>
    have step : around.along t (n :: p) = (around.past t n).along t p := rfl
    rw [step, ih]
    rcases past_loops t around n with ⟨noLoop, same⟩ | ⟨s, own, head, body, rfl, hk, more⟩
    · simp [same, noLoop]
    · have isLoop : (Node.statement s).isLoop = true := by
        simp [Node.isLoop, hk, StatementKind.isLoop]
      simp [more, isLoop, Node.isMarkedLoop, Node.id?, Node.span]

/-- The loops of a way down lie inside those around it, and say whether one of them waits. -/
theorem along_loops (p : List Node) :
    ∃ inner, (around.along t p).loops = inner ++ around.loops ∧
      inner.length = p.countP Node.isLoop ∧
      ∀ label, (∀ n ∈ p, n.catches (some label) = false) →
        ∀ frame ∈ inner, frame.label ≠ some label.name := by
  induction p generalizing around with
  | nil => exact ⟨[], rfl, rfl, by simp⟩
  | cons n p ih =>
    obtain ⟨inner, loops, length, labels⟩ := ih (around.past t n)
    have step : around.along t (n :: p) = (around.past t n).along t p := rfl
    rw [step, loops]
    rcases past_loops t around n with ⟨noLoop, same⟩ | ⟨s, own, head, body, rfl, hk, more⟩
    · refine ⟨inner, by rw [same], by simp [length, noLoop], fun label free => ?_⟩
      exact labels label fun m hm => free m (List.mem_cons_of_mem _ hm)
    · have isLoop : (Node.statement s).isLoop = true := by
        simp [Node.isLoop, hk, StatementKind.isLoop]
      refine ⟨inner ++ [_], by rw [more, List.append_assoc]; rfl, by simp [length, isLoop],
        fun label free frame hf => ?_⟩
      rcases List.mem_append.mp hf with hf | hf
      · exact labels label (fun m hm => free m (List.mem_cons_of_mem _ hm)) frame hf
      · rw [List.mem_singleton] at hf
        subst hf
        have := free _ List.mem_cons_self
        obtain ⟨id, kind, span⟩ := s
        cases hk
        simpa [Node.catches] using this

end

/-- With no loop around that catches it, a jump leads nowhere. -/
theorem target?_of_free (t : MarkTable) (label : Option Ident) (p : List Node)
    (free : ∀ n ∈ p, n.catches label = false) :
    (outermost.along t p).target? label = none := by
  obtain ⟨inner, loops, length, labels⟩ := along_loops t outermost p
  rw [target?.eq_def, loops]
  cases label with
  | none =>
    have : p.countP Node.isLoop = 0 := by
      rw [List.countP_eq_zero]
      intro n hn
      rw [← Node.catches_none]
      simp [free n hn]
    simp [outermost, List.eq_nil_of_length_eq_zero (length.trans this)]
  | some l =>
    rw [List.findIdx?_eq_none_iff]
    intro frame hf
    have mem : frame ∈ inner := by simpa [outermost] using hf
    simpa using labels l free frame mem

/-- A jump leads to the last loop on the way to it that catches it. -/
theorem target?_of_catches (t : MarkTable) (around : Surroundings) (label : Option Ident)
    (l : Node) (p : List Node) (catches : l.catches label = true)
    (free : ∀ n ∈ p, n.catches label = false) :
    ∃ (s : Statement) (inner : List LoopFrame) (own : Option String), l = .statement s ∧
      inner.length = p.countP Node.isLoop ∧
      (around.along t (l :: p)).loops = inner ++
        ⟨own, t.has s.id .loop, around.path.length + 1, around.waits.length, s.span⟩ ::
          around.loops ∧
      (around.along t (l :: p)).target? label = some inner.length := by
  obtain ⟨s, own, head, body, rfl, hk, same⟩ := Node.exists_of_catches catches
  have isLoop := Node.isLoop_of_catches catches
  rcases past_loops t around (.statement s) with ⟨noLoop, -⟩ | ⟨_, own', _, _, ⟨⟩, hk', more⟩
  · simp [isLoop] at noLoop
  · rw [hk] at hk'
    cases hk'
    obtain ⟨inner, loops, length, labels⟩ := along_loops t (around.past t (.statement s)) p
    have step : around.along t (.statement s :: p) = (around.past t (.statement s)).along t p := rfl
    refine ⟨s, inner, _, rfl, length, by rw [step, loops, more], ?_⟩
    rw [step, target?.eq_def, loops, more]
    cases label with
    | none =>
      -- no loop catches the jump before, so there is none
      have : p.countP Node.isLoop = 0 := by
        rw [List.countP_eq_zero]
        intro n hn
        rw [← Node.catches_none]
        simp [free n hn]
      simp [length, this]
    | some name =>
      simp only [List.findIdx?_append]
      have notInner : inner.findIdx? (·.label == some name.name) = none := by
        rw [List.findIdx?_eq_none_iff]
        intro frame hf
        simpa using labels name free frame hf
      simp [notInner, List.findIdx?_cons, same name rfl]

/-- A jump that breaks no rule leaves no wait-block, and crosses no loop if its target waits. -/
theorem jump_lawful {around : Surroundings} {kind : JumpKind} {label : Option Ident} {span : Span}
    {inner outer : List LoopFrame} {frame : LoopFrame}
    (loops : around.loops = inner ++ frame :: outer)
    (target : around.target? label = some inner.length)
    (lawful : (around.jump kind label span).violations = []) :
    around.waitInside? frame = none ∧ (frame.marked = true → inner = []) ∧
      (around.jump kind label span).propagating =
        if frame.marked then around.path.take (around.path.length - frame.depth) else [] := by
  have found : around.loops[inner.length]? = some frame := by
    rw [loops, List.getElem?_append_right (Nat.le_refl _)]
    simp
  obtain ⟨first, crossed, take, mem⟩ : ∃ first crossed,
      around.loops.take (inner.length + 1) = first :: crossed ∧ frame ∈ first :: crossed := by
    rw [loops]
    cases inner with
    | nil => exact ⟨frame, [], rfl, List.mem_cons_self⟩
    | cons f fs =>
      exact ⟨f, fs ++ [frame], by simp [List.take_append, List.take_of_length_le], by simp⟩
  rw [jump.eq_def, target] at lawful ⊢
  simp only [take, found] at lawful ⊢
  cases inside : around.waitInside? frame with
  | some w => simp [inside, Escapes.violation] at lawful
  | none =>
    simp only [inside] at lawful ⊢
    split at lawful
    · simp [Escapes.violation] at lawful
    · rename_i cross
      have innermost : frame.marked = true → inner = [] := by
        intro marked
        have any : (first :: crossed).any (·.marked) = true :=
          List.any_eq_true.mpr ⟨frame, mem, marked⟩
        simpa [any] using cross
      refine ⟨trivial, innermost, ?_⟩
      rw [if_neg cross]
      cases frame.marked <;> simp [Escapes.nothing]

end Surroundings

theorem exists_last {α : Type} (q : α → Bool) (l : List α) :
    (∀ a ∈ l, q a = false) ∨ ∃ l₁ a l₂, l = l₁ ++ a :: l₂ ∧ q a = true ∧ ∀ b ∈ l₂, q b = false := by
  induction l with
  | nil => exact .inl (by simp)
  | cons x l ih =>
    rcases ih with none | ⟨l₁, a, l₂, rfl, ha, after⟩
    · cases hx : q x with
      | true => exact .inr ⟨[], x, l, rfl, hx, none⟩
      | false => exact .inl (List.forall_mem_cons.mpr ⟨hx, none⟩)
    · exact .inr ⟨x :: l₁, a, l₂, rfl, ha, after⟩

/-- A jump that breaks no rule has a loop around it that catches it. -/
theorem Surroundings.exists_target (t : MarkTable) (p : List Node) (kind : JumpKind)
    (label : Option Ident) (span : Span)
    (lawful : ((outermost.along t p).jump kind label span).violations = []) :
    ∃ (p₁ p₂ : List Node) (l : Statement), p = p₁ ++ .statement l :: p₂ ∧
      (Node.statement l).catches label = true ∧ ∀ n ∈ p₂, n.catches label = false := by
  rcases exists_last (Node.catches label) p with free | ⟨p₁, l, p₂, rfl, catches, free⟩
  · rw [jump.eq_def, target?_of_free t label p free] at lawful
    cases label <;> simp [Escapes.violation] at lawful
  · obtain ⟨s, -, -, -, rfl, -⟩ := Node.exists_of_catches catches
    exact ⟨p₁, p₂, s, rfl, catches, free⟩

/-- What is noted about a jump that breaks no rule: it goes to the last loop on the way that
catches it, through no wait-block, and if that loop waits then through no loop either; the nodes
from there on are those that propagate. -/
theorem Surroundings.jump_spec (t : MarkTable) (p₁ p₂ : List Node) (l : Statement)
    (kind : JumpKind) (label : Option Ident) (span : Span)
    (catches : (Node.statement l).catches label = true)
    (free : ∀ n ∈ p₂, n.catches label = false)
    (lawful : ((outermost.along t (p₁ ++ .statement l :: p₂)).jump kind label span).violations =
      []) :
    (∀ n ∈ p₂, n.isWait = false) ∧
      (t.has l.id .loop = true → ∀ n ∈ p₂, n.isLoop = false) ∧
      ∀ i, i ∈ ((outermost.along t (p₁ ++ .statement l :: p₂)).jump kind label span).propagating ↔
        t.has l.id .loop = true ∧ ∃ n ∈ p₂, n.id? = some i := by
  obtain ⟨_, inner, own, ⟨⟩, length, loops, target⟩ :=
    target?_of_catches t (outermost.along t p₁) label (.statement l) p₂ catches free
  rw [along_append] at lawful ⊢
  obtain ⟨inside, innermost, propagating⟩ := jump_lawful loops target lawful
  refine ⟨?_, ?_, fun i => ?_⟩
  · have notWait : (Node.statement l).isWait = false := by
      obtain ⟨_, own', head, body, ⟨⟩, hk, -⟩ := Node.exists_of_catches catches
      simp [Node.isWait, hk, StatementKind.isWait]
    rw [waitInside?_along t _ _ rfl, List.find?_cons_of_neg (by simp [notWait]),
      Option.map_eq_none_iff, List.find?_eq_none] at inside
    exact fun n hn => by simpa using inside n hn
  · intro marked
    have : p₂.countP Node.isLoop = 0 := by
      rw [← length, innermost marked]
      rfl
    rw [List.countP_eq_zero] at this
    exact fun n hn => by simpa using this n hn
  · have path : ((outermost.along t p₁).along t (.statement l :: p₂)).path =
        (p₂.filterMap Node.id?).reverse ++ l.id :: (outermost.along t p₁).path := by
      rw [along_path]
      simp [Node.id?]
    rw [propagating, path]
    cases t.has l.id .loop with
    | false => simp
    | true =>
      simp only [↓reduceIte, true_and]
      rw [List.take_left' (by simp only [List.length_append, List.length_cons]; omega),
        List.mem_reverse, List.mem_filterMap]

/-- What a jump notes lies around it. -/
theorem Surroundings.mem_path_of_jump {around : Surroundings} {kind : JumpKind}
    {label : Option Ident} {span : Span} {i : NodeId}
    (h : (around.jump kind label span).Notes (.inr i)) : i ∈ around.path := by
  change i ∈ (around.jump kind label span).propagating at h
  unfold jump at h
  split at h
  · split at h <;> cases h
  · split at h
    · split at h
      · cases h
      · split at h
        · cases h
        · split at h
          · exact List.mem_of_mem_take h
          · cases h
    · cases h

theorem Node.ownsId_of_escapes {t : MarkTable} (n : Node) (around : Surroundings) {i : NodeId}
    (h : (n.escapes t around).Notes (.inr i)) : i ∈ around.path ∨ n.OwnsId i := by
  induction n using Node.inductOn generalizing around with
  | step n ih =>
    -- what lies around a part is what lies around the whole, and the whole itself
    have inside {c : Node} (hc : c ∈ n.children)
        (noted : (c.escapes t (around.past t n)).Notes (.inr i)) : i ∈ around.path ∨ n.OwnsId i := by
      rcases ih c hc _ noted with on | own
      · rw [Surroundings.past_path, List.mem_append, Option.mem_toList] at on
        exact on.symm.imp_right ownsId_self
      · exact .inr (ownsId_of_child hc own)
    cases n with
    | block b =>
      obtain ⟨s, hs, noted⟩ := (Block.notes_escapes t around b _).mp h
      exact inside (c := .statement s) (List.mem_map_of_mem hs) noted
    | statement s =>
      rcases (Statement.notes_escapes t around s _).mp h with ⟨kind, label, -, noted⟩ | ⟨b, hb, noted⟩
      · have on := Surroundings.mem_path_of_jump noted
        rw [Surroundings.past_path, List.mem_append, Option.mem_toList] at on
        exact on.symm.imp_right ownsId_self
      · exact inside (c := .block b) (List.mem_append_right _ (List.mem_map_of_mem hb)) noted
    | _ => exact absurd h (Escapes.notes_nothing _)

end WaitDefer
