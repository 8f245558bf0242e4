import WaitDefer.Proofs.Marking.Exact
import WaitDefer.Proofs.Rotation.Lowering

/-!
# Code that rotation drops

Nothing after a marked jump is ever run:

* `Statement.upToJump`, `Statement.afterJump`: a list of statements, cut after its first marked jump;
* `Func.dropped`, `Func.lost`: what follows a marked jump, and the ids in it;
* `Sieved`: some ids are those of the lost code in a node, as it looks going down from the node;
* `Sieved.of_plain_eq`: that does not depend on how the code is written.
-/

namespace WaitDefer

/-! ## Cutting after a jump -/

namespace Statement

variable (t : MarkTable)

/-- A jump to a loop that is rotated. -/
def jumpsOut (s : Statement) : Bool := s.kind.isJump && t.has s.id .propagate

/-- Statements up to and with the first marked jump. -/
def upToJump : List Statement → List Statement
  | [] => []
  | s :: ss => if s.jumpsOut t then [s] else s :: upToJump ss

/-- The statements after the first marked jump. -/
def afterJump : List Statement → List Statement
  | [] => []
  | s :: ss => if s.jumpsOut t then ss else afterJump ss

theorem upToJump_append_afterJump (ss : List Statement) :
    upToJump t ss ++ afterJump t ss = ss := by
  induction ss with
  | nil => rfl
  | cons s ss ih =>
    unfold upToJump afterJump
    split
    · rfl
    · rw [List.cons_append, ih]

theorem jumpsOut_plain (config : Config) (s : Statement) :
    (s.plain config).jumpsOut t = s.jumpsOut t := by
  simp [jumpsOut]

theorem upToJump_plain (config : Config) (ss : List Statement) :
    upToJump t (ss.map (plain config)) = (upToJump t ss).map (plain config) := by
  induction ss with
  | nil => rfl
  | cons s ss ih =>
    simp only [List.map_cons, upToJump, jumpsOut_plain, ih]
    split <;> rfl

theorem afterJump_plain (config : Config) (ss : List Statement) :
    afterJump t (ss.map (plain config)) = (afterJump t ss).map (plain config) := by
  induction ss with
  | nil => rfl
  | cons s ss ih =>
    simp only [List.map_cons, afterJump, jumpsOut_plain, ih]
    split <;> rfl

end Statement

/-- What follows a marked jump in a block. -/
def Node.dropped (t : MarkTable) : Node → List Statement
  | .block b => Statement.afterJump t b.statements
  | _ => []

/-- What follows a marked jump in one of a function's own blocks. -/
def Func.dropped (t : MarkTable) (f : Func) : List Statement :=
  f.body.ownNodes.flatMap (Node.dropped t)

/-- The ids of what follows a marked jump, with everything inside it. -/
def Node.lost (t : MarkTable) (n : Node) : List NodeId :=
  (n.dropped t).flatMap fun s => (Node.statement s).ownIds

/-- The ids of what follows a marked jump in a function's own code, with everything inside it. -/
def Func.lost (t : MarkTable) (f : Func) : List NodeId := f.body.ownNodes.flatMap (Node.lost t)

/-! ## Sieved code -/

section
variable (t : MarkTable) (lost : List NodeId)

/-- Code that is not lost itself, inside of which exactly the code after a marked jump is lost. -/
inductive Sieved : Node → Prop
  | block {b : Block}
      (reached : ∀ s ∈ Statement.upToJump t b.statements, Sieved (.statement s))
      (beyond : ∀ s ∈ Statement.afterJump t b.statements, (Node.statement s).ownIds ⊆ lost) :
      Sieved (.block b)
  | statement {s : Statement} (kept : s.id ∉ lost)
      (jump : s.kind.isJump = true → t.hasAny s.id .split = true → s.jumpsOut t = true)
      (inside : ∀ c ∈ (Node.statement s).children, Sieved c) : Sieved (.statement s)

/-- Sieved statements in a row. -/
structure SievedRun (ss : List Statement) : Prop where
  reached : ∀ s ∈ Statement.upToJump t ss, Sieved t lost (.statement s)
  beyond : ∀ s ∈ Statement.afterJump t ss, (Node.statement s).ownIds ⊆ lost

end

section
variable {t : MarkTable} {lost : List NodeId}

theorem Sieved.run {b : Block} (h : Sieved t lost (.block b)) : SievedRun t lost b.statements := by
  cases h with
  | block reached beyond => exact ⟨reached, beyond⟩

theorem Sieved.kept {s : Statement} (h : Sieved t lost (.statement s)) : s.id ∉ lost := by
  cases h with
  | statement kept => exact kept

theorem Sieved.header {s h : Statement} (sieved : Sieved t lost (.statement s))
    (hh : h ∈ s.kind.headers) : Sieved t lost (.statement h) := by
  cases sieved with
  | statement _ _ inside => exact inside _ (List.mem_append_left _ (List.mem_map_of_mem hh))

theorem Sieved.inBlock {s : Statement} {b : Block} (sieved : Sieved t lost (.statement s))
    (hb : b ∈ s.kind.blocks) : Sieved t lost (.block b) := by
  cases sieved with
  | statement _ _ inside => exact inside _ (List.mem_append_right _ (List.mem_map_of_mem hb))

namespace SievedRun

variable {s : Statement} {ss : List Statement}

theorem head (h : SievedRun t lost (s :: ss)) : Sieved t lost (.statement s) := by
  refine h.reached s ?_
  unfold Statement.upToJump
  split <;> exact List.mem_cons_self

theorem tail (h : SievedRun t lost (s :: ss)) (goesOn : s.jumpsOut t = false) :
    SievedRun t lost ss := by
  obtain ⟨reached, beyond⟩ := h
  simp only [Statement.upToJump, Statement.afterJump, goesOn, Bool.false_eq_true, ↓reduceIte]
    at reached beyond
  exact ⟨fun x hx => reached x (List.mem_cons_of_mem _ hx), beyond⟩

theorem rest (h : SievedRun t lost (s :: ss)) (leaves : s.jumpsOut t = true) :
    ∀ x ∈ ss, (Node.statement x).ownIds ⊆ lost := by
  have beyond := h.beyond
  simpa only [Statement.afterJump, leaves, ↓reduceIte] using beyond

end SievedRun

theorem Statement.jumpsOut_of_unmarked {s : Statement} (h : t.hasAny s.id .split = false) :
    s.jumpsOut t = false := by
  cases propagates : t.has s.id .propagate with
  | false => simp [jumpsOut, propagates]
  | true =>
    rw [(t.hasAny_split_iff s.id).mpr (.inr propagates)] at h
    cases h

theorem Statement.upToJump_of_unmarked {ss : List Statement}
    (h : ∀ s ∈ ss, t.hasAny s.id .split = false) : upToJump t ss = ss := by
  induction ss with
  | nil => rfl
  | cons s ss ih =>
    rw [upToJump, jumpsOut_of_unmarked (h s List.mem_cons_self),
      ih fun x hx => h x (List.mem_cons_of_mem _ hx)]
    rfl

/-- Nothing is lost where nothing is marked. -/
theorem Sieved.not_lost {n : Node} (h : Sieved t lost n)
    (unmarked : ∀ x, .statement x ∈ n.ownNodes → t.hasAny x.id .split = false) (x : Statement)
    (hx : .statement x ∈ n.ownNodes) : x.id ∉ lost := by
  induction h with
  | @block b reached beyond ih =>
    rcases (Node.mem_ownNodes rfl).mp hx with same | ⟨c, hc, hx⟩
    · cases same
    · obtain ⟨s, hs, rfl⟩ := List.mem_map.mp hc
      have all : Statement.upToJump t b.statements = b.statements :=
        Statement.upToJump_of_unmarked fun y hy =>
          unmarked y (Node.child_mem_ownNodes (List.mem_map_of_mem hy))
      exact ih s (by rwa [all]) (fun y hy => unmarked y (Node.ownNodes_of_child hc hy)) hx
  | @statement s kept jump inside ih =>
    rcases (Node.mem_ownNodes rfl).mp hx with same | ⟨c, hc, hx⟩
    · cases same
      exact kept
    · exact ih c hc (fun y hy => unmarked y (Node.ownNodes_of_child hc hy)) hx

/-! ## Plain code -/

theorem Node.mem_ownIds_plain (config : Config) (n : Node) {i : NodeId} :
    i ∈ (n.plain config).ownIds ↔ i ∈ n.ownIds :=
  (n.ownIds_plain config).mem_iff

/-- What is lost can be told from plain code. -/
theorem Sieved.of_plain_eq {config : Config} {n n' : Node} (h : Sieved t lost n)
    (same : n'.plain config = n.plain config) : Sieved t lost n' := by
  induction h generalizing n' with
  | @block b reached beyond ih =>
    obtain ⟨b', rfl⟩ : ∃ b', n' = .block b' := by cases n' <;> simp_all [Node.plain]
    have statements : b'.statements.map (Statement.plain config) =
        b.statements.map (Statement.plain config) := by
      simpa using congrArg Block.statements (Node.block.inj same)
    refine .block (fun s' hs' => ?_) fun s' hs' i hi => ?_
    · have mem := List.mem_map_of_mem (f := Statement.plain config) hs'
      rw [← Statement.upToJump_plain, statements, Statement.upToJump_plain] at mem
      obtain ⟨s, hs, plain⟩ := List.mem_map.mp mem
      exact ih s hs (congrArg Node.statement plain.symm)
    · have mem := List.mem_map_of_mem (f := Statement.plain config) hs'
      rw [← Statement.afterJump_plain, statements, Statement.afterJump_plain] at mem
      obtain ⟨s, hs, plain⟩ := List.mem_map.mp mem
      refine beyond s hs ?_
      rw [← Node.mem_ownIds_plain config] at hi ⊢
      rwa [Node.plain, plain]
  | @statement s kept jump inside ih =>
    obtain ⟨s', rfl⟩ : ∃ s', n' = .statement s' := by cases n' <;> simp_all [Node.plain]
    have plain : s'.plain config = s.plain config := Node.statement.inj same
    have id : s'.id = s.id := by simpa using congrArg Statement.id plain
    have isJump : s'.kind.isJump = s.kind.isJump := by
      simpa using congrArg (fun x : Statement => x.kind.isJump) plain
    refine .statement (by rwa [id]) ?_ fun c' hc' => ?_
    · rw [isJump, id, ← Statement.jumpsOut_plain t config, plain, Statement.jumpsOut_plain]
      exact jump
    · have mem := List.mem_map_of_mem (f := Node.plain config) hc'
      rw [← Node.children_plain, same, Node.children_plain] at mem
      obtain ⟨c, hc, plain⟩ := List.mem_map.mp mem
      exact ih c hc plain.symm

/-! ## Distinct ids -/

theorem Node.mem_lostIn {n : Node} {i : NodeId} :
    i ∈ n.ownNodes.flatMap (Node.lost t) ↔
      i ∈ n.lost t ∨ ∃ c ∈ n.children, i ∈ c.ownNodes.flatMap (Node.lost t) := by
  have inBlock : ∀ m : Node, i ∈ m.lost t → ∃ j, m.id? = some j := by
    intro m hm
    cases m <;> first | exact ⟨_, rfl⟩ | cases hm
  simp only [List.mem_flatMap]
  constructor
  · rintro ⟨m, hm, hi⟩
    obtain ⟨j, hj⟩ := inBlock m hi
    rcases (mem_ownNodes hj).mp hm with rfl | ⟨c, hc, hm⟩
    · exact .inl hi
    · exact .inr ⟨c, hc, m, hm, hi⟩
  · rintro (hi | ⟨c, hc, m, hm, hi⟩)
    · exact ⟨n, n.self_mem_ownNodes, hi⟩
    · exact ⟨m, ownNodes_of_child hc hm, hi⟩

theorem Node.mem_ownIds_of_child {n c : Node} {i : NodeId} (hc : c ∈ n.children)
    (hi : i ∈ c.ownIds) : i ∈ n.ownIds := by
  obtain ⟨m, hm, hi⟩ := List.mem_filterMap.mp hi
  exact mem_ownIds (ownNodes_of_child hc hm) hi

theorem Node.lostIn_subset (n : Node) : n.ownNodes.flatMap (Node.lost t) ⊆ n.ownIds := by
  induction n using inductOn with
  | step n ih =>
    intro i hi
    rcases mem_lostIn.mp hi with hi | ⟨c, hc, hi⟩
    · cases n with
      | block b =>
        obtain ⟨s, hs, hi⟩ := List.mem_flatMap.mp hi
        refine mem_ownIds_of_child (List.mem_map_of_mem ?_) hi
        rw [← Statement.upToJump_append_afterJump t b.statements]
        exact List.mem_append_right _ hs
      | _ => cases hi
    · exact mem_ownIds_of_child hc (ih c hc hi)

theorem Node.isCode_of_child {n c : Node} (h : c ∈ n.children) :
    (∃ b, c = .block b) ∨ ∃ s, c = .statement s := by
  cases n with
  | block b =>
    obtain ⟨s, -, rfl⟩ := List.mem_map.mp h
    exact .inr ⟨s, rfl⟩
  | statement s =>
    rcases List.mem_append.mp h with h | h <;> obtain ⟨x, -, rfl⟩ := List.mem_map.mp h
    · exact .inr ⟨x, rfl⟩
    · exact .inl ⟨x, rfl⟩
  | _ => cases h

/-- A child of a block is reached or lies beyond a marked jump, and not both. -/
theorem Block.nodup_cut {b : Block} (distinct : (Node.block b).ownIds.Nodup) {s s' : Statement}
    {i : NodeId} (hs : s ∈ Statement.upToJump t b.statements)
    (hs' : s' ∈ Statement.afterJump t b.statements) (hi : i ∈ (Node.statement s).ownIds) :
    i ∉ (Node.statement s').ownIds := by
  rw [Node.ownIds_block, List.nodup_cons] at distinct
  have apart := distinct.2
  rw [Node.children, ← Statement.upToJump_append_afterJump t b.statements, List.map_append,
    List.flatMap_append, List.nodup_append] at apart
  intro hi'
  refine apart.2.2 i ?_ i ?_ rfl
  · exact List.mem_flatMap.mpr ⟨_, List.mem_map_of_mem hs, hi⟩
  · exact List.mem_flatMap.mpr ⟨_, List.mem_map_of_mem hs', hi'⟩

/-- In code with distinct ids, what follows a marked jump is lost and nothing else. -/
theorem Node.sieved {n : Node} (distinct : n.ownIds.Nodup)
    (jumps : ∀ s, .statement s ∈ n.ownNodes → s.kind.isJump = true →
      t.hasAny s.id .split = true → s.jumpsOut t = true)
    (agrees : ∀ i ∈ n.ownIds, i ∈ lost ↔ i ∈ n.ownNodes.flatMap (Node.lost t))
    (isCode : (∃ b, n = .block b) ∨ ∃ s, n = .statement s) : Sieved t lost n := by
  induction n using Node.inductOn with
  | step n ih =>
    have inside {c : Node} (hc : c ∈ n.children)
        (agrees : ∀ i ∈ c.ownIds, i ∈ lost ↔ i ∈ c.ownNodes.flatMap (Node.lost t)) :
        Sieved t lost c :=
      ih c hc (nodup_ownIds_of_child distinct hc)
        (fun s hs => jumps s (ownNodes_of_child hc hs)) agrees (isCode_of_child hc)
    -- what is lost inside of one child is not in another
    have only {c : Node} (hc : c ∈ n.children) {i : NodeId} (hi : i ∈ c.ownIds) :
        (∃ d ∈ n.children, i ∈ d.ownNodes.flatMap (Node.lost t)) ↔
          i ∈ c.ownNodes.flatMap (Node.lost t) := by
      constructor
      · rintro ⟨d, hd, lost⟩
        rwa [child_unique distinct hc hd hi (d.lostIn_subset lost)]
      · exact fun lost => ⟨c, hc, lost⟩
    cases n with
    | block b =>
      refine .block (fun s hs => ?_) fun s hs i hi => ?_
      · have hc : Node.statement s ∈ (Node.block b).children := by
          refine List.mem_map_of_mem ?_
          rw [← Statement.upToJump_append_afterJump t b.statements]
          exact List.mem_append_left _ hs
        refine inside hc fun i hi => ?_
        rw [agrees i (mem_ownIds_of_child hc hi), mem_lostIn, only hc hi, or_iff_right]
        intro beyond
        obtain ⟨s', hs', hi'⟩ := List.mem_flatMap.mp beyond
        exact Block.nodup_cut distinct hs hs' hi hi'
      · have hc : Node.statement s ∈ (Node.block b).children := by
          refine List.mem_map_of_mem ?_
          rw [← Statement.upToJump_append_afterJump t b.statements]
          exact List.mem_append_right _ hs
        rw [agrees i (mem_ownIds_of_child hc hi), mem_lostIn]
        exact .inl (List.mem_flatMap.mpr ⟨s, hs, hi⟩)
    | statement s =>
      have own := distinct
      rw [(ownIds_statement s).nodup_iff, List.nodup_cons] at own
      refine .statement ?_ (jumps s (self_mem_ownNodes _)) fun c hc => inside hc fun i hi => ?_
      · intro isLost
        rw [agrees s.id (mem_ownIds (self_mem_ownNodes _) rfl), mem_lostIn] at isLost
        rcases isLost with isLost | ⟨c, hc, isLost⟩
        · cases isLost
        · exact own.1 (List.mem_flatMap.mpr ⟨c, hc, c.lostIn_subset isLost⟩)
      · rw [agrees i (mem_ownIds_of_child hc hi), mem_lostIn, only hc hi, or_iff_right]
        intro isLost
        cases isLost
    | _ =>
      rcases isCode with ⟨b, same⟩ | ⟨s, same⟩ <;> cases same

end

end WaitDefer
