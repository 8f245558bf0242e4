import WaitDefer.Proofs.Compile.Conserved
import WaitDefer.Proofs.Rotation.Placed
import WaitDefer.Proofs.Rotation.Tails

/-!
# Jumps keep their targets

* `Statement.LeadsTo.unique`, `Statement.LeadsTo.of_plain_eq`: a jump leads to one loop, however its
  code is written;
* `Woven.redirects`: a marked jump becomes what the loop it leads to says;
* `weavable_hasJump`: other jumps are those there were before;
* `Func.keepsTargets_of_rotation`: so every jump of a function keeps its target.
-/

namespace WaitDefer

section
variable {config : Config} {t : MarkTable} {max : NodeId} {f g : Func}

/-! ## One target -/

/-- In code with distinct ids, a jump leads to one loop. -/
theorem Statement.LeadsTo.unique {n : Node} {j l l' : Statement} (distinct : n.ownIds.Nodup)
    (hl : .statement l ∈ n.ownNodes) (hl' : .statement l' ∈ n.ownNodes) (leads : j.LeadsTo l)
    (leads' : j.LeadsTo l') : l = l' := by
  obtain ⟨kind, label, isJump, catches, holds, nearest⟩ := leads
  obtain ⟨kind', label', isJump', catches', holds', nearest'⟩ := leads'
  rw [isJump] at isJump'
  cases isJump'
  by_contra differ
  rcases Node.nested_of_around distinct rfl rfl rfl hl hl' holds.mem holds'.mem with inside | inside
  · have := nearest' _ (Node.holds_of_mem inside rfl (by simpa using differ)) holds
    simp [catches] at this
  · have := nearest _ (Node.holds_of_mem inside rfl (by simpa using Ne.symm differ)) holds'
    simp [catches'] at this

theorem Node.catches_of_plain_eq {n n' : Node} (same : n'.plain config = n.plain config)
    (label : Option Ident) : n'.catches label = n.catches label := by
  have plain : ∀ k : Node, (k.plain config).catches label = k.catches label := by
    intro k
    cases k with
    | statement s =>
      obtain ⟨id, kind, span⟩ := s
      rw [Node.plain, Statement.plain_eq]
      cases kind <;> simp [catches]
    | _ => rfl
  rw [← plain n', same, plain]

/-- Where jumps lead can be told from plain code. -/
theorem Statement.LeadsTo.of_plain_eq {j l l' : Statement} (leads : j.LeadsTo l)
    (distinct : (Node.statement l).ownIds.Nodup) (same : l'.plain config = l.plain config) :
    ∃ j', .statement j' ∈ (Node.statement l').ownNodes ∧ j'.plain config = j.plain config ∧
      j'.LeadsTo l' := by
  have samePlain : (Node.statement l').plain config = (Node.statement l).plain config :=
    congrArg Node.statement same
  obtain ⟨p₁, p₂, kind, label, path, isJump, catches, free⟩ :=
    leads.path distinct (Node.self_mem_ownNodes _)
  obtain ⟨p', m', path', way, ends⟩ := path.split.2.of_plain_eq config samePlain
  cases m' with
  | statement j' =>
    obtain ⟨-, -, kinds⟩ := Node.plain_statement_inj ends
    rw [isJump, StatementKind.plain_jump] at kinds
    obtain ⟨c, p₂', rfl, -, below⟩ := List.map_eq_cons_iff.mp way
    obtain ⟨rfl, -⟩ := Node.Path.cons_cases path'
    have distinct' : (Node.statement l').ownIds.Nodup := by
      apply (Node.ownIds_plain config _).nodup_iff.mp
      rw [samePlain]
      exact (Node.ownIds_plain config _).nodup_iff.mpr distinct
    refine ⟨j', path'.end_mem_ownNodes, Node.statement.inj ends, ?_⟩
    have path' : Node.Path (.statement l') ([] ++ .statement l' :: p₂') (.statement j') := path'
    apply Statement.leadsTo_of_path distinct' path'
      (StatementKind.plain_eq_jump config kinds)
    · rwa [Node.catches_of_plain_eq samePlain]
    · intro x hx
      have mem := List.mem_map_of_mem (f := Node.plain config) hx
      rw [below] at mem
      obtain ⟨y, hy, sameNode⟩ := List.mem_map.mp mem
      rw [← Node.catches_of_plain_eq sameNode, free y hy]
  | _ => cases ends

/-! ## Redirected jumps -/

section
variable (config t max f g)

/-- The jump of `f` with some id has become what the loop says that it leads to. -/
def Func.Redirects (i : NodeId) (kind : JumpKind) : Prop :=
  ∃ j l loop span, .statement j ∈ f.body.ownNodes ∧ j.id = i ∧ .statement l ∈ f.body.ownNodes ∧
    j.LeadsTo l ∧ l.RotatedTo config max g loop ∧
    f.Continues config max g (.statement l) loop.exit ∧
    .statement ⟨i, loop.lowered kind, span⟩ ∈ g.unitNodes max

/-- The marked jumps in a node have become what their loops say, those that are lost left out. -/
def Func.RedirectsIn (n : Node) : Prop :=
  ∀ j kind label, .statement j ∈ n.ownNodes → j.kind = .jump kind label →
    t.hasAny j.id .split = true → j.id ∉ f.lost t → f.Redirects config max g j.id kind

/-- The marked jumps in a piece have become what their loops say. -/
def Weaving.Redirects : Weaving → Prop
  | .run ss _ _ => ∀ s ∈ ss, f.RedirectsIn config t max g (.statement s)
  | .pivot s _ _ => f.RedirectsIn config t max g (.statement s)
  | .arms as _ _ => ∀ a ∈ as, f.RedirectsIn config t max g (.block a.body)
  | .choice block _ _ => ∀ b ∈ block, f.RedirectsIn config t max g (.block b)

end

namespace Func.RedirectsIn

theorem of_quiet {n : Node} (quiet : n.Quiet t) : f.RedirectsIn config t max g n := by
  intro j kind label hj isJump marked
  simp [MarkTable.hasAny_of_none ((quiet _ hj).2 j.id rfl)] at marked

theorem block {b : Block}
    (statements : ∀ s ∈ b.statements, f.RedirectsIn config t max g (.statement s)) :
    f.RedirectsIn config t max g (.block b) := by
  intro j kind label hj
  rcases (Node.mem_ownNodes (i := j.id) rfl).mp hj with same | ⟨c, hc, hj⟩
  · cases same
  · obtain ⟨s, hs, rfl⟩ := List.mem_map.mp hc
    exact statements s hs j kind label hj

theorem statement {s : Statement} (notJump : s.kind.isJump = false)
    (headers : ∀ h ∈ s.kind.headers, f.RedirectsIn config t max g (.statement h))
    (blocks : ∀ b ∈ s.kind.blocks, f.RedirectsIn config t max g (.block b)) :
    f.RedirectsIn config t max g (.statement s) := by
  intro j kind label hj isJump
  rcases (Node.mem_ownNodes (i := j.id) rfl).mp hj with same | ⟨c, hc, hj⟩
  · cases same
    simp [isJump, StatementKind.isJump] at notJump
  · rcases List.mem_append.mp hc with hc | hc
    · obtain ⟨h, hh, rfl⟩ := List.mem_map.mp hc
      exact headers h hh j kind label hj isJump
    · obtain ⟨b, hb, rfl⟩ := List.mem_map.mp hc
      exact blocks b hb j kind label hj isJump

theorem of_plain {n n' : Node} (h : f.RedirectsIn config t max g n')
    (same : n'.plain config = n.plain config) : f.RedirectsIn config t max g n := by
  intro j kind label hj isJump marked kept
  have inside : .statement (j.plain config) ∈ (n'.plain config).ownNodes := by
    rw [same]
    exact (Node.mem_ownNodes_plain config (i := j.id) (by simp [Node.id?])).mpr ⟨_, hj, rfl⟩
  obtain ⟨k, hk, plain⟩ :=
    (Node.mem_ownNodes_plain config (i := j.id) (by simp [Node.id?])).mp inside
  cases k with
  | statement j' =>
    obtain ⟨sameId, -, sameKind⟩ := Node.plain_statement_inj plain
    rw [isJump, StatementKind.plain_jump] at sameKind
    rw [← sameId] at marked kept ⊢
    exact h j' kind label hk (StatementKind.plain_eq_jump config sameKind) marked kept
  | _ => cases plain

end Func.RedirectsIn

/-! ## Woven code -/

theorem Statement.subset_afterJump {s : Statement} (before ss : List Statement)
    (leaves : s.jumpsOut t = true) : ss ⊆ afterJump t (before ++ s :: ss) := by
  induction before with
  | nil => simp [afterJump, leaves]
  | cons x before ih =>
    rw [List.cons_append, afterJump]
    split
    · exact fun y hy => List.mem_append_right _ (List.mem_cons_of_mem _ hy)
    · exact ih

theorem Woven.pivot_id {config : Config} {t : MarkTable} {max : NodeId} {fresh : NodeId → Prop}
    {visible : List String} {around : Option LoopContext} {s out : Statement}
    {after : Option Expr} {entries : List Entry}
    (h : Woven config t max fresh visible around (.pivot s after out) entries) :
    out.id = s.id := by
  cases h <;> rfl

namespace Weaving.Placed

/-- What follows a marked jump is lost. -/
theorem lost {m : Marking} (distinct : (Node.block f.body).ownIds.Nodup) (simple : f.HasSimpleHeads)
    (ok : f.marking config = .ok m) {around : Option LoopContext} {s : Statement}
    {ss out : List Statement} {tail : Option Expr}
    (placed : Placed config max f g around (.run (s :: ss) tail out))
    (marked : m.table.hasAny s.id .split = true) (isJump : s.kind.isJump = true) :
    ∀ x ∈ ss, ∀ i ∈ (Node.statement x).ownIds, i ∈ f.lost m.table := by
  intro x hx i hi
  obtain ⟨b, p, before, s₀, ss₀, path, inside, holds, same, rest, -⟩ := placed.first
  obtain ⟨x₀, hx₀, sameX⟩ : ∃ x₀ ∈ ss₀, x₀.plain config = x.plain config := by
    have mem := List.mem_map_of_mem (f := Statement.plain config) hx
    rw [← rest] at mem
    exact List.mem_map.mp mem
  obtain ⟨sameId, -, sameKind⟩ := Node.plain_statement_inj (congrArg Node.statement same)
  have isJump₀ : s₀.kind.isJump = true := by
    rw [← StatementKind.isJump_plain config, sameKind, StatementKind.isJump_plain, isJump]
  have leaves := Func.jumpsOut_of_marking distinct simple ok path.end_mem_ownNodes isJump₀
    (sameId ▸ marked)
  refine List.mem_flatMap.mpr ⟨.block b, inside, List.mem_flatMap.mpr ⟨x₀, ?_, ?_⟩⟩
  · rw [Node.dropped, holds]
    exact Statement.subset_afterJump before ss₀ leaves hx₀
  · have samePlain : (Node.statement x₀).plain config = (Node.statement x).plain config :=
      congrArg Node.statement sameX
    rwa [← Node.mem_ownIds_plain config, samePlain, Node.mem_ownIds_plain]

/-- A marked jump leads to the rotated loop next to it. -/
theorem jump (distinct : (Node.block f.body).ownIds.Nodup) {loop : LoopContext} {s : Statement}
    {ss : List Statement} {tail : Option Expr} {kind : JumpKind} {label : Option Ident}
    (placed : Placed config max f g (some loop)
      (.run (s :: ss) tail [⟨s.id, loop.lowered kind, s.span⟩]))
    (isJump : s.kind = .jump kind label) (caught : ∀ l ∈ label, loop.label = some l.name) :
    f.Redirects config max g s.id kind := by
  obtain ⟨b, p, before, s₀, ss₀, path, -, -, same, -, -, near⟩ := placed.first
  obtain ⟨-, b', before', there, holds⟩ := placed
  obtain ⟨above, l, below, way, free, rotated, continues⟩ := near loop rfl
  obtain ⟨sameId, -, sameKind⟩ := Node.plain_statement_inj (congrArg Node.statement same)
  rw [isJump, StatementKind.plain_jump] at sameKind
  have isJump₀ := StatementKind.plain_eq_jump config sameKind
  rw [way, List.append_assoc, List.cons_append] at path
  have catches : (Node.statement l).catches label = true := by
    cases rotated with
    | routines isLoop => exact (Node.catches_loop isLoop label).mpr caught
  have leads : s₀.LeadsTo l := by
    refine Statement.leadsTo_of_path distinct path isJump₀ catches fun x hx => ?_
    by_contra caught
    have isLoop := Node.isLoop_of_catches (by simpa using caught)
    rcases List.mem_append.mp hx with hx | hx
    · simp [free x hx] at isLoop
    · rw [List.mem_singleton] at hx
      simp [hx, Node.isLoop, isJump₀, StatementKind.isLoop] at isLoop
  refine ⟨s₀, l, loop, s.span, path.end_mem_ownNodes, sameId, path.split.1.end_mem_ownNodes, leads,
    rotated, continues, ?_⟩
  exact Func.mem_unitNodes_of_statement there (by simp [holds])

end Weaving.Placed

/-- **A marked jump becomes what the loop it leads to says**, wherever the loop stands. -/
theorem Woven.redirects {m : Marking} (distinct : (Node.block f.body).ownIds.Nodup)
    (simple : f.HasSimpleHeads) (ok : f.marking config = .ok m) {visible : List String}
    {around : Option LoopContext} {piece : Weaving} {entries : List Entry}
    (h : Woven config m.table max (max < ·) visible around piece entries)
    (placed : piece.Placed config max f g around) :
    piece.Redirects config m.table max f g := by
  induction h with
  | done | goOn => exact fun _ hs => by cases hs
  | keep unmarked quiet closed rest ih =>
    intro s hs
    rcases List.mem_cons.mp hs with rfl | hs
    · exact .of_quiet quiet
    · exact ih placed.keep.1 s hs
  | @jump _ loop s ss tail kind label marked isJump caught =>
    have here := placed.jump distinct isJump caught
    have lost := placed.lost distinct simple ok marked (by simp [isJump, StatementKind.isJump])
    intro x hx j kind' label' hj isJump' marked' kept
    rcases List.mem_cons.mp hx with rfl | hx
    · rcases (Node.mem_ownNodes (i := j.id) rfl).mp hj with same | ⟨c, hc, -⟩
      · cases same
        rw [isJump] at isJump'
        cases isJump'
        exact here
      · simp [Node.children, isJump, StatementKind.headers, StatementKind.blocks] at hc
    · exact absurd (lost x hx _ (Node.mem_ownIds hj rfl)) kept
  | last marked pivot ih =>
    intro s hs
    rw [List.mem_singleton] at hs
    exact hs ▸ ih placed.last
  | split marked notLast hi hj hk rest pivot ihRest ihPivot =>
    obtain ⟨inRest, inPivot⟩ := placed.split notLast hj pivot.pivot_id
    intro s hs
    rcases List.mem_cons.mp hs with rfl | hs
    · exact ihPivot inPivot
    · exact ihRest inRest s hs
  | block isBlock inner ih =>
    apply Func.RedirectsIn.statement
    · simp [isBlock, StatementKind.isJump]
    · simp [isBlock, StatementKind.headers]
    · simpa [isBlock, StatementKind.blocks] using .block (ih (placed.block isBlock))
  | branch isBranch inYes inNo ihYes ihNo =>
    obtain ⟨yes, no⟩ := placed.branch isBranch
    apply Func.RedirectsIn.statement
    · simp [isBranch, StatementKind.isJump]
    · simp [isBranch, StatementKind.headers]
    · intro b hb
      simp only [isBranch, StatementKind.blocks, List.mem_cons, Option.mem_toList] at hb
      rcases hb with rfl | hb
      · exact .block (ihYes yes)
      · exact ihNo no b hb
  | switch isSwitch inArms inRest ihArms ihRest =>
    obtain ⟨cases', rest⟩ := placed.switch isSwitch
    apply Func.RedirectsIn.statement
    · simp [isSwitch, StatementKind.isJump]
    · simp [isSwitch, StatementKind.headers]
    · intro b hb
      simp only [isSwitch, StatementKind.blocks, List.mem_append, List.mem_map,
        Option.mem_toList] at hb
      rcases hb with ⟨a, ha, rfl⟩ | hb
      · exact ihArms cases' a ha
      · exact ihRest rest b hb
  | wait isWait hi lowers plain rewritten resumes inner ih =>
    apply Func.RedirectsIn.statement
    · simp [isWait, StatementKind.isJump]
    · simp [isWait, StatementKind.headers]
    · intro b hb
      simp only [isWait, StatementKind.blocks, List.mem_singleton] at hb
      subst hb
      have inBody := Func.RedirectsIn.block (ih (placed.wait isWait plain resumes))
      exact inBody.of_plain (by rw [Node.plain, Node.plain, plain])
  | loop isLoop headers new inner parted ih =>
    apply Func.RedirectsIn.statement
    · simp [isLoop, StatementKind.isJump]
    · intro h hh
      simp only [isLoop, StatementKind.headers] at hh
      exact .of_quiet (headers h hh).2
    · intro b hb
      simp only [isLoop, StatementKind.blocks, List.mem_singleton] at hb
      subst hb
      exact .block (ih (placed.loop isLoop (new _ (by simp)) parted))
  | noArms => exact fun _ ha => by cases ha
  | arm inArm rest ihArm ihRest =>
    obtain ⟨first, others⟩ := placed.arm
    intro a ha
    rcases List.mem_cons.mp ha with rfl | ha
    · exact .block (ihArm first)
    · exact ihRest others a ha
  | chosen inner ih =>
    rintro _ ⟨⟩
    exact .block (ih placed.chosen)
  | missing | absent => exact fun _ hb => by cases hb

/-! ## Jumps that stay -/

/-- A jump that is found is an unmarked one of `f`. -/
def Func.HasJump (config : Config) (t : MarkTable) (f : Func) (n : Node) : Prop :=
  ∀ x, n = .statement x → x.kind.isJump = true →
    ∃ j, .statement j ∈ f.body.ownNodes ∧ t.hasAny j.id .split = false ∧
      j.plain config = x.plain config

theorem Node.Done.hasJump {n : Node} (done : n.Done t) : f.HasJump config t n := by
  rintro x rfl isJump
  obtain ⟨target, value, isAssign⟩ := done
  simp [isAssign, StatementKind.isJump] at isJump

theorem fair_hasJump (config : Config) (t : MarkTable) (f : Func) (fresh : NodeId → Prop) :
    Fair (f.HasJump config t) fresh fun _ => True where
  block _ _ := by rintro x ⟨⟩
  statement s _ _ notJump := by
    rintro x ⟨⟩ isJump
    simp [notJump] at isJump
  expr _ _ := by rintro x ⟨⟩
  ident _ := by rintro x ⟨⟩
  func _ := by rintro x ⟨⟩
  routine _ _ _ _ _ _ _ := trivial
  counter _ _ _ _ _ := trivial

/-- Old code of `f`, but for callbacks and declarations. -/
structure Func.HasOld (config : Config) (t : MarkTable) (max : NodeId) (f : Func)
    (s : Statement) : Prop where
  old : (Node.statement s).Old t max
  inside : .statement (s.plain config) ∈ ((Node.block f.body).plain config).ownNodes

theorem Func.HasOld.child {s x : Statement} (h : f.HasOld config t max s)
    (old : (Node.statement x).Old t max)
    (hx : .statement (x.plain config) ∈ ((Node.statement s).plain config).ownNodes) :
    f.HasOld config t max x :=
  ⟨old, Node.ownNodes_trans h.inside hx⟩

theorem weavable_hasJump (config : Config) : Weavable config t max (f.HasJump config t)
    (fun _ => True) (f.HasOld config t max) where
  kept s has quiet := by
    refine ⟨fun n hn => ?_, trivial⟩
    rcases s.own_or_done has.old.bare (fun k hk => (quiet k hk).1) n hn with ⟨own, -⟩ | done
    · rintro x rfl isJump
      have plain : .statement (x.plain config) ∈ ((Node.statement s).plain config).ownNodes :=
        (Node.mem_ownNodes_plain config (i := x.id) (by simp [Node.id?])).mpr ⟨_, own, rfl⟩
      obtain ⟨k, hk, same⟩ := (Node.mem_ownNodes_plain config (i := x.id) (by simp [Node.id?])).mp
        (Node.ownNodes_trans has.inside plain)
      cases k with
      | statement j =>
        obtain ⟨sameId, -⟩ := Node.plain_statement_inj same
        have unmarked := (quiet _ own).2 x.id rfl
        rw [← sameId] at unmarked
        exact ⟨j, hk, MarkTable.hasAny_of_none unmarked _, Node.statement.inj same⟩
      | _ => cases same
    · exact done.hasJump
  tests s has notWait e he n hn :=
    ((has.old.bare.parts notWait).1 e (List.mem_append_left _ he) n hn).hasJump
  headers s has notWait h hh := by
    refine has.child ((weavable_old config).headers s has.old notWait h hh) ?_
    apply (Node.mem_ownNodes_plain config (i := h.id) (by simp [Node.id?])).mpr
    exact ⟨_, Node.child_mem_ownNodes (List.mem_append_left _ (List.mem_map_of_mem hh)), rfl⟩
  blocks s has notWait b hb x hx := by
    refine has.child ((weavable_old config).blocks s has.old notWait b hb x hx) ?_
    apply (Node.mem_ownNodes_plain config (i := x.id) (by simp [Node.id?])).mpr
    have inBlock : Node.block b ∈ (Node.statement s).ownNodes :=
      Node.child_mem_ownNodes (List.mem_append_right _ (List.mem_map_of_mem hb))
    exact ⟨_, Node.ownNodes_trans inBlock (Node.child_mem_ownNodes (List.mem_map_of_mem hx)), rfl⟩
  wait s body body' counter has isWait lowers rewritten x hx := by
    refine has.child ((weavable_old config).wait s body body' counter has.old isWait lowers
      rewritten x hx) ?_
    have inBlock : Node.block body ∈ (Node.statement s).ownNodes := by
      apply Node.child_mem_ownNodes
      exact List.mem_append_right _ (by simp [isWait, StatementKind.blocks])
    have inside : .statement (x.plain config) ∈ ((Node.block body).plain config).ownNodes := by
      rw [Node.plain, ← lowers.plain]
      apply (Node.mem_ownNodes_plain config (n := .block body') (i := x.id)
        (by simp [Node.id?])).mpr
      exact ⟨_, Node.child_mem_ownNodes (List.mem_map_of_mem hx), rfl⟩
    obtain ⟨k, hk, same⟩ := (Node.mem_ownNodes_plain config (i := x.id) (by simp [Node.id?])).mp
      inside
    apply (Node.mem_ownNodes_plain config (i := x.id) (by simp [Node.id?])).mpr
    exact ⟨k, Node.ownNodes_trans inBlock hk, same⟩

/-! ## Whole functions -/

/-- Two of some elements that are counted as one are the same. -/
theorem List.eq_of_count_filterMap {α β : Type} [BEq β] [LawfulBEq β] {k : α → Option β}
    {l : List α} {i : β} (once : (l.filterMap k).count i = 1) {a b : α} (ha : a ∈ l) (hb : b ∈ l)
    (ka : k a = some i) (kb : k b = some i) : a = b := by
  by_contra differ
  obtain ⟨pair, same, sub⟩ : [a, b].Subperm l := by
    apply List.subperm_of_subset (by simpa using differ)
    simp [ha, hb]
  have counts := (sub.filterMap k).count_le i
  rw [(same.filterMap k).count_eq] at counts
  simp [ka, kb, once] at counts

/-- Each jump of `f` leads in `g` where it led in `f`. -/
structure Func.KeepsTargets (config : Config) (t : MarkTable) (max : NodeId) (f g : Func) :
    Prop where
  /-- A marked jump has become the call that goes on with its loop, or what follows the loop. -/
  redirected : ∀ j l kind label, .statement j ∈ f.reached t → j.kind = .jump kind label →
    t.has j.id .propagate = true → .statement l ∈ f.body.ownNodes → j.LeadsTo l →
      ∃ loop x, l.RotatedTo config max g loop ∧
        f.Continues config max g (.statement l) loop.exit ∧ .statement x ∈ g.unitNodes max ∧
        x.id = j.id ∧ x.kind = loop.lowered kind ∧
        ∀ y, .statement y ∈ g.unitNodes max → y.id = j.id → y = x
  /-- A jump that is left is in the loop that it led to. -/
  stays : ∀ x, .statement x ∈ g.unitNodes max → x.kind.isJump = true →
    ∃ j l l', .statement j ∈ f.body.ownNodes ∧ .statement l ∈ f.body.ownNodes ∧ j.LeadsTo l ∧
      x.id = j.id ∧ x.kind = j.kind ∧ .statement l' ∈ g.unitNodes max ∧ l'.id = l.id ∧
      l'.plain config = l.plain config ∧ x.LeadsTo l'

namespace Func

variable {m : Marking}

/-- The statements of a function that is rotated are placed. -/
theorem placed_body {b : Block} {ds out : List Statement}
    (hb : b = f.body ∨ b = f.body.undeclared) :
    Weaving.Placed config max f { f with body := { f.body with statements := ds ++ out } } none
      (.run b.statements none out) := by
  refine ⟨⟨f.body, [], [], .here _, ?_, .body, by simp [Near]⟩,
    { f.body with statements := ds ++ out }, ds, ?_, rfl⟩
  · rcases hb with rfl | rfl
    · rfl
    · have same := congrArg Block.statements (Block.plain_undeclared config f.body)
      simpa using same.symm
  · rw [unitNodes, Block.nodes_eq]
    exact List.mem_cons_self

/-- All jumps in a rotated function are unmarked ones of the function it was, and the marked ones
have become what their loops say. -/
theorem jumps_rotated (fit : f.Fit max) (ok : f.marking config = .ok m) {step : Rotation Func}
    (rotates : f.IsRotation ⟨config, m.table⟩ step) {s : Supply}
    (reserved : s.names.reserved = config.reservedPrefix) (promises : s.ids.Promises (max < ·))
    (last : (step s).2.ids.exhausted = true → max < NodeId.last) :
    ∃ g s', step s = (.ok g, s') ∧ f.RedirectsIn config m.table max g (.block f.body) ∧
      ∀ n ∈ g.unitNodes max, f.HasJump config m.table n := by
  have unused := fit.unused ok
  generalize run : step s = r at last
  obtain ⟨r, s'⟩ := r
  obtain ⟨b, ds, out, entries, hb, rfl, declares, woven, -⟩ :=
    isRotation_spec fit.distinct fit.simple ok unused rotates reserved promises run last
  have same : (Node.block b).plain config = (Node.block f.body).plain config := by
    rcases hb with rfl | rfl
    · rfl
    · rw [Node.plain, Node.plain, Block.plain_undeclared]
  refine ⟨_, s', rfl, ?_, ?_⟩
  · exact (RedirectsIn.block (woven.redirects fit.distinct fit.simple ok
      (placed_body hb))).of_plain same
  · have fair := fair_hasJump config m.table f (max < ·)
    have has : ∀ x ∈ b.statements, f.HasOld config m.table max x := by
      intro x hx
      refine ⟨(fit.old_body ok hb).statement hx, ?_⟩
      rw [← same]
      apply (Node.mem_ownNodes_plain config (i := x.id) (by simp [Node.id?])).mpr
      exact ⟨_, Node.child_mem_ownNodes (List.mem_map_of_mem hx), rfl⟩
    have rotated := woven.throughout unused fair (weavable_hasJump config) (by simp) has (by simp)
    apply Settled.block fair
    apply Settled.append _ rotated
    intro d hd
    obtain ⟨i, name, hi, rfl⟩ := declares d hd
    refine ⟨?_, trivial⟩
    exact Statement.throughout_of_parts fair (fair.statement _ rfl rfl rfl)
      (List.forall_mem_nil _) (List.forall_mem_nil _) (List.forall_mem_nil _)
      (List.forall_mem_nil _)

/-- A loop that an unmarked jump leads to is not marked either. -/
theorem unmarked_target (distinct : (Node.block f.body).ownIds.Nodup) (simple : f.HasSimpleHeads)
    (ok : f.marking config = .ok m) {j l : Statement} (hj : .statement j ∈ f.body.ownNodes)
    (unmarked : m.table.hasAny j.id .split = false) (hl : .statement l ∈ f.body.ownNodes)
    (leads : j.LeadsTo l) : m.table.hasAny l.id .split = false := by
  rw [← Bool.not_eq_true]
  intro marked
  have way := leads
  obtain ⟨kind, label, isJump, catches, holds, -⟩ := way
  have loops := has_loop_of_marked distinct simple ok hl marked (Node.isLoop_of_catches catches)
  have propagates := (has_propagate_iff distinct simple ok hj rfl).mpr
    ⟨l, j, hl, loops, leads, holds, Node.self_mem_ownNodes _⟩
  simp [(MarkTable.hasAny_split_iff _ _).mpr (.inr propagates)] at unmarked

/-- What holds code that is not lost is not lost. -/
theorem not_lost_of_holds (distinct : (Node.block f.body).ownIds.Nodup) {t : MarkTable}
    {j l : Statement} (hl : .statement l ∈ f.body.ownNodes)
    (inside : .statement j ∈ (Node.statement l).ownNodes) (kept : j.id ∉ f.lost t) :
    l.id ∉ f.lost t := by
  intro lost
  obtain ⟨d, hd, around⟩ := exists_dropped distinct hl rfl lost
  exact kept (mem_lost_of_dropped hd (Node.ownNodes_trans around inside) rfl)

/-- **Every jump keeps its target.** In a rotated function, a marked jump has become, in its place,
what goes on with the loop it leads to; any other jump is still in the loop it leads to. -/
theorem keepsTargets_of_rotation (distinct : f.ids.Nodup) (simple : f.HasSimpleHeads)
    (bound : ∀ i ∈ f.ids, i ≤ max) (ok : f.marking config = .ok m) {step : Rotation Func}
    (rotates : f.IsRotation ⟨config, m.table⟩ step) {s : Supply}
    (reserved : s.names.reserved = config.reservedPrefix) (promises : s.ids.Promises (max < ·))
    (last : (step s).2.ids.exhausted = true → max < NodeId.last) :
    ∃ g s', step s = (.ok g, s') ∧ f.KeepsTargets config m.table max g := by
  have fit := fit distinct simple bound
  obtain ⟨g, s', run, redirects, jumps⟩ := jumps_rotated fit ok rotates reserved promises last
  obtain ⟨_, _, run', conserved⟩ :=
    conserved_of_rotation distinct simple bound ok rotates reserved promises last
  rw [run] at run'
  cases run'
  -- a statement that is reached is there once
  have once {j : Statement} (hj : .statement j ∈ f.reached m.table) {x y : Statement}
      (hx : .statement x ∈ g.unitNodes max) (hy : .statement y ∈ g.unitNodes max)
      (xj : x.id = j.id) (yj : y.id = j.id) : x = y := by
    obtain ⟨own, kept⟩ := List.mem_filter.mp hj
    have known : j.id ∈ f.statementIds := by
      rw [statementIds_eq]
      exact List.mem_filterMap.mpr ⟨_, (f.body.ownNodes_subperm _).subset own, rfl⟩
    have count := conserved.once j.id known (by simpa [Node.statementId?] using kept)
    have same := List.eq_of_count_filterMap count (g.unitNodes_subset max hx)
      (g.unitNodes_subset max hy) (congrArg some xj) (congrArg some yj)
    exact Node.statement.inj same
  refine ⟨g, s', run, ?_, ?_⟩
  · intro j l kind label hj isJump marked hl leads
    obtain ⟨own, kept⟩ := (mem_reached distinct).mp hj
    obtain ⟨j', l', loop, span, hj', sameId, hl', leads', rotated, continues, there⟩ :=
      redirects j kind label own isJump ((MarkTable.hasAny_split_iff _ _).mpr (.inr marked)) kept
    have same := Node.eq_of_id (n := .block f.body) fit.distinct hj' own (congrArg some sameId) rfl
    cases same
    obtain rfl := leads.unique (n := .block f.body) fit.distinct hl hl' leads'
    exact ⟨loop, _, rotated, continues, there, rfl, rfl, fun y hy yj => once hj hy there yj rfl⟩
  · intro x hx isJump
    obtain ⟨j, hj, unmarked, same⟩ := jumps _ hx x rfl isJump
    obtain ⟨sameId, -, sameKind⟩ := Node.plain_statement_inj (congrArg Node.statement same)
    obtain ⟨kind, label, isJump⟩ : ∃ kind label, x.kind = .jump kind label := by
      cases hk : x.kind <;> simp_all [StatementKind.isJump]
    rw [isJump, StatementKind.plain_jump] at sameKind
    have isJump' := StatementKind.plain_eq_jump config sameKind
    obtain ⟨l, hl, leads⟩ := exists_leadsTo fit.distinct simple ok hj isJump'
    have way := leads
    obtain ⟨-, -, -, -, holds, -⟩ := way
    have reached : .statement j ∈ f.reached m.table := by
      apply List.mem_filter.mpr ⟨hj, _⟩
      have present : j.id ∈ g.statementIds :=
        List.mem_filterMap.mpr ⟨_, g.unitNodes_subset max hx, congrArg some sameId.symm⟩
      simpa [Node.statementId?] using fun dropped => conserved.never _ dropped present
    have kept := not_lost_of_holds fit.distinct hl holds.mem ((mem_reached distinct).mp reached).2
    obtain ⟨l', hl', idLoop, sameLoop⟩ := conserved.content l
      ((mem_reached distinct).mpr ⟨hl, kept⟩) (unmarked_target fit.distinct simple ok hj unmarked hl leads)
    have distinctLoop : (Node.statement l).ownIds.Nodup := by
      obtain ⟨p, path⟩ := Node.path_of_mem (n := .block f.body) (i := l.id) rfl hl
      exact path.nodup_ownIds fit.distinct
    obtain ⟨x', hx', sameJump, leads'⟩ := leads.of_plain_eq distinctLoop sameLoop
    have there : .statement x' ∈ g.unitNodes max := by
      have within : Whole (fun h : Func => decide (max < h.id)) (g.unitNodes max) :=
        Block.whole (whole_cases _) g.body
      exact (within _ hl').subset ((l'.ownNodes_subperm _).subset hx')
    have sameId' := (Node.plain_statement_inj (congrArg Node.statement sameJump)).1
    obtain rfl := once reached there hx sameId' sameId.symm
    exact ⟨j, l, l', hj, hl, leads, sameId.symm, isJump.trans isJump'.symm, hl', idLoop, sameLoop,
      leads'⟩

/-- The body is `while (c) { wait { a(defer()); } while (c) { break; } if (c) { break; } }`: the
inner loop and its `break` stay, the outer loop is rotated and the other `break` becomes a call. -/
def leavingTwice : Func :=
  let name (n : String) : Ident := ⟨n, default⟩
  let call : Expr := .call (.ident (name "a")) [.defer [] default] default
  let leave (i j : NodeId) : Block := ⟨i, [⟨j, .jump .leave none, default⟩], default⟩
  let waits : Statement := ⟨4, .wait ⟨5, [⟨6, .expr call, default⟩], default⟩, default⟩
  let inner : Statement := ⟨7, .loop none (.whileDo (.ident (name "c"))) (leave 8 9), default⟩
  let branch : Statement := ⟨10, .branch (.ident (name "c")) (leave 11 12) none, default⟩
  let outer : Statement :=
    ⟨2, .loop none (.whileDo (.ident (name "c"))) ⟨3, [waits, inner, branch], default⟩, default⟩
  ⟨0, some (name "f"), [name "c"], ⟨1, [outer], default⟩, default⟩

theorem keepsTargets_of_rotation_leavingTwice : ∃ m, leavingTwice.marking {} = .ok m ∧
    ∃ g s', leavingTwice.lower ⟨{}, m.table⟩ ⟨.above 12, .new "__"⟩ = (.ok g, s') ∧
      leavingTwice.KeepsTargets {} m.table 12 g := by
  obtain ⟨m, ok⟩ : ∃ m, leavingTwice.marking {} = .ok m :=
    marking_eq_ok (by decide +kernel) (by decide +kernel)
  exact ⟨m, ok, keepsTargets_of_rotation (by decide) (by decide) (by decide) ok (.inr rfl) rfl
    (IdSupply.promises_above 12) fun _ => by decide⟩

end Func

end

end WaitDefer
