import WaitDefer.Proofs.Rotation.Counting
import WaitDefer.Proofs.Rotation.Targets

/-!
# Callbacks go to the counter of their wait-block

* `Func.Lands`: where the code of a statement has ended up;
* `Func.LowersWait`: what has become of a wait-block and of the code that belongs to it;
* `Woven.attributes`: each wait-block that is not lost has become so, each with a counter of its
  own;
* `Func.attributes_of_rotation`: so the callbacks that the survey counts for a wait-block are those
  that rotation lowers for it, and they are calls on its counter wherever they end up.
-/

namespace WaitDefer

section
variable {config : Config} {t : MarkTable} {max : NodeId} {f g : Func}

/-! ## Code that has been moved -/

/-- An expression is in what the statement with id `i` has become: in the statement itself, or in
one that was made up inside it. -/
def Func.Lands (max : NodeId) (g : Func) (i : NodeId) (e : Expr) : Prop :=
  ∃ z y, .statement z ∈ g.unitNodes max ∧ z.id = i ∧
    .statement y ∈ z.nodes (fun h => max < h.id) ∧ (y = z ∨ max < y.id) ∧
    e ∈ y.kind.tests ++ y.kind.operands

/-- A wait-block has become a block that makes a counter first. -/
def Func.HasCounter (config : Config) (max : NodeId) (g : Func) (w : Statement) (counter : String) :
    Prop :=
  ∃ i j out span, .statement ⟨w.id, .block ⟨j,
    ⟨i, .declare ⟨counter, w.span⟩ (some (.callNamed config.runtime.newCounter w.span)),
      w.span⟩ :: out, span⟩, w.span⟩ ∈ g.unitNodes max

section
variable (config t max f g)

/-- A wait-block has a counter, and the code that belongs to it, with its callbacks lowered to that
counter, is in what the statements of `f` have become, those that are lost left out. -/
structure Func.LowersWait (w : Statement) (body : Block) (c : Callbacks) (ids : IdSupply) :
    Prop where
  method : c.method = config.runtime.defer
  reserved : c.names.reserved = config.reservedPrefix
  there : g.HasCounter config max w c.counter
  lands : ∀ x ∈ (Node.block (body.rewrite c.rewriting ids).1).direct, x.id ∉ f.lost t →
    ∀ e ∈ x.kind.tests ++ x.kind.operands, g.Lands max x.id e

/-- The code that belongs to a node has been moved, and the wait-blocks in it have become blocks
with counters, each that of its id. -/
structure Func.Settles (counters : List (NodeId × String)) (n : Node) : Prop where
  lands : ∀ x ∈ n.direct, x.id ∉ f.lost t → ∀ e ∈ x.kind.tests ++ x.kind.operands,
    g.Lands max x.id e
  waits : ∀ w body, .statement w ∈ n.ownNodes → w.kind = .wait body → w.id ∉ f.lost t →
    ∃ c ids, (w.id, c.counter) ∈ counters ∧ f.LowersWait config t max g w body c ids

/-- The code in a piece has been moved. -/
def Weaving.Settles (counters : List (NodeId × String)) : Weaving → Prop
  | .run ss _ _ => ∀ s ∈ ss, f.Settles config t max g counters (.statement s)
  | .pivot s _ _ => f.Settles config t max g counters (.statement s)
  | .arms as _ _ => ∀ a ∈ as, f.Settles config t max g counters (.block a.body)
  | .choice block _ _ => ∀ b ∈ block, f.Settles config t max g counters (.block b)

end

theorem Func.lands_here {z : Statement} {e : Expr} (hz : .statement z ∈ g.unitNodes max)
    (he : e ∈ z.kind.tests ++ z.kind.operands) : g.Lands max z.id e :=
  ⟨z, z, hz, rfl, Statement.mem_nodes_iff.mpr (.inl rfl), .inl rfl, he⟩

namespace Func.Settles

variable {counters counters' : List (NodeId × String)}

theorem mono {n : Node} (h : f.Settles config t max g counters n) (sub : counters ⊆ counters') :
    f.Settles config t max g counters' n := by
  refine ⟨h.lands, fun w body hw isWait kept => ?_⟩
  obtain ⟨c, ids, mem, lowers⟩ := h.waits w body hw isWait kept
  exact ⟨c, ids, sub mem, lowers⟩

/-- Code without marks stays as it is. -/
theorem of_quiet {s : Statement} (quiet : (Node.statement s).Quiet t)
    (there : .statement s ∈ g.unitNodes max) :
    f.Settles config t max g counters (.statement s) := by
  have inside : (Node.statement s).ownNodes ⊆ g.unitNodes max := by
    intro n hn
    have within : Whole (fun h : Func => decide (max < h.id)) (g.unitNodes max) :=
      Block.whole (whole_cases _) g.body
    exact (within _ there).subset ((s.ownNodes_subperm _).subset hn)
  constructor
  · intro x hx _ e he
    exact lands_here (inside (Node.direct_subset _ hx)) he
  · intro w body hw isWait
    have notWait := (quiet _ hw).1
    simp [Node.isWait, isWait, StatementKind.isWait] at notWait

/-- What is lost need not be anywhere. -/
theorem of_lost {s : Statement} (lost : ∀ i ∈ (Node.statement s).ownIds, i ∈ f.lost t) :
    f.Settles config t max g counters (.statement s) :=
  ⟨fun _ hx kept => absurd (lost _ (Node.mem_ownIds (Node.direct_subset _ hx) rfl)) kept,
    fun _ _ hw _ kept => absurd (lost _ (Node.mem_ownIds hw rfl)) kept⟩

theorem block {b : Block}
    (statements : ∀ s ∈ b.statements, f.Settles config t max g counters (.statement s)) :
    f.Settles config t max g counters (.block b) := by
  constructor
  · intro x hx
    rw [Node.direct_block] at hx
    obtain ⟨s, hs, hx⟩ := List.mem_flatMap.mp hx
    exact (statements s hs).lands x hx
  · intro w body hw
    rcases (Node.mem_ownNodes (i := w.id) rfl).mp hw with same | ⟨c, hc, hw⟩
    · cases same
    · obtain ⟨s, hs, rfl⟩ := List.mem_map.mp hc
      exact (statements s hs).waits w body hw

theorem statement {s : Statement} (notWait : s.kind.isWait = false)
    (here : s.id ∉ f.lost t → ∀ e ∈ s.kind.tests ++ s.kind.operands, g.Lands max s.id e)
    (headers : ∀ h ∈ s.kind.headers, f.Settles config t max g counters (.statement h))
    (blocks : ∀ b ∈ s.kind.blocks, f.Settles config t max g counters (.block b)) :
    f.Settles config t max g counters (.statement s) := by
  have children : ∀ c ∈ (Node.statement s).children, f.Settles config t max g counters c := by
    intro c hc
    rcases List.mem_append.mp hc with hc | hc
    · obtain ⟨h, hh, rfl⟩ := List.mem_map.mp hc
      exact headers h hh
    · obtain ⟨b, hb, rfl⟩ := List.mem_map.mp hc
      exact blocks b hb
  constructor
  · intro x hx
    rcases Node.mem_direct_statement.mp hx with rfl | ⟨-, c, hc, hx⟩
    · exact here
    · exact (children c hc).lands x hx
  · intro w body hw isWait
    rcases (Node.mem_ownNodes (i := w.id) rfl).mp hw with same | ⟨c, hc, hw⟩
    · cases same
      simp [isWait, StatementKind.isWait] at notWait
    · exact (children c hc).waits w body hw isWait

/-- A wait-block whose body was settled with its callbacks lowered. -/
theorem wait {s : Statement} {body body' : Block} {counter : String} (isWait : s.kind = .wait body)
    (rewritten : body.RewrittenTo config counter body')
    (there : g.HasCounter config max s counter)
    (inside : f.Settles config t max g counters (.block body')) :
    f.Settles config t max g ((s.id, counter) :: counters) (.statement s) := by
  obtain ⟨names, ids, reserved, rfl⟩ := rewritten
  constructor
  · intro x hx _ e he
    rw [Node.direct_wait s (by rw [isWait]; rfl), List.mem_singleton] at hx
    subst hx
    simp [isWait, StatementKind.tests, StatementKind.operands] at he
  · intro w body' hw isWait' kept
    rcases (Node.mem_ownNodes (i := w.id) rfl).mp hw with same | ⟨c, hc, hw⟩
    · cases same
      rw [isWait] at isWait'
      cases isWait'
      exact ⟨⟨counter, config.runtime.defer, names⟩, ids, List.mem_cons_self,
        rfl, reserved, there, inside.lands⟩
    · obtain rfl : c = .block body := by
        simpa [Node.children, isWait, StatementKind.headers, StatementKind.blocks] using hc
      -- wait-blocks inside are not touched when the callbacks around them are lowered
      have handsOn := Block.handsOn_rewrite (c := ⟨counter, config.runtime.defer, names⟩) reserved
        rfl body ids
      have still := handsOn.waits w (by rw [isWait']; rfl) hw
      obtain ⟨c, ids, mem, lowers⟩ := inside.waits w body' still isWait' kept
      exact ⟨c, ids, List.mem_cons_of_mem _ mem, lowers⟩

end Func.Settles

/-! ## Woven code -/

/-- The statements of a new routine are walked. -/
theorem Statement.mem_nodes_routineWith {i j k : NodeId} {name : String} {body : List Statement}
    {span : Span} (new : max < j) {y : Statement} (hy : y ∈ body) :
    .statement y ∈ (routineWith i j k name body span).nodes fun h => max < h.id := by
  apply mem_nodes_of_function (f := ⟨j, some ⟨name, span⟩, [], ⟨k, body, span⟩, span⟩)
    List.mem_cons_self
  rw [Func.nodes, if_pos (by simpa using new)]
  apply List.mem_cons_of_mem
  apply List.mem_append_right
  exact Block.mem_nodes_of_statement hy (mem_nodes_iff.mpr (.inl rfl))

/-- The parts of a loop hold its test and the statements of its head. -/
theorem LoopHead.Parted.holds {fresh : NodeId → Prop} {head : LoopHead} {body : Block}
    {restart : Expr} {exit : Statement} {span : Span} {parts : Wiring.LoopParts}
    (h : head.Parted fresh body restart exit span parts) :
    (∀ e ∈ head.test?, ∃ y ∈ parts.restart ++ parts.next, fresh y.id ∧ e ∈ y.kind.tests) ∧
      ∀ s ∈ head.statements, s ∈ parts.before ++ parts.next := by
  cases h with
  | whileDo hi =>
    refine ⟨?_, by simp [statements]⟩
    rintro _ ⟨⟩
    exact ⟨_, List.mem_cons_self, hi, List.mem_cons_self⟩
  | doWhile hi =>
    refine ⟨?_, by simp [statements]⟩
    rintro _ ⟨⟩
    exact ⟨_, List.mem_append_right _ List.mem_cons_self, hi, List.mem_cons_self⟩
  | counting hi =>
    refine ⟨?_, by simp [statements]; grind⟩
    rintro _ ⟨⟩
    exact ⟨_, List.mem_cons_self, hi, List.mem_cons_self⟩
  | endless => exact ⟨by simp [test?], by simp [statements]; grind⟩

theorem Woven.arms_tests {fresh : NodeId → Prop} {visible : List String}
    {around : Option LoopContext} {as as' : List Arm} {after : Option Expr} {entries : List Entry}
    (h : Woven config t max fresh visible around (.arms as after as') entries) :
    as'.map Arm.test = as.map Arm.test := by
  induction as generalizing as' entries with
  | nil =>
    cases h
    rfl
  | cons a as ih =>
    cases h with
    | arm _ rest => rw [List.map_cons, List.map_cons, ih rest]

/-- **The wait-blocks of rotated code have become blocks with counters**, each with one of its own,
and the code that belongs to them has been moved with its callbacks lowered. -/
theorem Woven.attributes {m : Marking} (distinct : (Node.block f.body).ownIds.Nodup)
    (simple : f.HasSimpleHeads) (ok : f.marking config = .ok m) {visible : List String}
    {around : Option LoopContext} {piece : Weaving} {entries : List Entry}
    (h : Woven config m.table max (max < ·) visible around piece entries)
    (placed : piece.Placed config max f g around) :
    ∃ counters : List (NodeId × String),
      (counters.map Prod.snd).Subperm (entries.map Entry.name) ∧
        piece.Settles config m.table max f g counters := by
  induction h with
  | done | goOn => exact ⟨[], List.nil_subperm, fun _ hs => by cases hs⟩
  | keep unmarked quiet closed rest ih =>
    obtain ⟨inRest, there⟩ := placed.keep
    obtain ⟨counters, sub, settles⟩ := ih inRest
    exact ⟨counters, sub, List.forall_mem_cons.mpr ⟨.of_quiet quiet there, settles⟩⟩
  | @jump _ loop s ss tail kind label marked isJump caught =>
    have lost := placed.lost distinct simple ok marked (by simp [isJump, StatementKind.isJump])
    refine ⟨[], List.nil_subperm, List.forall_mem_cons.mpr ⟨?_, fun x hx => .of_lost (lost x hx)⟩⟩
    apply Func.Settles.statement
    · simp [isJump, StatementKind.isWait]
    · simp [isJump, StatementKind.tests, StatementKind.operands]
    · simp [isJump, StatementKind.headers]
    · simp [isJump, StatementKind.blocks]
  | last marked pivot ih =>
    obtain ⟨counters, sub, settles⟩ := ih placed.last
    exact ⟨counters, sub, List.forall_mem_singleton.mpr settles⟩
  | @split _ _ s wired ss out tail name i j k entries more marked notLast hi hj hk rest pivot ihRest
      ihPivot =>
    obtain ⟨inRest, inPivot⟩ := placed.split notLast hj pivot.pivot_id
    obtain ⟨counters, sub, settles⟩ := ihRest inRest
    obtain ⟨counters', sub', settles'⟩ := ihPivot inPivot
    refine ⟨counters ++ counters', ?_, List.forall_mem_cons.mpr ⟨?_, fun x hx => ?_⟩⟩
    · rw [List.map_append, List.map_cons, List.map_append]
      exact (sub.append sub').cons_right _
    · exact settles'.mono (List.subset_append_right _ _)
    · exact (settles x hx).mono (List.subset_append_left _ _)
  | block isBlock inner ih =>
    obtain ⟨counters, sub, settles⟩ := ih (placed.block isBlock)
    refine ⟨counters, sub, ?_⟩
    apply Func.Settles.statement
    · simp [isBlock, StatementKind.isWait]
    · simp [isBlock, StatementKind.tests, StatementKind.operands]
    · simp [isBlock, StatementKind.headers]
    · simpa [isBlock, StatementKind.blocks] using .block settles
  | @branch _ _ s condition yes no no' out after entries more isBranch inYes inNo ihYes ihNo =>
    obtain ⟨yes', no'⟩ := placed.branch isBranch
    obtain ⟨counters, sub, settles⟩ := ihYes yes'
    obtain ⟨counters', sub', settles'⟩ := ihNo no'
    refine ⟨counters ++ counters', ?_, ?_⟩
    · rw [List.map_append, List.map_append]
      exact sub.append sub'
    · apply Func.Settles.statement
      · simp [isBranch, StatementKind.isWait]
      · intro _ e he
        apply Func.lands_here placed.2
        simpa [isBranch, StatementKind.tests, StatementKind.operands] using he
      · simp [isBranch, StatementKind.headers]
      · intro b hb
        simp only [isBranch, StatementKind.blocks, List.mem_cons, Option.mem_toList] at hb
        rcases hb with rfl | hb
        · exact .block fun x hx => (settles x hx).mono (List.subset_append_left _ _)
        · exact (settles' b hb).mono (List.subset_append_right _ _)
  | @switch _ _ s subject arms arms' otherwise otherwise' after entries more isSwitch inArms inRest
      ihArms ihRest =>
    obtain ⟨cases', rest⟩ := placed.switch isSwitch
    obtain ⟨counters, sub, settles⟩ := ihArms cases'
    obtain ⟨counters', sub', settles'⟩ := ihRest rest
    refine ⟨counters ++ counters', ?_, ?_⟩
    · rw [List.map_append, List.map_append]
      exact sub.append sub'
    · apply Func.Settles.statement
      · simp [isSwitch, StatementKind.isWait]
      · intro _ e he
        apply Func.lands_here placed.2
        simpa [isSwitch, StatementKind.tests, StatementKind.operands, inArms.arms_tests] using he
      · simp [isSwitch, StatementKind.headers]
      · intro b hb
        simp only [isSwitch, StatementKind.blocks, List.mem_append, List.mem_map,
          Option.mem_toList] at hb
        rcases hb with ⟨a, ha, rfl⟩ | hb
        · exact (settles a ha).mono (List.subset_append_left _ _)
        · exact (settles' b hb).mono (List.subset_append_right _ _)
  | @wait _ _ s _ _ _ _ counter _ _ _ isWait hi lowers plain rewritten resumes inner ih =>
    obtain ⟨counters, sub, settles⟩ := ih (placed.wait isWait plain resumes)
    refine ⟨(s.id, counter) :: counters, (List.subperm_cons _).mpr sub, ?_⟩
    exact .wait isWait rewritten ⟨_, _, _, _, placed.2⟩ (.block settles)
  | @loop _ _ s label head body out after names parts i₁ j₁ k₁ i₂ j₂ k₂ x y z entries isLoop headers
      new inner parted ih =>
    obtain ⟨counters, sub, settles⟩ := ih (placed.loop isLoop (new _ (by simp)) parted)
    refine ⟨counters, (sub.cons_right _).cons_right _, ?_⟩
    obtain ⟨test, heads⟩ := parted.holds
    have there := placed.2
    have inside := Func.mem_unitNodes_of_block there List.mem_cons_self
    have next := Func.mem_unitNodes_of_statement inside (s := .routineWith i₂ j₂ k₂
      names.next parts.next s.span) (by simp)
    apply Func.Settles.statement
    · simp [isLoop, StatementKind.isWait]
    · intro _ e he
      simp only [isLoop, StatementKind.tests, StatementKind.operands, List.append_nil,
        Option.mem_toList] at he
      obtain ⟨y', hy, new', he⟩ := test e he
      refine ⟨_, y', there, rfl, ?_, .inr new', List.mem_append_left _ he⟩
      apply Statement.mem_nodes_of_block List.mem_cons_self
      rcases List.mem_append.mp hy with inRound | inNext
      · exact Block.mem_nodes_of_statement (s := .routineWith i₁ j₁ k₁ names.restart parts.restart
          s.span) (by simp) (Statement.mem_nodes_routineWith (new _ (by simp)) inRound)
      · exact Block.mem_nodes_of_statement (s := .routineWith i₂ j₂ k₂ names.next parts.next
          s.span) (by simp) (Statement.mem_nodes_routineWith (new _ (by simp)) inNext)
    · intro h hh
      simp only [isLoop, StatementKind.headers] at hh
      apply Func.Settles.of_quiet (headers h hh).2
      rcases List.mem_append.mp (heads h hh) with first | later
      · exact Func.mem_unitNodes_of_statement inside (List.mem_append_left _ first)
      · have body := Func.mem_unitNodes_of_routine next (new _ (by simp))
        exact Func.mem_unitNodes_of_statement body later
    · intro b hb
      simp only [isLoop, StatementKind.blocks, List.mem_singleton] at hb
      subst hb
      exact .block settles
  | noArms => exact ⟨[], List.nil_subperm, fun _ ha => by cases ha⟩
  | arm inArm rest ihArm ihRest =>
    obtain ⟨first, others⟩ := placed.arm
    obtain ⟨counters, sub, settles⟩ := ihArm first
    obtain ⟨counters', sub', settles'⟩ := ihRest others
    refine ⟨counters ++ counters', ?_, List.forall_mem_cons.mpr ⟨?_, fun a ha => ?_⟩⟩
    · rw [List.map_append, List.map_append]
      exact sub.append sub'
    · exact .block fun x hx => (settles x hx).mono (List.subset_append_left _ _)
    · exact (settles' a ha).mono (List.subset_append_right _ _)
  | chosen inner ih =>
    obtain ⟨counters, sub, settles⟩ := ih placed.chosen
    refine ⟨counters, sub, ?_⟩
    rintro _ ⟨⟩
    exact .block settles
  | missing | absent => exact ⟨[], List.nil_subperm, fun _ hb => by cases hb⟩

/-! ## Declarations turned into assignments -/

/-- An assignment in place of a declaration has the callbacks of the declaration. -/
theorem StatementKind.deferSpans_undeclared (kind : StatementKind) :
    (kind.undeclared.tests ++ kind.undeclared.operands).flatMap Expr.deferSpans =
      (kind.tests ++ kind.operands).flatMap Expr.deferSpans := by
  obtain ⟨more, trivial, operands⟩ := kind.operands_undeclared
  have none : more.flatMap Expr.deferSpans = [] := by
    rw [List.flatMap_eq_nil_iff]
    intro e he
    rcases trivial e he with ⟨name, -, rfl⟩ | ⟨span, rfl⟩ <;> rfl
  rw [tests_undeclared, operands, List.flatMap_append, List.flatMap_append, none,
    List.flatMap_append, List.nil_append]

/-- Hoisting leaves the statements that belong to a block in place, and those inside. -/
theorem Block.undeclared_parts (b : Block) :
    (Node.block b.undeclared).direct = (Node.block b).direct.map Statement.undeclared ∧
      ∀ w, .statement w ∈ b.ownNodes → .statement w.undeclared ∈ b.undeclared.ownNodes := by
  induction b using Block.inductOn (Q := fun s =>
    (Node.statement s.undeclared).direct = (Node.statement s).direct.map Statement.undeclared ∧
      ∀ w, .statement w ∈ s.ownNodes → .statement w.undeclared ∈ s.undeclared.ownNodes) with
  | block b ih =>
    constructor
    · rw [Node.direct_block, Node.direct_block, undeclared_eq, List.flatMap_map, List.map_flatMap]
      exact List.flatMap_congr fun s hs => (ih s hs).1
    · intro w hw
      rcases (Node.mem_ownNodes (n := .block b) (i := w.id) rfl).mp hw with same | ⟨c, hc, hw⟩
      · cases same
      · obtain ⟨s, hs, rfl⟩ := List.mem_map.mp hc
        have child : Node.statement s.undeclared ∈ (Node.block b.undeclared).children := by
          rw [undeclared_eq]
          exact List.mem_map_of_mem (List.mem_map_of_mem hs)
        exact Node.ownNodes_of_child child ((ih s hs).2 w hw)
  | statement s headers blocks =>
    have children : (Node.statement s.undeclared).children =
        s.kind.headers.map (fun h => .statement h.undeclared) ++
          s.kind.blocks.map fun b => .block b.undeclared := by
      rw [Statement.undeclared_eq, Node.children, StatementKind.headers_undeclared,
        StatementKind.blocks_undeclared, List.map_map, List.map_map]
      rfl
    have isWait : s.undeclared.kind.isWait = s.kind.isWait := by
      rw [Statement.undeclared_eq, StatementKind.isWait_undeclared]
    constructor
    · cases waits : s.kind.isWait with
      | true =>
        rw [Node.direct_wait _ waits, Node.direct_wait _ (isWait.trans waits)]
        rfl
      | false =>
        rw [Node.direct_statement _ waits, Node.direct_statement _ (isWait.trans waits), children,
          Node.children, List.map_cons, List.flatMap_append, List.flatMap_append, List.map_append,
          List.flatMap_map, List.flatMap_map, List.flatMap_map, List.flatMap_map,
          List.map_flatMap, List.map_flatMap]
        refine congrArg _ (congrArg₂ _ ?_ ?_)
        · exact List.flatMap_congr fun h hh => (headers h hh).1
        · exact List.flatMap_congr fun b hb => (blocks b hb).1
    · intro w hw
      rcases (Node.mem_ownNodes (n := .statement s) (i := w.id) rfl).mp hw with same | ⟨c, hc, hw⟩
      · cases same
        exact Node.self_mem_ownNodes (.statement _)
      · rcases List.mem_append.mp hc with hc | hc
        · obtain ⟨h, hh, rfl⟩ := List.mem_map.mp hc
          have child : Node.statement h.undeclared ∈ (Node.statement s.undeclared).children := by
            rw [children]
            exact List.mem_append_left _ (List.mem_map_of_mem hh)
          exact Node.ownNodes_of_child child ((headers h hh).2 w hw)
        · obtain ⟨b, hb, rfl⟩ := List.mem_map.mp hc
          have child : Node.block b.undeclared ∈ (Node.statement s.undeclared).children := by
            rw [children]
            exact List.mem_append_right _ (List.mem_map_of_mem hb)
          exact Node.ownNodes_of_child child ((blocks b hb).2 w hw)

theorem Block.ownDefers_undeclared (b : Block) :
    (Node.block b.undeclared).ownDefers = (Node.block b).ownDefers := by
  rw [Node.ownDefers, b.undeclared_parts.1, List.flatMap_map]
  apply List.flatMap_congr
  intro s _
  rw [Statement.undeclared_eq]
  exact s.kind.deferSpans_undeclared

/-! ## Whole functions -/

section
variable (config : Config) (m : Marking) (max : NodeId) (counters : List (NodeId × String))

/-- The callbacks of `f` belong to their innermost wait-blocks, where they are counted and in `g`.
The counters are listed with the ids of their wait-blocks. -/
structure Func.Attributes (f g : Func) : Prop where
  /-- As many callbacks are lowered for a wait-block as were counted for it. -/
  counted : ∀ w body, .statement w ∈ f.reached m.table → w.kind = .wait body →
    ∃ body' c ids, (body' = body ∨ body' = body.undeclared) ∧ (w.id, c.counter) ∈ counters ∧
      f.LowersWait config m.table max g w body' c ids ∧
      (body'.rewrite c.counting (ids, 0)).2.2 =
        (body.survey config (config.maxDepth - f.depth w) true).defers
  /-- An expression with callbacks has them as calls on the counter of its wait-block. -/
  handed : ∀ x e, .statement x ∈ f.reached m.table → e ∈ x.kind.tests ++ x.kind.operands →
    e.deferSpans ≠ [] → ∃ w body counter e', .statement w ∈ f.reached m.table ∧
      w.kind = .wait body ∧ x ∈ (Node.block body).direct ∧ (w.id, counter) ∈ counters ∧
      g.HasCounter config max w counter ∧ e.CallsBack config counter e' ∧ g.Lands max x.id e'

end

namespace Func

variable {m : Marking}

/-- The wait-blocks of `f` have become blocks with counters. -/
theorem settles_rotated (fit : f.Fit max) (ok : f.marking config = .ok m) {step : Rotation Func}
    (rotates : f.IsRotation ⟨config, m.table⟩ step) {s : Supply}
    (reserved : s.names.reserved = config.reservedPrefix) (promises : s.ids.Promises (max < ·))
    (last : (step s).2.ids.exhausted = true → max < NodeId.last) :
    ∃ g s' b counters, step s = (.ok g, s') ∧ (b = f.body ∨ b = f.body.undeclared) ∧
      (counters.map Prod.snd).Nodup ∧ f.Settles config m.table max g counters (.block b) := by
  generalize run : step s = r at last
  obtain ⟨r, s'⟩ := r
  obtain ⟨b, ds, out, entries, hb, rfl, -, woven, nodup⟩ :=
    isRotation_spec fit.distinct fit.simple ok (fit.unused ok) rotates reserved promises run last
  obtain ⟨counters, ⟨names, perm, sub⟩, settles⟩ :=
    woven.attributes fit.distinct fit.simple ok (placed_body hb)
  exact ⟨_, s', b, counters, rfl, hb, perm.nodup_iff.mp (nodup.sublist sub), .block settles⟩

/-- A wait-block of `f`, as it is when it is rotated, has become a block with a counter. -/
theorem Settles.lowersWait {t : MarkTable} {counters : List (NodeId × String)} {b : Block}
    (hb : b = f.body ∨ b = f.body.undeclared)
    (settles : f.Settles config t max g counters (.block b)) {w : Statement} {body : Block}
    (hw : .statement w ∈ f.body.ownNodes) (isWait : w.kind = .wait body) (kept : w.id ∉ f.lost t) :
    ∃ body' c ids, (body' = body ∨ body' = body.undeclared) ∧ (w.id, c.counter) ∈ counters ∧
      f.LowersWait config t max g w body' c ids := by
  rcases hb with rfl | rfl
  · obtain ⟨c, ids, mem, lowers⟩ := settles.waits w body hw isWait kept
    exact ⟨body, c, ids, .inl rfl, mem, lowers⟩
  · obtain ⟨id, kind, span⟩ := w
    cases isWait
    obtain ⟨c, ids, mem, lowers⟩ := settles.waits _ body.undeclared
      (f.body.undeclared_parts.2 _ hw) rfl kept
    exact ⟨body.undeclared, c, ids, .inr rfl, mem, lowers.method, lowers.reserved, lowers.there,
      lowers.lands⟩

/-- The expressions that belong to a wait-block have been moved with their callbacks lowered. -/
theorem LowersWait.handed {t : MarkTable} {w : Statement} {body body' : Block} {c : Callbacks}
    {ids : IdSupply} (hb : body' = body ∨ body' = body.undeclared)
    (lowers : f.LowersWait config t max g w body' c ids) {x : Statement}
    (hx : x ∈ (Node.block body).direct) (kept : x.id ∉ f.lost t) {e : Expr}
    (he : e ∈ x.kind.tests ++ x.kind.operands) :
    ∃ e', e.CallsBack config c.counter e' ∧ g.Lands max x.id e' := by
  obtain ⟨y, hy, same, he⟩ : ∃ y ∈ (Node.block body').direct, y.id = x.id ∧
      e ∈ y.kind.tests ++ y.kind.operands := by
    rcases hb with rfl | rfl
    · exact ⟨x, hx, rfl, he⟩
    · refine ⟨x.undeclared, ?_, by rw [Statement.undeclared_eq], ?_⟩
      · rw [body.undeclared_parts.1]
        exact List.mem_map_of_mem hx
      · obtain ⟨more, -, operands⟩ := x.kind.operands_undeclared
        rw [Statement.undeclared_eq, StatementKind.tests_undeclared, operands]
        simp only [List.mem_append] at he ⊢
        exact he.imp_right .inr
  have handsOn := Block.handsOn_rewrite lowers.reserved lowers.method body' ids
  obtain ⟨z, hz, sameId, exprs⟩ := exists_right_of_forall₂ handsOn.direct hy
  obtain ⟨e', he', calls⟩ := exists_right_of_forall₂ exprs he
  have id : z.id = x.id := sameId.trans same
  exact ⟨e', calls, id ▸ lowers.lands z hz (id.symm ▸ kept) e' he'⟩

/-- **Callbacks belong to their innermost wait-blocks.** There is one warning for each wait-block
without callbacks of its own, those inside first. Rotation lowers as many callbacks for a wait-block
as the survey counted, and each callback that is kept becomes a call on the counter of its
wait-block, wherever it ends up. No two wait-blocks share a counter. -/
theorem attributes_of_rotation (distinct : f.ids.Nodup) (simple : f.HasSimpleHeads)
    (ok : f.marking config = .ok m) :
    m.warnings = f.emptyWaits.map (fun w => ⟨w.span⟩) ∧
      ∀ (max : NodeId) (step : Rotation Func) (s : Supply), (∀ i ∈ f.ids, i ≤ max) →
        f.IsRotation ⟨config, m.table⟩ step → s.names.reserved = config.reservedPrefix →
        s.ids.Promises (max < ·) → ((step s).2.ids.exhausted = true → max < NodeId.last) →
        ∃ g s' counters, step s = (.ok g, s') ∧ (counters.map Prod.snd).Nodup ∧
          f.Attributes config m max counters g := by
  refine ⟨warnings_eq ok, fun max step s bound rotates reserved promises last => ?_⟩
  have fit := fit distinct simple bound
  obtain ⟨g, s', b, counters, run, hb, nodup, settles⟩ :=
    settles_rotated fit ok rotates reserved promises last
  refine ⟨g, s', counters, run, nodup, ?_, ?_⟩
  · intro w body hw isWait
    obtain ⟨own, kept⟩ := (mem_reached distinct).mp hw
    obtain ⟨body', c, ids, same, mem, lowers⟩ := settles.lowersWait hb own isWait kept
    refine ⟨body', c, ids, same, mem, lowers, ?_⟩
    rw [body'.counts_rewrite ids 0, Nat.zero_add, counted_eq fit.distinct ok own isWait]
    rcases same with rfl | rfl
    · rfl
    · rw [body.ownDefers_undeclared]
  · intro x e hx he calls
    obtain ⟨own, kept⟩ := (mem_reached distinct).mp hx
    obtain ⟨w, body, hw, isWait, inside⟩ := exists_innermost ok own he calls
    have around : .statement x ∈ (Node.statement w).ownNodes := by
      apply Node.ownNodes_of_child _ (Node.direct_subset _ inside)
      simp [Node.children, isWait, StatementKind.blocks]
    have keptWait := not_lost_of_holds fit.distinct hw around kept
    obtain ⟨body', c, ids, same, mem, lowers⟩ := settles.lowersWait hb hw isWait keptWait
    obtain ⟨e', callsBack, lands⟩ := lowers.handed same inside kept he
    exact ⟨w, body, c.counter, e', (mem_reached distinct).mpr ⟨hw, keptWait⟩, isWait, inside, mem,
      lowers.there, callsBack, lands⟩

/-- The body is `while (c) { wait { wait { a(defer(x)); } } b(); }`: the outer wait-block has no
callback of its own, the inner one binds a name. -/
def waitingTwice : Func :=
  let name (n : String) : Ident := ⟨n, default⟩
  let call : Expr := .call (.ident (name "a")) [.defer [name "x"] default] default
  let inner : Statement := ⟨6, .wait ⟨7, [⟨8, .expr call, default⟩], default⟩, default⟩
  let outer : Statement := ⟨4, .wait ⟨5, [inner], default⟩, default⟩
  let after : Statement := ⟨9, .expr (.callNamed "b" default), default⟩
  let loop : Statement :=
    ⟨2, .loop none (.whileDo (.ident (name "c"))) ⟨3, [outer, after], default⟩, default⟩
  ⟨0, some (name "f"), [name "c"], ⟨1, [loop], default⟩, default⟩

theorem attributes_of_rotation_waitingTwice : ∃ m, waitingTwice.marking {} = .ok m ∧
    m.warnings = waitingTwice.emptyWaits.map (fun w => ⟨w.span⟩) ∧ ∃ g s' counters,
      waitingTwice.lower ⟨{}, m.table⟩ ⟨.above 9, .new "__"⟩ = (.ok g, s') ∧
      (counters.map Prod.snd).Nodup ∧ waitingTwice.Attributes {} m 9 counters g := by
  obtain ⟨m, ok⟩ : ∃ m, waitingTwice.marking {} = .ok m :=
    marking_eq_ok (by decide +kernel) (by decide +kernel)
  obtain ⟨warnings, rotates⟩ := attributes_of_rotation (by decide) (by decide) ok
  exact ⟨m, ok, warnings, rotates 9 _ ⟨.above 9, .new "__"⟩ (by decide) (.inr rfl) rfl
    (IdSupply.promises_above 9) fun _ => by decide⟩

end Func

end

end WaitDefer
