import WaitDefer.Proofs.Rotation.Woven
import WaitDefer.Proofs.Tree.Whole

/-!
# Where a piece of rotated code belongs

A function `f` is turned into a function `g` piece by piece:

* `Statement.RotatedTo`: what a loop of `f` has become in `g`, and how jumps to it go on;
* `Func.Continues`: what goes on in `g` where a block or statement of `f` ends;
* `Weaving.Placed`: a piece belongs to `f`, and what it is turned into to `g`;
* `Weaving.Placed.rest`, `Weaving.Placed.inner`, ...: then so do the pieces it is made of.
-/

namespace WaitDefer

/-! ## Loops and what follows them -/

section
variable (config : Config) (max : NodeId)

/-- A loop has become a block with two routines and a call of the first. A jump to the loop goes on
with the second, or with what follows the loop. -/
inductive Statement.RotatedTo (g : Func) (l : Statement) : LoopContext → Prop
  | routines {label : Option Ident} {head head' : LoopHead} {body body' : Block}
      {exit : Option Expr} {names : LoopNames} {parts : Wiring.LoopParts}
      {i₁ j₁ k₁ i₂ j₂ k₂ x y z : NodeId} (isLoop : l.kind = .loop label head body)
      (same : head'.plain config = head.plain config)
      (parted : head'.Parted (max < ·) body' (.callNamed names.restart l.span)
        (.exitWith x exit l.span) l.span parts)
      (there : .statement ⟨l.id, .block ⟨y, parts.before ++
          [.routineWith i₁ j₁ k₁ names.restart parts.restart l.span,
            .routineWith i₂ j₂ k₂ names.next parts.next l.span,
            .callWith z (.callNamed names.restart l.span)], l.span⟩, l.span⟩ ∈ g.unitNodes max) :
      RotatedTo g l ⟨exit, .callNamed names.next l.span, label.map Ident.name⟩

variable (f g : Func)

/-- What goes on in `g` where a block or statement of `f` ends; if nothing, the thread ends. -/
inductive Func.Continues : Node → Option Expr → Prop
  | body : Continues (.block f.body) none
  | rest {b b' : Block} {s s' : Statement} {before before' ss out : List Statement}
      {i j k : NodeId} {name : String} (inside : .block b ∈ f.body.ownNodes)
      (holds : b.statements = before ++ s :: ss) (notLast : ss ≠ [])
      (there : .block b' ∈ g.unitNodes max) (same : s'.id = s.id)
      (holds' : b'.statements = before' ++ [.routineWith i j k name out s.span, s']) :
      Continues (.statement s) (some (.callNamed name s.span))
  | last {b : Block} {s : Statement} {before : List Statement} {after : Option Expr}
      (holds : b.statements = before ++ [s]) (rest : Continues (.block b) after) :
      Continues (.statement s) after
  | nest {s : Statement} {b : Block} {after : Option Expr} (isNest : s.kind.isNest = true)
      (hb : b ∈ s.kind.blocks) (rest : Continues (.statement s) after) :
      Continues (.block b) after
  | wait {s : Statement} {body : Block} {after : Option Expr} {counter : String} {value : Expr}
      {i j : NodeId} {out : List Statement} {span : Span} (isWait : s.kind = .wait body)
      (resumes : value.Resumes (max < ·) s.span after)
      (there : .statement ⟨s.id, .block ⟨j,
        ⟨i, .declare ⟨counter, s.span⟩ (some (.callNamed config.runtime.newCounter s.span)),
          s.span⟩ :: out, span⟩, s.span⟩ ∈ g.unitNodes max)
      (rest : Continues (.statement s) after) :
      Continues (.block body)
        (some (.call (.memberNamed counter config.runtime.wait s.span) [value] s.span))
  | loop {s : Statement} {label : Option Ident} {head : LoopHead} {body : Block}
      {loop : LoopContext} (isLoop : s.kind = .loop label head body)
      (rotated : s.RotatedTo config max g loop) (rest : Continues (.statement s) loop.exit) :
      Continues (.block body) (some loop.next)

/-! ## Places -/

/-- The innermost loop on the way down to a place has been rotated. -/
def Func.Near (p : List Node) (around : Option LoopContext) : Prop :=
  ∀ loop ∈ around, ∃ above l below, p = above ++ .statement l :: below ∧
    (∀ n ∈ below, n.isLoop = false) ∧ l.RotatedTo config max g loop ∧
      f.Continues config max g (.statement l) loop.exit

/-- A node is one of `f`, but for its callbacks and declarations, and goes on with `after`. -/
def Func.HasSite (around : Option LoopContext) (n : Node) (after : Option Expr) : Prop :=
  ∃ n₀ p, Node.Path (.block f.body) (p ++ [n₀]) n₀ ∧ n₀.plain config = n.plain config ∧
    f.Continues config max g n₀ after ∧ f.Near config max g p around

/-- A piece belongs to `f`, and what it is turned into to `g`. -/
def Weaving.Placed (around : Option LoopContext) : Weaving → Prop
  | .run ss tail out =>
    (∃ b p before, Node.Path (.block f.body) (p ++ [.block b]) (.block b) ∧
      b.statements.map (Statement.plain config) = before ++ ss.map (Statement.plain config) ∧
      f.Continues config max g (.block b) tail ∧ f.Near config max g p around) ∧
    ∃ b' before', .block b' ∈ g.unitNodes max ∧ b'.statements = before' ++ out
  | .pivot s after out =>
    f.HasSite config max g around (.statement s) after ∧ .statement out ∈ g.unitNodes max
  | .arms as after out =>
    (∀ a ∈ as, f.HasSite config max g around (.block a.body) after) ∧
      ∀ a ∈ out, .block a.body ∈ g.unitNodes max
  | .choice block after out =>
    (∀ b ∈ block, f.HasSite config max g around (.block b) after) ∧
      ∀ b ∈ out, .block b ∈ g.unitNodes max

end

section
variable {config : Config} {max : NodeId} {f g : Func} {around : Option LoopContext}

/-! ## Nodes of the rotated function -/

/-- What a node of a unit holds is part of the unit. -/
theorem Func.mem_unitNodes_of_child {n c : Node} (hn : n ∈ g.unitNodes max)
    (hc : c ∈ n.children) : c ∈ g.unitNodes max := by
  have within : Whole (fun h : Func => decide (max < h.id)) (g.unitNodes max) :=
    Block.whole (whole_cases _) g.body
  apply (within n hn).subset
  have own := Node.child_mem_ownNodes hc
  cases n with
  | block b => exact (b.ownNodes_subperm _).subset own
  | statement s => exact (s.ownNodes_subperm _).subset own
  | _ => simp [Node.children] at hc

theorem Func.mem_unitNodes_of_statement {b : Block} {s : Statement}
    (hb : .block b ∈ g.unitNodes max) (hs : s ∈ b.statements) : .statement s ∈ g.unitNodes max :=
  mem_unitNodes_of_child hb (List.mem_map_of_mem hs)

theorem Func.mem_unitNodes_of_block {b : Block} {s : Statement}
    (hs : .statement s ∈ g.unitNodes max) (hb : b ∈ s.kind.blocks) : .block b ∈ g.unitNodes max :=
  mem_unitNodes_of_child hs (List.mem_append_right _ (List.mem_map_of_mem hb))

/-- The body of a routine is part of the unit. -/
theorem Func.mem_unitNodes_of_routine {i j k : NodeId} {name : String} {body : List Statement}
    {span : Span} (hs : .statement (.routineWith i j k name body span) ∈ g.unitNodes max)
    (new : max < j) : .block ⟨k, body, span⟩ ∈ g.unitNodes max := by
  have within : Whole (fun h : Func => decide (max < h.id)) (g.unitNodes max) :=
    Block.whole (whole_cases _) g.body
  have walked : .func ⟨j, some ⟨name, span⟩, [], ⟨k, body, span⟩, span⟩ ∈ g.unitNodes max := by
    apply (within _ hs).subset
    simp [Node.walk, Statement.routineWith, Statement.nodes, StatementKind.nodes, Func.nodes, new]
  apply mem_unitNodes_of_body walked new
  rw [unitNodes, Block.nodes_eq]
  exact List.mem_cons_self

/-- The body of a loop is in the routine that runs a round. -/
theorem LoopHead.Parted.holds_body {fresh : NodeId → Prop} {head : LoopHead} {body : Block}
    {restart : Expr} {exit : Statement} {span : Span} {parts : Wiring.LoopParts}
    (h : head.Parted fresh body restart exit span parts) :
    body.statements = parts.restart ∨
      ∃ i j condition, .branchWith i j condition body exit span ∈ parts.restart := by
  cases h with
  | whileDo => exact .inr ⟨_, _, _, List.mem_cons_self⟩
  | doWhile => exact .inl rfl
  | counting => exact .inr ⟨_, _, _, List.mem_cons_self⟩
  | endless => exact .inl rfl

/-! ## Further down -/

theorem Func.Near.append {p : List Node} (near : f.Near config max g p around) {n : Node}
    (notLoop : n.isLoop = false) : f.Near config max g (p ++ [n]) around := by
  intro loop hloop
  obtain ⟨above, l, below, rfl, free, rest⟩ := near loop hloop
  refine ⟨above, l, below ++ [n], by simp, fun x hx => ?_, rest⟩
  rcases List.mem_append.mp hx with hx | hx
  · exact free x hx
  · exact List.mem_singleton.mp hx ▸ notLoop

/-- A statement that is one of `f`, but for its callbacks, has blocks like those of `f`. -/
theorem StatementKind.exists_block_of_plain {kind kind₀ : StatementKind} {b : Block}
    (same : kind₀.plain config = kind.plain config) (hb : b ∈ kind.blocks) :
    ∃ b₀ ∈ kind₀.blocks, b₀.plain config = b.plain config := by
  have mem : b.plain config ∈ (kind₀.plain config).blocks := by
    rw [same, blocks_plain]
    exact List.mem_map_of_mem hb
  rw [blocks_plain] at mem
  exact List.mem_map.mp mem

theorem Node.plain_statement_inj {s₀ s : Statement}
    (same : (Node.statement s₀).plain config = (Node.statement s).plain config) :
    s₀.id = s.id ∧ s₀.span = s.span ∧ s₀.kind.plain config = s.kind.plain config := by
  have same := Node.statement.inj same
  refine ⟨?_, ?_, ?_⟩
  · simpa using congrArg Statement.id same
  · simpa using congrArg Statement.span same
  · simpa using congrArg Statement.kind same

namespace Func.HasSite

variable {after : Option Expr}

/-- The blocks of a statement that only picks one of them go on as it does. -/
theorem nest {s : Statement} {b : Block}
    (site : f.HasSite config max g around (.statement s) after) (isNest : s.kind.isNest = true)
    (hb : b ∈ s.kind.blocks) : f.HasSite config max g around (.block b) after := by
  obtain ⟨n₀, p, path, same, continues, near⟩ := site
  cases n₀ with
  | statement s₀ =>
    obtain ⟨-, -, kind⟩ := Node.plain_statement_inj same
    obtain ⟨b₀, hb₀, sameBlock⟩ := StatementKind.exists_block_of_plain kind hb
    have isNest₀ : s₀.kind.isNest = true := by
      rw [← StatementKind.isNest_plain config, kind, StatementKind.isNest_plain, isNest]
    have child : Node.block b₀ ∈ (Node.statement s₀).children :=
      List.mem_append_right _ (List.mem_map_of_mem hb₀)
    have notLoop : (Node.statement s₀).isLoop = false := by
      rw [Node.isLoop]
      cases hk : s₀.kind <;> simp [hk, StatementKind.isNest, StatementKind.isLoop] at isNest₀ ⊢
    refine ⟨.block b₀, p ++ [.statement s₀], path.snoc child, ?_, .nest isNest₀ hb₀ continues,
      near.append notLoop⟩
    rw [Node.plain, Node.plain, sameBlock]
  | _ => cases same

/-- The statements of a block are placed. -/
theorem run {b : Block} {out : List Statement}
    (site : f.HasSite config max g around (.block b) after) {b' : Block} {l : List Statement}
    (there : .block b' ∈ g.unitNodes max) (holds : b'.statements = l ++ out) :
    Weaving.Placed config max f g around (.run b.statements after out) := by
  obtain ⟨n₀, p, path, same, continues, near⟩ := site
  cases n₀ with
  | block b₀ =>
    refine ⟨⟨b₀, p, [], path, ?_, continues, near⟩, b', l, there, holds⟩
    have same := congrArg Block.statements (Node.block.inj same)
    simpa using same
  | _ => cases same

end Func.HasSite

namespace Weaving.Placed

variable {s wired : Statement} {ss out : List Statement} {tail : Option Expr}

/-- The first of placed statements, in its block. -/
theorem first (placed : Placed config max f g around (.run (s :: ss) tail out)) :
    ∃ b p before s₀ ss₀, Node.Path (.block f.body) (p ++ [.block b] ++ [.statement s₀])
        (.statement s₀) ∧ .block b ∈ f.body.ownNodes ∧ b.statements = before ++ s₀ :: ss₀ ∧
      s₀.plain config = s.plain config ∧
      ss₀.map (Statement.plain config) = ss.map (Statement.plain config) ∧
      f.Continues config max g (.block b) tail ∧
      f.Near config max g (p ++ [.block b]) around := by
  obtain ⟨⟨b, p, before, path, same, continues, near⟩, -⟩ := placed
  obtain ⟨before₀, rest₀, holds, -, same⟩ := List.map_eq_append_iff.mp same
  obtain ⟨s₀, ss₀, rfl, sameFirst, sameRest⟩ := List.map_eq_cons_iff.mp same
  have inside : s₀ ∈ b.statements := by simp [holds]
  exact ⟨b, p, before₀, s₀, ss₀, path.snoc (List.mem_map_of_mem inside), path.end_mem_ownNodes,
    holds, sameFirst, sameRest, continues, near.append rfl⟩

theorem rest {l out' : List Statement}
    (placed : Placed config max f g around (.run (s :: ss) tail out)) {b' : Block}
    (there : .block b' ∈ g.unitNodes max) (holds : b'.statements = l ++ out') :
    Placed config max f g around (.run ss tail out') := by
  obtain ⟨⟨b, p, before, path, same, continues, near⟩, -⟩ := placed
  exact ⟨⟨b, p, before ++ [s.plain config], path, by simpa using same, continues, near⟩, b', l,
    there, holds⟩

theorem keep (placed : Placed config max f g around (.run (s :: ss) tail (s :: out))) :
    Placed config max f g around (.run ss tail out) ∧ .statement s ∈ g.unitNodes max := by
  obtain ⟨-, b', before', there, holds⟩ := id placed
  refine ⟨placed.rest (l := before' ++ [s]) there (by simp [holds]), ?_⟩
  exact Func.mem_unitNodes_of_statement there (by simp [holds])

theorem last (placed : Placed config max f g around (.run [s] tail [wired])) :
    Placed config max f g around (.pivot s tail wired) := by
  obtain ⟨b, p, before, s₀, ss₀, path, -, holds, same, rest, continues, near⟩ := placed.first
  obtain ⟨-, b', before', there, holds'⟩ := placed
  obtain rfl : ss₀ = [] := by simpa using rest
  refine ⟨⟨.statement s₀, _, path, ?_, .last holds continues, near⟩, ?_⟩
  · rw [Node.plain, Node.plain, same]
  · exact Func.mem_unitNodes_of_statement there (by simp [holds'])

theorem split {name : String} {i j k : NodeId} (notLast : ss ≠ []) (new : max < j)
    (placed : Placed config max f g around
      (.run (s :: ss) tail [.routineWith i j k name out s.span, wired]))
    (same : wired.id = s.id) : Placed config max f g around (.run ss tail out) ∧
      Placed config max f g around (.pivot s (some (.callNamed name s.span)) wired) := by
  obtain ⟨b, p, before, s₀, ss₀, path, inside, holds, same₀, rest, continues, near⟩ :=
    placed.first
  obtain ⟨-, b', before', there, holds'⟩ := id placed
  have routine : .statement (.routineWith i j k name out s.span) ∈ g.unitNodes max :=
    Func.mem_unitNodes_of_statement there (by simp [holds'])
  have body := Func.mem_unitNodes_of_routine routine new
  have sameId : s₀.id = s.id := by simpa using congrArg Statement.id same₀
  have sameSpan : s₀.span = s.span := by simpa using congrArg Statement.span same₀
  refine ⟨placed.rest (l := []) body rfl, ⟨.statement s₀, _, path, ?_, ?_, near⟩, ?_⟩
  · rw [Node.plain, Node.plain, same₀]
  · rw [← sameSpan]
    refine .rest inside holds ?_ there (same.trans sameId.symm) (sameSpan ▸ holds')
    rintro rfl
    exact notLast (by simpa using rest.symm)
  · exact Func.mem_unitNodes_of_statement there (by simp [holds'])

theorem block {after : Option Expr} {body : Block} (isBlock : s.kind = .block body)
    (placed : Placed config max f g around
      (.pivot s after ⟨s.id, .block { body with statements := out }, s.span⟩)) :
    Placed config max f g around (.run body.statements after out) := by
  obtain ⟨site, there⟩ := placed
  have inner := Func.mem_unitNodes_of_block there List.mem_cons_self
  refine (site.nest ?_ ?_).run (l := []) inner rfl
  · simp [isBlock, StatementKind.isNest]
  · simp [isBlock, StatementKind.blocks]

theorem branch {after : Option Expr} {condition : Expr} {yes : Block} {no no' : Option Block}
    (isBranch : s.kind = .branch condition yes no)
    (placed : Placed config max f g around
      (.pivot s after ⟨s.id, .branch condition { yes with statements := out } no', s.span⟩)) :
    Placed config max f g around (.run yes.statements after out) ∧
      Placed config max f g around (.choice no after no') := by
  obtain ⟨site, there⟩ := placed
  have isNest : s.kind.isNest = true := by simp [isBranch, StatementKind.isNest]
  have inner := fun b hb => Func.mem_unitNodes_of_block (b := b) there hb
  simp only [StatementKind.blocks, List.mem_cons, Option.mem_toList] at inner
  refine ⟨(site.nest isNest ?_).run (l := []) (inner _ (.inl rfl)) rfl, fun b hb => ?_,
    fun b hb => inner b (.inr hb)⟩
  · simp [isBranch, StatementKind.blocks]
  · apply site.nest isNest
    simpa [isBranch, StatementKind.blocks] using Or.inr hb

theorem switch {after : Option Expr} {subject : Expr} {arms arms' : List Arm}
    {otherwise otherwise' : Option Block} (isSwitch : s.kind = .switch subject arms otherwise)
    (placed : Placed config max f g around
      (.pivot s after ⟨s.id, .switch subject arms' otherwise', s.span⟩)) :
    Placed config max f g around (.arms arms after arms') ∧
      Placed config max f g around (.choice otherwise after otherwise') := by
  obtain ⟨site, there⟩ := placed
  have isNest : s.kind.isNest = true := by simp [isSwitch, StatementKind.isNest]
  have inner := fun b hb => Func.mem_unitNodes_of_block (b := b) there hb
  simp only [StatementKind.blocks, List.mem_append, List.mem_map, Option.mem_toList] at inner
  have outer := fun b hb => site.nest (b := b) isNest hb
  simp only [isSwitch, StatementKind.blocks, List.mem_append, List.mem_map,
    Option.mem_toList] at outer
  exact ⟨⟨fun a ha => outer _ (.inl ⟨a, ha, rfl⟩), fun a ha => inner _ (.inl ⟨a, ha, rfl⟩)⟩,
    fun b hb => outer b (.inr hb), fun b hb => inner b (.inr hb)⟩

theorem arm {after : Option Expr} {a : Arm} {as as' : List Arm}
    (placed : Placed config max f g around (.arms (a :: as) after
      ({ a with body := { a.body with statements := out } } :: as'))) :
    Placed config max f g around (.run a.body.statements after out) ∧
      Placed config max f g around (.arms as after as') := by
  obtain ⟨sites, there⟩ := placed
  have first := sites a List.mem_cons_self
  exact ⟨first.run (l := []) (there _ List.mem_cons_self) rfl,
    fun x hx => sites x (List.mem_cons_of_mem _ hx),
    fun x hx => there x (List.mem_cons_of_mem _ hx)⟩

theorem chosen {after : Option Expr} {b : Block}
    (placed : Placed config max f g around
      (.choice (some b) after (some { b with statements := out }))) :
    Placed config max f g around (.run b.statements after out) :=
  (placed.1 b rfl).run (l := []) (placed.2 _ rfl) rfl

/-- The body of a wait-block, without its callbacks, goes on with its counter. -/
theorem wait {after : Option Expr} {body body' : Block} {counter : String} {value : Expr}
    {i : NodeId} (isWait : s.kind = .wait body) (plain : body'.plain config = body.plain config)
    (resumes : value.Resumes (max < ·) s.span after)
    (placed : Placed config max f g around (.pivot s after ⟨s.id, .block { body' with statements :=
      ⟨i, .declare ⟨counter, s.span⟩ (some (.callNamed config.runtime.newCounter s.span)),
        s.span⟩ :: out }, s.span⟩)) :
    Placed config max f g none (.run body'.statements
      (some (.call (.memberNamed counter config.runtime.wait s.span) [value] s.span)) out) := by
  obtain ⟨⟨n₀, p, path, same, continues, -⟩, there⟩ := placed
  cases n₀ with
  | statement s₀ =>
    obtain ⟨sameId, sameSpan, kind⟩ := Node.plain_statement_inj same
    rw [isWait, StatementKind.plain_wait] at kind
    obtain ⟨body₀, isWait₀, sameBody⟩ := StatementKind.plain_eq_wait config kind
    have child : Node.block body₀ ∈ (Node.statement s₀).children :=
      List.mem_append_right _ (List.mem_map_of_mem (by simp [isWait₀, StatementKind.blocks]))
    have inner := Func.mem_unitNodes_of_block there List.mem_cons_self
    have site : f.HasSite config max g none (.block body') (some (.call (.memberNamed counter
        config.runtime.wait s.span) [value] s.span)) := by
      refine ⟨.block body₀, p ++ [.statement s₀], path.snoc child, ?_, ?_, by simp [Func.Near]⟩
      · rw [Node.plain, Node.plain, plain, sameBody]
      · rw [← sameSpan] at resumes there ⊢
        rw [← sameId] at there
        exact .wait isWait₀ resumes there continues
    exact site.run (l := [_]) inner rfl
  | _ => cases same

/-- The body of a rotated loop goes on with its next round. -/
theorem loop {after : Option Expr} {label : Option Ident} {head : LoopHead} {body : Block}
    {names : LoopNames} {parts : Wiring.LoopParts} {i₁ j₁ k₁ i₂ j₂ k₂ x y z : NodeId}
    (isLoop : s.kind = .loop label head body) (new : max < j₁)
    (parted : head.Parted (max < ·) { body with statements := out }
      (.callNamed names.restart s.span) (.exitWith x after s.span) s.span parts)
    (placed : Placed config max f g around (.pivot s after ⟨s.id, .block ⟨y, parts.before ++
      [.routineWith i₁ j₁ k₁ names.restart parts.restart s.span,
        .routineWith i₂ j₂ k₂ names.next parts.next s.span,
        .callWith z (.callNamed names.restart s.span)], s.span⟩, s.span⟩)) :
    Placed config max f g (some ⟨after, .callNamed names.next s.span, label.map Ident.name⟩)
      (.run body.statements (some (.callNamed names.next s.span)) out) := by
  obtain ⟨⟨n₀, p, path, same, continues, -⟩, there⟩ := placed
  cases n₀ with
  | statement s₀ =>
    obtain ⟨sameId, sameSpan, kind⟩ := Node.plain_statement_inj same
    rw [isLoop, StatementKind.plain_loop] at kind
    obtain ⟨head₀, body₀, isLoop₀, sameHead, sameBody⟩ := StatementKind.plain_eq_loop config kind
    have child : Node.block body₀ ∈ (Node.statement s₀).children :=
      List.mem_append_right _ (List.mem_map_of_mem (by simp [isLoop₀, StatementKind.blocks]))
    have inner := Func.mem_unitNodes_of_block there List.mem_cons_self
    have routine : .block ⟨k₁, parts.restart, s.span⟩ ∈ g.unitNodes max := by
      have declared := Func.mem_unitNodes_of_statement inner
        (s := .routineWith i₁ j₁ k₁ names.restart parts.restart s.span) (by simp)
      exact Func.mem_unitNodes_of_routine declared new
    rw [← sameSpan] at parted there ⊢
    rw [← sameId] at there
    have rotated : s₀.RotatedTo config max g
        ⟨after, .callNamed names.next s₀.span, label.map Ident.name⟩ :=
      .routines isLoop₀ sameHead.symm parted there
    have site : f.HasSite config max g
        (some ⟨after, .callNamed names.next s₀.span, label.map Ident.name⟩) (.block body)
        (some (.callNamed names.next s₀.span)) := by
      refine ⟨.block body₀, p ++ [.statement s₀], path.snoc child, ?_, ?_, ?_⟩
      · rw [Node.plain, Node.plain, sameBody]
      · exact Func.Continues.loop isLoop₀ rotated
          continues
      · rintro _ ⟨⟩
        exact ⟨p, s₀, [], rfl, by simp, rotated, continues⟩
    rcases parted.holds_body with whole | ⟨i, j, condition, inRound⟩
    · exact site.run (l := []) routine whole.symm
    · have round := Func.mem_unitNodes_of_statement routine inRound
      exact site.run (l := []) (Func.mem_unitNodes_of_block round List.mem_cons_self) rfl
  | _ => cases same

end Weaving.Placed

end

end WaitDefer
