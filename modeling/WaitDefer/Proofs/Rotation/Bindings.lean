import WaitDefer.Proofs.Rotation.Declarations
import WaitDefer.Proofs.Rotation.Scoped

/-!
# What stays bound

When a function is split into routines, a name that is declared in one of them is not seen by the
others. Hoisting moves declarations to the function itself, but functions that are declared inside
stay where they are:

* `Statement.StaysIn`: a statement that rotation moves into no routine;
* `Func.binds_of_lower`: a name is bound by the function itself if it is declared with `let`, or if
  it is the name of a function that is declared by a statement that stays;
* `lateFunction_unbound`: a function declared inside may end up in a routine.
-/

namespace WaitDefer

/-! ## What is not moved -/

/-- A statement is moved by no split: in no block around it does a marked statement come before, and
it is in no marked loop, except in what comes before the first round. -/
inductive Statement.StaysIn (t : MarkTable) (d : Statement) : Node → Prop
  | here : StaysIn t d (.statement d)
  | inBlock {b : Block} {before after : List Statement} {s : Statement}
    (whole : b.statements = before ++ s :: after)
    (unmarked : ∀ x ∈ before, t.hasAny x.id .split = false) (inside : StaysIn t d (.statement s)) :
    StaysIn t d (.block b)
  | inStatement {s : Statement} {c : Node} (child : c ∈ (Node.statement s).children)
    (unmarked : s.kind.isLoop = true → t.hasAny s.id .split = false) (inside : StaysIn t d c) :
    StaysIn t d (.statement s)
  | inInit {s init : Statement} {label : Option Ident} {test : Option Expr}
    {update : Option Statement} {body : Block}
    (isLoop : s.kind = .loop label (.counting (some init) test update) body)
    (inside : StaysIn t d (.statement init)) : StaysIn t d (.statement s)

/-- Code with assignments in place of declarations. -/
def Node.undeclared : Node → Node
  | block b => block b.undeclared
  | statement s => statement s.undeclared
  | n => n

theorem StatementKind.isLoop_undeclared (kind : StatementKind) :
    kind.undeclared.isLoop = kind.isLoop := by
  cases kind with
  | branch condition yes no => cases no <;> rfl
  | switch subject arms otherwise => cases otherwise <;> rfl
  | loop label head body => cases head <;> rfl
  | _ => rfl

theorem exists_split_of_forall₂ {α β : Type} {R : α → β → Prop} {l before after : List α}
    {l' : List β} {a : α} (h : List.Forall₂ R l l') (whole : l = before ++ a :: after) :
    ∃ before' b after', l' = before' ++ b :: after' ∧ List.Forall₂ R before before' ∧ R a b ∧
      List.Forall₂ R after after' := by
  subst whole
  induction before generalizing l' with
  | nil =>
    cases h with
    | @cons _ b _ rest first tail => exact ⟨[], b, rest, rfl, .nil, first, tail⟩
  | cons x before ih =>
    cases h with
    | @cons _ y _ rest first tail =>
      obtain ⟨before', b, after', rfl, same, here, later⟩ := ih tail
      exact ⟨y :: before', b, after', rfl, .cons first same, here, later⟩

namespace Statement.StaysIn

variable {t : MarkTable} {d : Statement}

theorem inFirst {b : Block} {s : Statement} {after : List Statement}
    (whole : b.statements = s :: after) (inside : d.StaysIn t (.statement s)) :
    d.StaysIn t (.block b) :=
  .inBlock (whole.trans (List.nil_append _).symm) (List.forall_mem_nil _) inside

/-- What stays in a node is part of it. -/
theorem mem_ownNodes {n : Node} (h : d.StaysIn t n) : .statement d ∈ n.ownNodes := by
  induction h with
  | here => exact Node.self_mem_ownNodes (.statement d)
  | @inBlock b before after s whole _ _ ih =>
    refine Node.ownNodes_of_child (n := .block b) (List.mem_map_of_mem ?_) ih
    rw [whole]
    exact List.mem_append_right _ List.mem_cons_self
  | inStatement child _ _ ih => exact Node.ownNodes_of_child child ih
  | @inInit s init label test update body isLoop _ ih =>
    refine Node.ownNodes_of_child (n := .statement s)
      (List.mem_append_left _ (List.mem_map_of_mem ?_)) ih
    rw [isLoop]
    exact List.mem_cons_self

/-- Hoisting leaves the functions where they are. -/
theorem undeclared {h : Func} (isFunc : d.kind = .func h) {n : Node} (stays : d.StaysIn t n) :
    d.StaysIn t n.undeclared := by
  induction stays with
  | here =>
    obtain ⟨id, kind, span⟩ := d
    cases isFunc
    exact .here
  | @inBlock b before after s whole unmarked _ ih =>
    have split : b.undeclared.statements = before.map Statement.undeclared ++
        s.undeclared :: after.map Statement.undeclared := by
      rw [Block.undeclared_eq, whole, List.map_append, List.map_cons]
    refine .inBlock split (fun x hx => ?_) ih
    obtain ⟨y, hy, rfl⟩ := List.mem_map.mp hx
    rw [Statement.undeclared_eq]
    exact unmarked y hy
  | @inStatement s c child unmarked _ ih =>
    have moved : c.undeclared ∈ (Node.statement s.undeclared).children := by
      simp only [Node.children, Statement.undeclared_eq, StatementKind.headers_undeclared,
        StatementKind.blocks_undeclared]
      rcases List.mem_append.mp child with child | child
      · obtain ⟨x, hx, rfl⟩ := List.mem_map.mp child
        exact List.mem_append_left _ (List.mem_map_of_mem (List.mem_map_of_mem hx))
      · obtain ⟨x, hx, rfl⟩ := List.mem_map.mp child
        exact List.mem_append_right _ (List.mem_map_of_mem (List.mem_map_of_mem hx))
    refine .inStatement moved (fun loops => ?_) ih
    rw [Statement.undeclared_eq] at loops ⊢
    rw [StatementKind.isLoop_undeclared] at loops
    exact unmarked loops
  | @inInit s init label test update body isLoop _ ih =>
    obtain ⟨id, kind, span⟩ := s
    cases isLoop
    have moved : (Statement.undeclared ⟨id, .loop label (.counting (some init) test update) body,
        span⟩).kind = .loop label (.counting (some init.undeclared) test
          (update.map Statement.undeclared)) body.undeclared := by
      cases update <;> rfl
    exact .inInit moved ih

/-- So does lowering of callbacks. -/
theorem relates_rewriting {h : Func} (isFunc : d.kind = .func h) (c : Callbacks) :
    c.Relates (.keeping fun _ => True) (fun _ _ _ => True)
      (fun _ s s' => s'.id = s.id ∧ (d.StaysIn t (.statement s) → d.StaysIn t (.statement s')))
      fun _ b b' => d.StaysIn t (.block b) → d.StaysIn t (.block b') where
  callback _ _ _ _ := ⟨trivial, trivial⟩
  expr _ _ := trivial
  block {_ id span ss ss'} same stays := by
    cases stays with
    | @inBlock _ before after s whole unmarked inside =>
      obtain ⟨before', s', after', rfl, first, here, -⟩ := exists_split_of_forall₂ same whole
      refine .inBlock rfl (fun x hx => ?_) (here.2 inside)
      obtain ⟨y, hy, sameId, -⟩ := exists_left_of_forall₂ first hx
      rw [sameId]
      exact unmarked y hy
  wait _ := ⟨rfl, fun stays => stays⟩
  statement {_ id span k k'} _ congruent := by
    refine ⟨rfl, fun stays => ?_⟩
    have alike := congruent.alike
    cases stays with
    | here =>
      cases isFunc
      cases congruent with
      | func same =>
        cases same
        exact .here
    | inStatement child unmarked inside =>
      rcases List.mem_append.mp child with child | child
      · obtain ⟨x, hx, rfl⟩ := List.mem_map.mp child
        obtain ⟨y, hy, -, keeps⟩ := exists_left_of_forall₂ alike.headers.flip hx
        exact .inStatement (List.mem_append_left _ (List.mem_map_of_mem hy))
          (fun loops => unmarked (alike.isLoop ▸ loops)) (keeps inside)
      · obtain ⟨x, hx, rfl⟩ := List.mem_map.mp child
        obtain ⟨y, hy, keeps⟩ := exists_left_of_forall₂ alike.blocks.flip hx
        exact .inStatement (List.mem_append_right _ (List.mem_map_of_mem hy))
          (fun loops => unmarked (alike.isLoop ▸ loops)) (keeps inside)
    | inInit isLoop inside =>
      cases isLoop
      cases congruent with
      | loop label head body =>
        cases head with
        | counting init test update =>
          cases init with
          | some keeps => exact .inInit rfl (keeps.2 inside)

end Statement.StaysIn

theorem Block.Lowered.staysIn {config : Config} {t : MarkTable} {counter : String} {b b' : Block}
    {ids : Multiset NodeId} (lowered : b.Lowered config counter b' ids) {d : Statement} {h : Func}
    (isFunc : d.kind = .func h) (stays : d.StaysIn t (.block b)) : d.StaysIn t (.block b') := by
  obtain ⟨names, s, s', -, run, -⟩ := lowered.rewritten
  let c : Callbacks := ⟨counter, config.runtime.defer, names⟩
  have keeps := ((Statement.StaysIn.relates_rewriting (t := t) isFunc c).block_rewrite b s trivial).2
  rw [run] at keeps
  exact keeps stays

/-! ## Rotated code -/

namespace Weaving

/-- A statement stays in a piece of code that is rotated. -/
def Leaves (t : MarkTable) (d : Statement) : Weaving → Prop
  | run ss _ _ => ∃ before s after, ss = before ++ s :: after ∧
      (∀ x ∈ before, t.hasAny x.id .split = false) ∧ d.StaysIn t (.statement s)
  | pivot s _ _ => t.hasAny s.id .split = true ∧ d.StaysIn t (.statement s)
  | arms as _ _ => ∃ a ∈ as, d.StaysIn t (.block a.body)
  | choice b _ _ => ∃ c ∈ b, d.StaysIn t (.block c)

/-- A statement is part of the own code of what a piece becomes. -/
def Retains (d : Statement) : Weaving → Prop
  | run _ _ out => ∃ s ∈ out, .statement d ∈ s.ownNodes
  | pivot _ _ wired => .statement d ∈ wired.ownNodes
  | arms _ _ out => ∃ a ∈ out, .statement d ∈ a.body.ownNodes
  | choice _ _ b => ∃ c ∈ b, .statement d ∈ c.ownNodes

end Weaving

section
variable {config : Config} {t : MarkTable} {d : Statement} {h : Func}

theorem Statement.StaysIn.run {b : Block} (stays : d.StaysIn t (.block b)) (after : Option Expr)
    (out : List Statement) : (Weaving.run b.statements after out).Leaves t d := by
  cases stays with
  | inBlock whole unmarked inside => exact ⟨_, _, _, whole, unmarked, inside⟩

/-- A statement that stays in another one, which is no loop, is in a block of it. -/
theorem Statement.StaysIn.exists_block {s : Statement} (isFunc : d.kind = .func h)
    (notFunc : s.kind.functions = []) (noLoop : s.kind.isLoop = false)
    (stays : d.StaysIn t (.statement s)) : ∃ b ∈ s.kind.blocks, d.StaysIn t (.block b) := by
  cases stays with
  | here =>
    rw [isFunc] at notFunc
    cases notFunc
  | inStatement child _ inside =>
    have noHeaders : s.kind.headers = [] := by
      cases kind : s.kind <;> first | rfl | (rw [kind] at noLoop; cases noLoop)
    rcases List.mem_append.mp child with child | child
    · rw [noHeaders] at child
      cases child
    · obtain ⟨b, hb, rfl⟩ := List.mem_map.mp child
      exact ⟨b, hb, inside⟩
  | inInit isLoop _ =>
    rw [isLoop] at noLoop
    cases noLoop

/-- A statement that stays in a marked loop comes before the first round. -/
theorem Statement.StaysIn.exists_init {s : Statement} {label : Option Ident} {head : LoopHead}
    {body : Block} (isFunc : d.kind = .func h) (isLoop : s.kind = .loop label head body)
    (marked : t.hasAny s.id .split = true) (stays : d.StaysIn t (.statement s)) :
    ∃ init test update, head = .counting (some init) test update ∧
      d.StaysIn t (.statement init) := by
  cases stays with
  | here =>
    rw [isFunc] at isLoop
    cases isLoop
  | inStatement _ unmarked _ =>
    rw [unmarked (by rw [isLoop]; rfl)] at marked
    cases marked
  | inInit known inside =>
    cases isLoop.symm.trans known
    exact ⟨_, _, _, rfl, inside⟩

/-- **What stays in a function is not moved into a routine.** -/
theorem Turned.retains {loops : LoopStack} {piece : Weaving} {ids : Multiset NodeId}
    {names : Multiset String} {made : Multiset Func} (isFunc : d.kind = .func h)
    (turned : Turned config t loops piece ids names made) (noLoops : loops = [])
    (leaves : piece.Leaves t d) : piece.Retains d := by
  -- only the rest after a split, and the rounds of a loop, are moved
  induction turned with
  | done | goOn =>
    obtain ⟨before, s, after, whole, -⟩ := leaves
    cases before <;> cases whole
  | @keep loops s ss out tail ids names made unmarked rest ih =>
    obtain ⟨before, x, after, whole, unmarked, inside⟩ := leaves
    cases before with
    | nil =>
      cases whole
      exact ⟨s, List.mem_cons_self, inside.mem_ownNodes⟩
    | cons y before =>
      cases whole
      obtain ⟨x, hx, mem⟩ := ih noLoops ⟨before, x, after, rfl,
        fun y hy => unmarked y (List.mem_cons_of_mem _ hy), inside⟩
      exact ⟨x, List.mem_cons_of_mem _ hx, mem⟩
  | jump isJump target =>
    subst noLoops
    cases LoopStack.mem_of_target? target
  | last marked pivot ih =>
    obtain ⟨before, x, after, whole, unmarked, inside⟩ := leaves
    cases before with
    | nil =>
      cases whole
      exact ⟨_, List.mem_cons_self, ih noLoops ⟨marked, inside⟩⟩
    | cons y before =>
      cases before <;> cases whole
  | split marked rest pivot _ ih =>
    obtain ⟨before, x, after, whole, unmarked, inside⟩ := leaves
    cases before with
    | nil =>
      cases whole
      exact ⟨_, List.mem_cons_of_mem _ List.mem_cons_self, ih noLoops ⟨marked, inside⟩⟩
    | cons y before =>
      cases whole
      rw [unmarked _ List.mem_cons_self] at marked
      cases marked
  | @block loops s body out after ids names made isBlock inner ih =>
    obtain ⟨-, stays⟩ := leaves
    obtain ⟨b, hb, inside⟩ := stays.exists_block isFunc (by rw [isBlock]; rfl) (by rw [isBlock]; rfl)
    rw [isBlock] at hb
    obtain rfl := List.mem_singleton.mp hb
    obtain ⟨x, hx, mem⟩ := ih noLoops (inside.run after out)
    exact Statement.mem_nodes_of_block List.mem_cons_self (Block.mem_nodes_of_statement hx mem)
  | @branch loops s condition yes no no' out after ids more names others made further isBranch inYes
      inNo ihYes ihNo =>
    obtain ⟨-, stays⟩ := leaves
    obtain ⟨b, hb, inside⟩ :=
      stays.exists_block isFunc (by rw [isBranch]; rfl) (by rw [isBranch]; rfl)
    rw [isBranch] at hb
    rcases List.mem_cons.mp hb with rfl | hb
    · obtain ⟨x, hx, mem⟩ := ihYes noLoops (inside.run after out)
      exact Statement.mem_nodes_of_block List.mem_cons_self (Block.mem_nodes_of_statement hx mem)
    · obtain ⟨c, hc, mem⟩ := ihNo noLoops ⟨b, Option.mem_toList.mp hb, inside⟩
      exact Statement.mem_nodes_of_block
        (List.mem_cons_of_mem _ (Option.mem_toList.mpr hc)) mem
  | @switch loops s subject arms arms' otherwise otherwise' after ids more names others made further
      isSwitch inArms inRest ihArms ihRest =>
    obtain ⟨-, stays⟩ := leaves
    obtain ⟨b, hb, inside⟩ :=
      stays.exists_block isFunc (by rw [isSwitch]; rfl) (by rw [isSwitch]; rfl)
    rw [isSwitch] at hb
    rcases List.mem_append.mp hb with hb | hb
    · obtain ⟨a, ha, rfl⟩ := List.mem_map.mp hb
      obtain ⟨a', ha', mem⟩ := ihArms noLoops ⟨a, ha, inside⟩
      exact Statement.mem_nodes_of_block
        (List.mem_append_left _ (List.mem_map_of_mem ha')) mem
    · obtain ⟨c, hc, mem⟩ := ihRest noLoops ⟨b, Option.mem_toList.mp hb, inside⟩
      exact Statement.mem_nodes_of_block
        (List.mem_append_right _ (Option.mem_toList.mpr hc)) mem
  | @wait loops s body body' out after counter value i given ids names made here isWait lowered
      resumes inner ih =>
    obtain ⟨-, stays⟩ := leaves
    obtain ⟨b, hb, inside⟩ := stays.exists_block isFunc (by rw [isWait]; rfl) (by rw [isWait]; rfl)
    rw [isWait] at hb
    obtain rfl := List.mem_singleton.mp hb
    obtain ⟨x, hx, mem⟩ := ih noLoops ((lowered.staysIn isFunc inside).run _ out)
    exact Statement.mem_nodes_of_block List.mem_cons_self
      (Block.mem_nodes_of_statement (List.mem_cons_of_mem _ hx) mem)
  | @loop loops s label head body out after routines parts i₁ j₁ k₁ i₂ j₂ k₂ x y z ids more names
      made isLoop inner pieces _ =>
    obtain ⟨marked, stays⟩ := leaves
    obtain ⟨init, test, update, rfl, inside⟩ := stays.exists_init isFunc isLoop marked
    have first : init ∈ parts.before := by
      cases pieces <;> exact List.mem_cons_self
    exact Statement.mem_nodes_of_block List.mem_cons_self (Block.mem_nodes_of_statement
      (List.mem_append_left _ first) inside.mem_ownNodes)
  | noArms =>
    obtain ⟨a, ha, -⟩ := leaves
    cases ha
  | @arm loops a arms arms' out after ids more names others made further inArm rest ihArm ihRest =>
    obtain ⟨b, hb, inside⟩ := leaves
    rcases List.mem_cons.mp hb with rfl | hb
    · obtain ⟨x, hx, mem⟩ := ihArm noLoops (inside.run after out)
      exact ⟨_, List.mem_cons_self, Block.mem_nodes_of_statement hx mem⟩
    · obtain ⟨a', ha', mem⟩ := ihRest noLoops ⟨b, hb, inside⟩
      exact ⟨a', List.mem_cons_of_mem _ ha', mem⟩
  | @chosen loops b out after ids names made inner ih =>
    obtain ⟨c, hc, inside⟩ := leaves
    cases hc
    obtain ⟨x, hx, mem⟩ := ih noLoops (inside.run after out)
    exact ⟨_, rfl, Block.mem_nodes_of_statement hx mem⟩
  | missing | absent =>
    obtain ⟨c, hc, -⟩ := leaves
    cases hc

/-- A statement that is wired declares nothing. -/
theorem Turned.declared_of_pivot {loops : LoopStack} {s wired : Statement} {after : Option Expr}
    {ids : Multiset NodeId} {names : Multiset String} {made : Multiset Func}
    (turned : Turned config t loops (.pivot s after wired) ids names made) :
    s.kind.declared = [] := by
  cases turned with
  | block isBlock => rw [isBlock]; rfl
  | branch isBranch => rw [isBranch]; rfl
  | switch isSwitch => rw [isSwitch]; rfl
  | wait isWait => rw [isWait]; rfl
  | loop isLoop => rw [isLoop]; rfl

section
variable {loops : LoopStack} {tail : Option Expr} {ids : Multiset NodeId} {names : Multiset String}
  {made : Multiset Func}

/-- A declaration is kept where it stands. -/
theorem Turned.keeps_declaration {x : Ident} {ss out : List Statement}
    (declares : d.kind = .declare x none)
    (turned : Turned config t loops (.run (d :: ss) tail out) ids names made) :
    ∃ rest, out = d :: rest ∧ Turned config t loops (.run ss tail rest) ids names made := by
  have notEmpty : d.kind.declared ≠ [] := by simp [declares, StatementKind.declared]
  cases turned with
  | keep unmarked rest => exact ⟨_, rfl, rest⟩
  | jump isJump target =>
    rw [declares] at isJump
    cases isJump
  | split _ rest pivot => exact absurd pivot.declared_of_pivot notEmpty
  | last _ pivot => exact absurd pivot.declared_of_pivot notEmpty

theorem Turned.keeps_declarations {ds ss out : List Statement}
    (declares : ∀ d ∈ ds, ∃ x, d = .declaration d.id x)
    (turned : Turned config t loops (.run (ds ++ ss) tail out) ids names made) :
    ∃ rest, out = ds ++ rest ∧ Turned config t loops (.run ss tail rest) ids names made := by
  induction ds generalizing out with
  | nil => exact ⟨out, rfl, turned⟩
  | cons d ds ih =>
    obtain ⟨x, same⟩ := declares d List.mem_cons_self
    obtain ⟨rest, rfl, later⟩ := keeps_declaration (x := x) (by rw [same]; rfl) turned
    obtain ⟨rest, rfl, last⟩ := ih (fun d hd => declares d (List.mem_cons_of_mem _ hd)) later
    exact ⟨rest, rfl, last⟩

end

end

/-! ## Functions -/

namespace Func

/-- A name declared with `let` is a parameter or is hoisted. -/
theorem exists_declaredNames {f : Func} {n : Node} (hn : n ∈ f.body.ownNodes) {x : Ident}
    (declares : n.declared? = some x) :
    x.name ∈ f.params.map Ident.name ∨ ∃ y ∈ f.declaredNames, y.name = x.name := by
  by_cases param : x.name ∈ f.params.map Ident.name
  · exact .inl param
  · refine .inr (Ident.exists_firsts (List.mem_filter.mpr ⟨?_, ?_⟩))
    · exact List.mem_filterMap.mpr ⟨n, hn, declares⟩
    · simpa using param

/-- **Every name that a function's own code brings in is bound by the function itself after hoisting
and rotation**, not only by a routine, unless it is the name of a function and rotation moves the
statement that declares it. -/
theorem binds_of_lower {config : Config} {t : MarkTable} {f g : Func} {s s' : Supply}
    (reserved : s.names.reserved = config.reservedPrefix) (proper : s.ids.Proper)
    (ran : f.lower ⟨config, t⟩ s = (.ok g, s')) (enough : s'.ids.exhausted = false) {d : Statement}
    (hd : .statement d ∈ f.body.ownNodes)
    (stays : d.kind.declared = [] → d.StaysIn t (.block f.body)) {x : Ident}
    (introduces : x ∈ d.kind.introduced) : x.name ∈ g.bindings := by
  obtain ⟨_, -, ds, out, given, rest, made, -, each, rfl, turned⟩ :=
    (f.gives_lower config t s s' g reserved ran).gave proper enough
  obtain ⟨after, rfl, moved⟩ := turned.keeps_declarations fun d hd =>
    (each.exists_of_mem hd).imp fun _ h => h.2
  -- a node of the new body that declares the name
  suffices found : x.name ∈ f.params.map Ident.name ∨
      ∃ s ∈ ds ++ after, ∃ n ∈ s.ownNodes, x.name ∈ n.declares by
    rcases found with param | ⟨s, hs, n, hn, declares⟩
    · exact List.mem_append_left _ param
    · exact List.mem_append_right _
        (List.mem_flatMap.mpr ⟨n, Block.mem_nodes_of_statement hs hn, declares⟩)
  obtain ⟨id, kind, span⟩ := d
  cases kind with
  | declare name init =>
    obtain rfl := List.mem_singleton.mp introduces
    rcases exists_declaredNames hd (x := x) rfl with param | ⟨y, hy, same⟩
    · exact .inl param
    · obtain ⟨d, hd, declaration⟩ := each.exists_declaration hy
      refine .inr ⟨d, List.mem_append_left _ hd, .statement d, Node.self_mem_ownNodes _, ?_⟩
      rw [declaration, ← same]
      exact List.mem_singleton_self y.name
  | func h =>
    have stays := Statement.StaysIn.undeclared (d := ⟨id, .func h, span⟩) rfl (stays rfl)
    obtain ⟨s, hs, mem⟩ := moved.retains rfl rfl (stays.run none after)
    exact .inr ⟨s, List.mem_append_right _ hs, _, mem, List.mem_map_of_mem introduces⟩
  | _ => cases introduces

end Func

/-- The body is `if (c) { function h() { } wait { a(defer()); } let x; function g() { } } g();`. -/
def lateFunction : Func :=
  let name (n : String) : Ident := ⟨n, default⟩
  let call : Expr := .call (.ident (name "a")) [.defer [] default] default
  let h : Statement := ⟨12, .func ⟨13, some (name "h"), [], ⟨14, [], default⟩, default⟩, default⟩
  let waits : Statement := ⟨4, .wait ⟨5, [⟨6, .expr call, default⟩], default⟩, default⟩
  let x : Statement := ⟨7, .declare (name "x") none, default⟩
  let g : Statement := ⟨8, .func ⟨9, some (name "g"), [], ⟨10, [], default⟩, default⟩, default⟩
  let branch : Statement :=
    ⟨2, .branch (.ident (name "c")) ⟨3, [h, waits, x, g], default⟩ none, default⟩
  let use : Statement := ⟨11, .expr (.callNamed "g" default), default⟩
  ⟨0, some (name "f"), [name "c"], ⟨1, [branch, use], default⟩, default⟩

theorem lateFunction_lower : lateFunction.LowersTo {} 14 fun g => !g.bindings.contains "g" :=
  Func.lowersTo_of_run (by decide) (by decide +kernel)

theorem binds_of_lower_lateFunction : ∃ marking g s',
    lateFunction.marking {} = .ok marking ∧
    lateFunction.lower ⟨{}, marking.table⟩ ⟨.above 14, .new "__"⟩ = (.ok g, s') ∧
    "x" ∈ g.bindings ∧ "h" ∈ g.bindings := by
  obtain ⟨-, marking, g, s', ok, ran, enough, -⟩ := lateFunction_lower
  have own (d : Statement) (hd : .statement d ∈ lateFunction.body.ownNodes)
      (stays : d.kind.declared = [] → d.StaysIn marking.table (.block lateFunction.body)) {x : Ident}
      (introduces : x ∈ d.kind.introduced) : x.name ∈ g.bindings :=
    Func.binds_of_lower rfl (IdSupply.proper_above 14) ran enough hd stays introduces
  refine ⟨marking, g, s', ok, ran, ?_, ?_⟩
  · exact own ⟨7, .declare ⟨"x", default⟩ none, default⟩ (by
      simp [lateFunction, Block.ownNodes, Block.nodes, Statement.listNodes, Statement.nodes,
        StatementKind.nodes, Func.nodes]) (fun none => by cases none) (x := ⟨"x", default⟩)
      (List.mem_singleton_self _)
  · let h : Statement :=
      ⟨12, .func ⟨13, some ⟨"h", default⟩, [], ⟨14, [], default⟩, default⟩, default⟩
    have stays : h.StaysIn marking.table (.block lateFunction.body) :=
      .inFirst rfl (.inStatement List.mem_cons_self (fun loops => by cases loops) (.inFirst rfl .here))
    exact own h stays.mem_ownNodes (fun _ => stays) (x := ⟨"h", default⟩)
      (List.mem_singleton_self _)

/-- The function `g` is bound by `f`, and after rotation only by a routine of `f`. -/
theorem lateFunction_unbound : "g" ∈ lateFunction.bindings ∧ ∃ marking g s',
    lateFunction.marking {} = .ok marking ∧
    lateFunction.lower ⟨{}, marking.table⟩ ⟨.above 14, .new "__"⟩ = (.ok g, s') ∧
    "g" ∉ g.bindings := by
  obtain ⟨-, marking, g, s', ok, ran, -, unbound⟩ := lateFunction_lower
  exact ⟨by decide, marking, g, s', ok, ran, by simpa using unbound⟩

end WaitDefer
