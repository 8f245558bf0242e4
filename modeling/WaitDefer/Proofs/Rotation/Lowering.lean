import WaitDefer.Proofs.Marking.Table
import WaitDefer.Proofs.Rotation.Callbacks
import WaitDefer.Proofs.Rotation.Drawing
import WaitDefer.Proofs.Tree.Bags
import WaitDefer.Rotation.Check

/-!
# The body of a wait-block without its callbacks

Lowering the callbacks of a wait-block replaces expressions and leaves everything else in place:

* `Expr.Clean`, `Node.Bare`: no callback is left, outside of wait-blocks;
* `Node.traits`: what is to be found again in rotated code;
* `Block.Lowers`, `Block.draws_rewrite`: the body of a wait-block without its callbacks is bare and
  has the same traits and the same plain form.
-/

namespace WaitDefer

section
variable (t : MarkTable) (max : NodeId)

/-- What expressions are made of when their callbacks are lowered: no callback is left, and made-up
functions only assign. -/
def Node.Done : Node → Prop
  | .block b => ∀ s ∈ b.statements, t.hasAny s.id .split = false ∧
    ∃ target value, s.kind = .assign target value
  | .statement s => ∃ target value, s.kind = .assign target value
  | .expr e => e.isDefer = false
  | .func _ | .ident _ => True

/-- No callback is left in an expression. -/
def Expr.Clean (e : Expr) : Prop := ∀ n ∈ e.nodes fun g => max < g.id, n.Done t

/-- The functions in own code were there before. -/
structure Node.Raw (n : Node) : Prop where
  exprs : ∀ f, .expr (.func f) ∈ n.ownNodes → f.id ≤ max
  statements : ∀ s, .statement s ∈ n.ownNodes → ∀ f ∈ s.kind.functions, f.id ≤ max

/-- Outside of wait-blocks no callback is left. -/
inductive Node.Bare : Node → Prop
  | block {b : Block} (statements : ∀ s ∈ b.statements, Bare (.statement s)) : Bare (.block b)
  | wait {s : Statement} {body : Block} (isWait : s.kind = .wait body)
      (raw : (Node.block body).Raw max) : Bare (.statement s)
  | other {s : Statement} (notWait : s.kind.isWait = false)
      (exprs : ∀ e ∈ s.kind.tests ++ s.kind.operands, e.Clean t max)
      (functions : ∀ f ∈ s.kind.functions, f.id ≤ max)
      (headers : ∀ h ∈ s.kind.headers, Bare (.statement h))
      (blocks : ∀ b ∈ s.kind.blocks, Bare (.block b)) : Bare (.statement s)

end

/-! ## Expressions -/

section
variable {t : MarkTable} {max : NodeId}

theorem Expr.done_of_ne_defer {e : Expr} (h : ∀ bindings span, e ≠ .defer bindings span) :
    (Node.expr e).Done t := by
  cases e with
  | defer bindings span => exact absurd rfl (h bindings span)
  | _ => rfl

theorem Expr.clean_of_operands {e : Expr} (notDefer : ∀ bindings span, e ≠ .defer bindings span)
    (functions : ∀ f, e = .func f → f.id ≤ max) (operands : ∀ o ∈ e.operands, o.Clean t max) :
    e.Clean t max := by
  intro n hn
  rw [Expr.nodes_eq] at hn
  simp only [List.mem_cons, List.mem_append, List.mem_flatMap] at hn
  rcases hn with rfl | ⟨o, ho, hn⟩ | hn
  · exact done_of_ne_defer notDefer
  · exact operands o ho n hn
  · cases e with
    | ident name =>
      rw [List.mem_singleton] at hn
      subst hn
      trivial
    | func f =>
      simp only [Func.nodes_of_old (functions f rfl)] at hn
      cases hn
    | defer bindings span => exact absurd rfl (notDefer bindings span)
    | _ => cases hn

theorem Expr.clean_of_own {e : Expr} (raw : ∀ f, .expr (.func f) ∈ e.ownNodes → f.id ≤ max)
    (noDefer : ∀ bindings span, .expr (.defer bindings span) ∉ e.ownNodes) : e.Clean t max := by
  induction e using Expr.inductOn with
  | step e ih =>
    have own : ∀ o ∈ e.operands, ∀ n ∈ o.ownNodes, n ∈ e.ownNodes := by
      intro o ho n hn
      rw [ownNodes, Expr.nodes_eq]
      exact List.mem_cons_of_mem _ (List.mem_append_left _ (List.mem_flatMap.mpr ⟨o, ho, hn⟩))
    have self : Node.expr e ∈ e.ownNodes := by
      rw [ownNodes, Expr.nodes_eq]
      exact List.mem_cons_self
    refine clean_of_operands ?_ ?_ fun o ho =>
      ih o ho (fun f hf => raw f (own o ho _ hf)) fun b s hb => noDefer b s (own o ho _ hb)
    · rintro bindings span rfl
      exact noDefer bindings span self
    · rintro f rfl
      exact raw f self

theorem Expr.clean_memberNamed (object property : String) (span : Span) :
    (Expr.memberNamed object property span).Clean t max := by
  intro n hn
  simp only [memberNamed, nodes, List.mem_cons, List.not_mem_nil, or_false] at hn
  rcases hn with rfl | rfl | rfl
  · rfl
  · rfl
  · trivial

/-- Fresh ids are above the old ones, and unmarked. -/
structure Unused (t : MarkTable) (max : NodeId) (fresh : NodeId → Prop) : Prop where
  above : ∀ i, fresh i → max < i
  unmarked : ∀ i, fresh i → t.get i = .none

theorem Statement.done_assign {i : NodeId} {target value : Ident} {span : Span} :
    ∀ n ∈ (⟨i, .assign (.ident target) (.ident value), span⟩ : Statement).nodes fun g => max < g.id,
      n.Done t := by
  intro n hn
  simp only [Statement.nodes, StatementKind.nodes, Expr.nodes, List.cons_append, List.nil_append,
    List.mem_cons, List.not_mem_nil, or_false] at hn
  rcases hn with rfl | rfl | rfl | rfl | rfl
  · exact ⟨_, _, rfl⟩
  · rfl
  · trivial
  · rfl
  · trivial

theorem Node.flaws_block_of_unmarked {b : Block}
    (unmarked : ∀ s ∈ b.statements.dropLast, t.hasAny s.id .split = false) :
    (Node.block b).flaws t = [] := by
  have none : (b.statements.dropLast.filter fun s => t.hasAny s.id .split) = [] := by
    rw [List.filter_eq_nil_iff]
    intro s hs
    simp [unmarked s hs]
  simp [flaws, none]

/-- The check finds no flaw in such nodes. -/
theorem Node.Done.flaws {n : Node} (h : n.Done t) : n.flaws t = [] := by
  cases n with
  | block b => exact flaws_block_of_unmarked fun s hs => (h s (List.dropLast_subset _ hs)).1
  | statement s =>
    obtain ⟨id, kind, span⟩ := s
    obtain ⟨target, value, rfl⟩ := h
    rfl
  | expr e =>
    cases e with
    | defer => cases h
    | _ => rfl
  | func _ | ident _ => rfl

theorem MarkTable.hasAny_of_none {i : NodeId} (h : t.get i = .none) (m : Marks) :
    t.hasAny i m = false := by
  simp [hasAny, h, Marks.meets, Marks.none]

/-! ## Traits -/

/-- What is to be found again in rotated code: the id of a statement, what an unmarked statement
says, and what a marked one tests. -/
inductive Trait
  | id (i : NodeId)
  | content (s : Statement)
  | test (e : Expr)

/-- Where traits are looked for: the settings and marks, the largest old id, and the functions that
are entered. -/
structure Scope where
  config : Config
  table : MarkTable
  max : NodeId
  enter : Func → Bool

section
variable (w : Scope)

/-- The traits of one node. A statement that is neither marked nor old was made up, and only what it
tests may come from elsewhere. -/
def Node.traits : Node → Multiset Trait
  | .statement s =>
    let tests : Multiset Trait := bagOf (fun e => {.test (e.plain w.config)}) s.kind.tests
    if w.table.hasAny s.id .split then {.id s.id} + tests
    else if w.max < s.id then tests
    else {.id s.id} + {.content (s.plain w.config)}
  | _ => 0

def Expr.traits (e : Expr) : Multiset Trait := bagOf (Node.traits w) (e.nodes w.enter)

def Func.traits (f : Func) : Multiset Trait := bagOf (Node.traits w) (f.nodes w.enter)

def Statement.traits (s : Statement) : Multiset Trait := bagOf (Node.traits w) (s.nodes w.enter)

def Block.traits (b : Block) : Multiset Trait := bagOf (Node.traits w) (b.nodes w.enter)

/-- The traits of a statement without those of the statements inside it, but with those of functions
inside it. -/
def Statement.share (s : Statement) : Multiset Trait :=
  (Node.statement s).traits w + bagOf (Expr.traits w) s.kind.tests +
    bagOf (Expr.traits w) s.kind.operands + bagOf (Func.traits w) s.kind.functions

/-- The traits in own code, each with the statement it belongs to. -/
def Node.labels : Node → Multiset (NodeId × Trait)
  | .statement s => (s.share w).map (Prod.mk s.id)
  | _ => 0

def Statement.labelled (s : Statement) : Multiset (NodeId × Trait) :=
  bagOf (Node.labels w) (Node.statement s).ownNodes

def Block.labelled (b : Block) : Multiset (NodeId × Trait) :=
  bagOf (Node.labels w) (Node.block b).ownNodes

end

section
variable {w : Scope}

theorem Node.traits_idents (is : List Ident) : bagOf (traits w) (is.map .ident) = 0 :=
  bagOf_eq_zero fun n hn => by
    obtain ⟨i, -, rfl⟩ := List.mem_map.mp hn
    rfl

theorem Node.labels_of_id?_eq_none {n : Node} (h : n.id? = none) : n.labels w = 0 := by
  cases n <;> first | rfl | cases h

theorem Expr.traits_eq (e : Expr) :
    e.traits w = bagOf (Expr.traits w) e.operands + bagOf (Func.traits w) e.functions := by
  rw [traits, nodes_parts]
  simp only [bagOf_cons, bagOf_append, bagOf_flatMap, Node.traits_idents, Node.traits, zero_add,
    add_zero]
  rfl

theorem Block.traits_eq (b : Block) : b.traits w = bagOf (Statement.traits w) b.statements := by
  rw [traits, nodes_eq, bagOf_cons, bagOf_flatMap]
  exact zero_add _

theorem Statement.traits_eq (s : Statement) :
    s.traits w = s.share w + bagOf (Statement.traits w) s.kind.headers +
      bagOf (Block.traits w) s.kind.blocks := by
  rw [traits, nodes_eq, bagOf_cons, bagOf_perm (StatementKind.nodes_perm w.enter s.kind)]
  simp only [bagOf_append, bagOf_flatMap, Node.traits_idents, share]
  change _ + (0 + bagOf (Expr.traits w) _ + bagOf (Expr.traits w) _ + bagOf (Statement.traits w) _ +
    bagOf (Block.traits w) _ + bagOf (Func.traits w) _) = _
  abel

/-- The traits of a function that is entered. -/
theorem Func.traits_of_enter {f : Func} (h : w.enter f = true) :
    f.traits w = f.body.traits w := by
  obtain ⟨id, name, params, body, span⟩ := f
  rw [traits, nodes, if_pos h]
  simp only [bagOf_cons, bagOf_append, Node.traits_idents]
  simp [Node.traits, Block.traits]

theorem Func.traits_of_not_enter {f : Func} (h : w.enter f = false) : f.traits w = 0 := by
  obtain ⟨id, name, params, body, span⟩ := f
  rw [traits, nodes, h]
  rfl

theorem Block.labelled_eq (b : Block) :
    b.labelled w = bagOf (Statement.labelled w) b.statements := by
  rw [labelled, Node.ownNodes, ownNodes, nodes_eq, bagOf_cons, bagOf_flatMap]
  simp only [Node.labels, zero_add]
  rfl

theorem Statement.labelled_eq (s : Statement) :
    s.labelled w = (s.share w).map (Prod.mk s.id) +
      bagOf (Statement.labelled w) s.kind.headers + bagOf (Block.labelled w) s.kind.blocks := by
  have exprs : ∀ es : List Expr,
      bagOf (Node.labels w) (es.flatMap (Expr.nodes fun _ => false)) = 0 := fun es =>
    bagOf_eq_zero fun n hn => by
      obtain ⟨e, -, hn⟩ := List.mem_flatMap.mp hn
      exact Node.labels_of_id?_eq_none (e.id?_of_mem_ownNodes n hn)
  have functions : s.kind.functions.flatMap (Func.nodes fun _ => false) = [] := by
    rw [List.flatMap_eq_nil_iff]
    rintro ⟨id, name, params, body, span⟩ -
    simp [Func.nodes]
  have idents : bagOf (Node.labels w) (s.kind.declared.map .ident) = 0 :=
    bagOf_eq_zero fun n hn => by
      obtain ⟨i, -, rfl⟩ := List.mem_map.mp hn
      rfl
  rw [labelled, Node.ownNodes, ownNodes, nodes_eq, bagOf_cons,
    bagOf_perm (StatementKind.nodes_perm _ s.kind)]
  simp only [bagOf_append, exprs, functions, idents, bagOf_nil, zero_add, add_zero,
    bagOf_flatMap, ← add_assoc]
  rfl

/-- Without their labels, the traits in own code are all there are. -/
theorem Statement.map_labelled (s : Statement) : (s.labelled w).map Prod.snd = s.traits w := by
  induction s using Statement.inductOn (P := fun b => (b.labelled w).map Prod.snd = b.traits w) with
  | block b ih =>
    rw [Block.labelled_eq, Block.traits_eq, map_bagOf]
    exact bagOf_congr_mem ih
  | statement s headers blocks =>
    rw [labelled_eq, traits_eq, Multiset.map_add, Multiset.map_add, map_bagOf, map_bagOf,
      bagOf_congr_mem headers, bagOf_congr_mem blocks, Multiset.map_map]
    simp

theorem Node.traits_of_plain_eq {s s' : Statement}
    (same : s'.plain w.config = s.plain w.config) :
    (Node.statement s').traits w = (Node.statement s).traits w := by
  have id : s'.id = s.id := by
    rw [← s'.plain_id w.config, same, s.plain_id]
  have tests : s'.kind.tests.map (Expr.plain w.config) =
      s.kind.tests.map (Expr.plain w.config) := by
    rw [← StatementKind.tests_plain, ← StatementKind.tests_plain, ← s'.plain_kind, same,
      s.plain_kind]
  have tests' := congrArg (bagOf fun e => {Trait.test e}) tests
  simp only [bagOf_map] at tests'
  simp only [traits, id, same, tests']

end

/-! ## Lowered callbacks -/

open Build

theorem Callbacks.draws_assignments (bindings params : List Ident) :
    Draws (assignments bindings params) fun fresh ss => ∀ s ∈ ss, fresh s.id ∧
      ∃ target value span, s = ⟨s.id, .assign (.ident target) (.ident value), span⟩ := by
  unfold assignments
  induction bindings.zip params with
  | nil => exact .pure fun _ s hs => by cases hs
  | cons p ps ih =>
    rw [List.mapM_cons]
    refine (draws_statement _ _).bind fun s => ih.bind fun ss => .pure ?_
    rintro fresh rest ⟨i, hi, rfl⟩ x hx
    rcases List.mem_cons.mp hx with rfl | hx
    · exact ⟨hi, _, _, _, rfl⟩
    · exact rest x hx

theorem Callbacks.draws_lower (config : Config) (t : MarkTable) (max : NodeId) (c : Callbacks)
    (bindings : List Ident) (span : Span) :
    Draws (c.lower bindings span) fun fresh e => Unused t max fresh →
      e.Clean t max ∧ ∀ enter, e.traits ⟨config, t, max, enter⟩ = 0 := by
  have callee : (Expr.memberNamed c.counter c.method span).Clean t max :=
    Expr.clean_memberNamed _ _ _
  unfold lower
  split
  · refine .pure fun fresh _ => ⟨Expr.clean_of_operands (by simp) (by simp) fun o ho => ?_, ?_⟩
    · rw [Expr.operands, List.mem_singleton] at ho
      exact ho ▸ callee
    · simp [Expr.traits_eq, Expr.memberNamed, Expr.operands, Expr.functions]
  · refine (draws_assignments _ _).bind fun ss => ?_
    refine (draws_closure _ _ _).bind fun e => .pure ?_
    rintro fresh ⟨i, j, hi, hj, rfl⟩ assigns unused
    refine ⟨Expr.clean_of_operands (by simp) (by simp) fun o ho => ?_, fun enter => ?_⟩
    · simp only [Expr.operands, List.mem_cons, List.not_mem_nil, or_false] at ho
      rcases ho with rfl | rfl
      · exact callee
      · -- the function is new, so the check looks into it
        intro n hn
        simp only [Expr.nodes, Func.nodes, unused.above i hi, decide_true, ↓reduceIte,
          Option.toList_none, List.map_nil, List.nil_append, Block.nodes, Statement.listNodes_eq,
          List.mem_cons, List.mem_append, List.mem_map, List.mem_flatMap] at hn
        rcases hn with rfl | rfl | ⟨p, -, rfl⟩ | rfl | ⟨s, hs, hn⟩
        · rfl
        · trivial
        · trivial
        · intro s hs
          obtain ⟨hi, target, value, span, same⟩ := assigns s hs
          have kind := congrArg Statement.kind same
          exact ⟨MarkTable.hasAny_of_none (unused.unmarked s.id hi) _, _, _, kind⟩
        · obtain ⟨-, target, value, span, same⟩ := assigns s hs
          rw [same] at hn
          exact Statement.done_assign n hn
    · have statements : bagOf (Statement.traits ⟨config, t, max, enter⟩) ss = 0 := by
        refine bagOf_eq_zero fun s hs => ?_
        obtain ⟨new, target, value, span, same⟩ := assigns s hs
        have old := MarkTable.hasAny_of_none (unused.unmarked _ new) .split
        rw [same]
        simp [Statement.traits_eq, Statement.share, Node.traits, Expr.traits_eq, old,
          unused.above _ new, StatementKind.tests, StatementKind.operands, StatementKind.functions,
          StatementKind.headers, StatementKind.blocks, Expr.operands, Expr.functions]
      have closure : ∀ f : Func, f.body.statements = ss →
          f.traits ⟨config, t, max, enter⟩ = 0 := by
        intro f body
        cases entered : enter f with
        | true => rw [Func.traits_of_enter entered, Block.traits_eq, body, statements]
        | false => rw [Func.traits_of_not_enter entered]
      simp [Expr.traits_eq, Expr.memberNamed, Expr.operands, Expr.functions, closure]

/-! ## Lowered code -/

section
variable (config : Config) (t : MarkTable) (max : NodeId)

/-- An expression without its callbacks. -/
structure Expr.Lowers (e e' : Expr) : Prop where
  clean : (∀ f, .expr (.func f) ∈ e.ownNodes → f.id ≤ max) → e'.Clean t max
  traits : ∀ enter, e'.traits ⟨config, t, max, enter⟩ = e.traits ⟨config, t, max, enter⟩

/-- A statement without its callbacks. -/
structure Statement.Lowers (s s' : Statement) : Prop where
  plain : s'.plain config = s.plain config
  bare : (Node.statement s).Raw max → (Node.statement s').Bare t max
  labelled : ∀ enter, s'.labelled ⟨config, t, max, enter⟩ = s.labelled ⟨config, t, max, enter⟩

/-- A block without its callbacks. -/
structure Block.Lowers (b b' : Block) : Prop where
  plain : b'.plain config = b.plain config
  bare : (Node.block b).Raw max → (Node.block b').Bare t max
  labelled : ∀ enter, b'.labelled ⟨config, t, max, enter⟩ = b.labelled ⟨config, t, max, enter⟩

end

theorem Expr.Alike.lowers {e e' : Expr} (h : e.Alike (Expr.Lowers config t max) Eq e')
    (notDefer : e.isDefer = false) : e.Lowers config t max e' := by
  have functions : e.functions = e'.functions := by simpa using h.functions
  constructor
  · intro raw
    have own : ∀ o ∈ e.operands, ∀ n ∈ o.ownNodes, n ∈ e.ownNodes := by
      intro o ho n hn
      rw [ownNodes, Expr.nodes_eq]
      exact List.mem_cons_of_mem _ (List.mem_append_left _ (List.mem_flatMap.mpr ⟨o, ho, hn⟩))
    refine clean_of_operands ?_ ?_ fun o ho => ?_
    · rintro bindings span rfl
      have := h.isDefer
      rw [notDefer] at this
      cases this
    · rintro f rfl
      have isFunc : e = .func f := by
        cases e <;> simp_all [Expr.functions]
      exact raw f (by simp [isFunc, ownNodes, Expr.nodes])
    · obtain ⟨o₀, ho₀, lowers⟩ := exists_left_of_forall₂ h.operands ho
      exact lowers.clean fun f hf => raw f (own o₀ ho₀ _ hf)
  · intro enter
    rw [traits_eq, traits_eq, functions, bagOf_congr h.operands fun a b l => l.traits enter]

section
variable {c : Callbacks}

/-- Lowering callbacks draws ids, whatever it makes. -/
theorem Callbacks.relates_anything (c : Callbacks) :
    c.Relates draws (fun _ _ _ => True) (fun _ _ _ => True) fun _ _ _ => True where
  callback bindings span :=
    (c.draws_lower default default 0 bindings span).weaken fun _ _ _ => trivial
  expr _ _ := trivial
  block _ := trivial
  wait _ := trivial
  statement _ _ := trivial

theorem Expr.draws_anything (c : Callbacks) (e : Expr) :
    Draws (e.rewrite c.rewriting) fun _ _ => True := c.relates_anything.expr_rewrite e

theorem Block.draws_anything (c : Callbacks) (b : Block) :
    Draws (b.rewrite c.rewriting) fun _ _ => True := c.relates_anything.block_rewrite b

/-- The functions in the parts of a statement were there before. -/
structure StatementKind.RawParts (max : NodeId) (kind : StatementKind) : Prop where
  exprs : ∀ e ∈ kind.tests ++ kind.operands, ∀ f, .expr (.func f) ∈ e.ownNodes → f.id ≤ max
  functions : ∀ f ∈ kind.functions, f.id ≤ max
  headers : ∀ h ∈ kind.headers, (Node.statement h).Raw max
  blocks : ∀ b ∈ kind.blocks, (Node.block b).Raw max

theorem Node.Raw.of_child {n c : Node} (h : n.Raw max) (hc : c ∈ n.children) : c.Raw max :=
  ⟨fun f hf => h.exprs f (ownNodes_of_child hc hf),
    fun s hs => h.statements s (ownNodes_of_child hc hs)⟩

theorem Node.raw_block {b : Block} :
    (Node.block b).Raw max ↔ ∀ s ∈ b.statements, (Node.statement s).Raw max := by
  constructor
  · exact fun h s hs => h.of_child (List.mem_map_of_mem hs)
  · intro h
    have own : ∀ n ∈ (Node.block b).ownNodes, n = .block b ∨
        ∃ s ∈ b.statements, n ∈ (Node.statement s).ownNodes := by
      intro n hn
      rw [ownNodes, Block.ownNodes, Block.nodes_eq, List.mem_cons, List.mem_flatMap] at hn
      exact hn
    constructor
    · intro f hf
      obtain same | ⟨s, hs, hf⟩ := own _ hf
      · cases same
      · exact (h s hs).exprs f hf
    · intro x hx
      obtain same | ⟨s, hs, hx⟩ := own _ hx
      · cases same
      · exact (h s hs).statements x hx

theorem Node.raw_statement {s : Statement} :
    (Node.statement s).Raw max ↔ s.kind.RawParts max := by
  have own : ∀ n, n ∈ (Node.statement s).ownNodes ↔
      n = .statement s ∨ n ∈ s.kind.nodes fun _ => false := by
    intro n
    rw [ownNodes, Statement.ownNodes, Statement.nodes_eq, List.mem_cons]
  have parts : ∀ n, n ∈ (s.kind.nodes fun _ => false) ↔ _ :=
    fun n => (StatementKind.nodes_perm _ s.kind).mem_iff
  simp only [List.mem_append, List.mem_flatMap] at parts
  constructor
  · intro h
    refine ⟨fun e he f hf => h.exprs f ((own _).mpr (.inr ((parts _).mpr ?_))),
      h.statements s (self_mem_ownNodes _),
      fun x hx => h.of_child (List.mem_append_left _ (List.mem_map_of_mem hx)),
      fun b hb => h.of_child (List.mem_append_right _ (List.mem_map_of_mem hb))⟩
    rcases List.mem_append.mp he with he | he
    · exact .inl (.inl (.inl (.inl (.inr ⟨e, he, hf⟩))))
    · exact .inl (.inl (.inl (.inr ⟨e, he, hf⟩)))
  · intro h
    have noFunc : ∀ n (f : Func), n ∉ f.nodes fun _ => false := by
      rintro n ⟨id, name, params, body, span⟩
      simp [Func.nodes]
    constructor
    · intro f hf
      obtain same | hf := (own _).mp hf
      · cases same
      · rcases (parts _).mp hf with ((((hf | ⟨e, he, hf⟩) | ⟨e, he, hf⟩) | ⟨x, hx, hf⟩) |
          ⟨b, hb, hf⟩) | ⟨g, hg, hf⟩
        · simp at hf
        · exact h.exprs e (List.mem_append_left _ he) f hf
        · exact h.exprs e (List.mem_append_right _ he) f hf
        · exact (h.headers x hx).exprs f hf
        · exact (h.blocks b hb).exprs f hf
        · exact absurd hf (noFunc _ g)
    · intro x hx
      obtain same | hx := (own _).mp hx
      · cases same
        exact h.functions
      · rcases (parts _).mp hx with ((((hx | ⟨e, he, hx⟩) | ⟨e, he, hx⟩) | ⟨y, hy, hx⟩) |
          ⟨b, hb, hx⟩) | ⟨g, hg, hx⟩
        · simp at hx
        · cases e.id?_of_mem_ownNodes _ hx
        · cases e.id?_of_mem_ownNodes _ hx
        · exact (h.headers y hy).statements x hx
        · exact (h.blocks b hb).statements x hx
        · exact absurd hx (noFunc _ g)

/-- A statement whose parts are lowered is lowered. -/
theorem StatementKind.Alike.lowers {id : NodeId} {span : Span} {k k' : StatementKind}
    (h : k.Alike (Expr.Lowers config t max) (Statement.Lowers config t max)
      (Block.Lowers config t max) Eq k') (notWait : k.isWait = false)
    (plain : k'.plain config = k.plain config) :
    Statement.Lowers config t max ⟨id, k, span⟩ ⟨id, k', span⟩ := by
  have functions : k.functions = k'.functions := by simpa using h.functions
  have same : Statement.plain config ⟨id, k', span⟩ = Statement.plain config ⟨id, k, span⟩ := by
    rw [Statement.plain_eq, Statement.plain_eq, plain]
  refine ⟨same, fun raw => ?_, fun enter => ?_⟩
  · have raw := Node.raw_statement.mp raw
    refine .other (h.isWait.trans notWait) (fun e he => ?_)
      (fun f hf => raw.functions f (by rwa [functions])) (fun x hx => ?_) fun b hb => ?_
    · obtain ⟨e₀, he₀, lowers⟩ := exists_left_of_forall₂ (List.rel_append h.tests h.operands) he
      exact lowers.clean (raw.exprs e₀ he₀)
    · obtain ⟨x₀, hx₀, lowers⟩ := exists_left_of_forall₂ h.headers hx
      exact lowers.bare (raw.headers x₀ hx₀)
    · obtain ⟨b₀, hb₀, lowers⟩ := exists_left_of_forall₂ h.blocks hb
      exact lowers.bare (raw.blocks b₀ hb₀)
  · have share : Statement.share ⟨config, t, max, enter⟩ ⟨id, k', span⟩ =
        Statement.share ⟨config, t, max, enter⟩ ⟨id, k, span⟩ := by
      simp only [Statement.share, Node.traits_of_plain_eq (w := ⟨config, t, max, enter⟩) same,
        ← functions, bagOf_congr h.tests fun a b l => l.traits enter,
        bagOf_congr h.operands fun a b l => l.traits enter]
    rw [Statement.labelled_eq, Statement.labelled_eq, share,
      bagOf_congr h.headers fun a b l => l.labelled enter,
      bagOf_congr h.blocks fun a b l => l.labelled enter]

/-- Lowering callbacks leaves code clean and bare, and nothing is lost. -/
theorem Callbacks.relates_lowers (t : MarkTable) (max : NodeId) (fits : c.Fits config) :
    c.Relates draws
      (fun fresh e e' => e'.plain config = e.plain config ∧
        (Unused t max fresh → e.Lowers config t max e'))
      (fun fresh s s' => s'.plain config = s.plain config ∧
        (Unused t max fresh → s.Lowers config t max s'))
      fun fresh b b' => b'.plain config = b.plain config ∧
        (Unused t max fresh → b.Lowers config t max b') where
  callback bindings span := by
    refine draws_of.mpr (((c.draws_lower config t max bindings span).also
      (Q := fun e' => e'.plain config = .defer bindings span)
      (plain_lower fits bindings span)).weaken fun fresh e' h => ?_)
    refine ⟨h.2, fun unused => ⟨fun _ => (h.1 unused).1, fun enter => ?_⟩⟩
    simp [(h.1 unused).2 enter, Expr.traits_eq, Expr.operands, Expr.functions]
  expr notDefer congruent := by
    refine ⟨(congruent.imp (fun _ _ _ same => same.1) fun _ _ same => same).plain,
      fun unused => Expr.Alike.lowers (Expr.Congruent.alike ?_) notDefer⟩
    exact congruent.imp (fun _ _ _ same => same.2 unused) fun _ _ same => same
  block {fresh id span ss ss'} same := by
    have plain : Block.plain config ⟨id, ss', span⟩ = Block.plain config ⟨id, ss, span⟩ := by
      rw [Block.plain_eq, Block.plain_eq, map_eq_of_forall₂ (same.imp fun _ _ same => same.1)]
    refine ⟨plain, fun unused => ⟨plain, fun raw => .block fun s hs => ?_, fun enter => ?_⟩⟩
    · obtain ⟨s₀, hs₀, -, lowers⟩ := exists_left_of_forall₂ same hs
      exact (lowers unused).bare (raw.of_child (List.mem_map_of_mem hs₀))
    · rw [Block.labelled_eq, Block.labelled_eq]
      exact bagOf_congr same fun _ _ same => (same.2 unused).labelled enter
  wait {fresh s body} isWait := by
    have child : .block body ∈ (Node.statement s).children := by
      simp [Node.children, isWait, StatementKind.blocks]
    exact ⟨rfl, fun _ => ⟨rfl, fun raw => .wait isWait (raw.of_child child), fun _ => rfl⟩⟩
  statement notWait congruent := by
    have plain := (congruent.imp (fun _ _ _ same => same.1) (fun _ _ _ same => same.1)
      (fun _ _ _ same => same.1) fun _ _ same => same).plain
    refine ⟨by rw [Statement.plain_eq, Statement.plain_eq, plain], fun unused =>
      StatementKind.Alike.lowers (StatementKind.Congruent.alike ?_) notWait plain⟩
    exact congruent.imp (fun _ _ _ same => same.2 unused) (fun _ _ _ same => same.2 unused)
      (fun _ _ _ same => same.2 unused) fun _ _ same => same

/-- Lowering the callbacks of a wait-block leaves its body bare, and nothing is lost. -/
theorem Block.draws_rewrite (t : MarkTable) (max : NodeId) (fits : c.Fits config) (b : Block) :
    Draws (b.rewrite c.rewriting) fun fresh b' =>
      Unused t max fresh → b.Lowers config t max b' :=
  (draws_of.mp ((Callbacks.relates_lowers t max fits).block_rewrite b)).weaken fun _ _ both =>
    both.2

end

end

end WaitDefer
