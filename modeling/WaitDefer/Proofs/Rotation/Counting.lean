import WaitDefer.Proofs.Marking.Attribution
import WaitDefer.Proofs.Rotation.Callbacks
import WaitDefer.Proofs.Rotation.Hoisted

/-!
# Callbacks lowered one by one

* `Callbacks.counting`: lowering that counts; `Block.counts_rewrite`: it lowers what
  `Callbacks.rewriting` does, and counts the callbacks that belong to the block;
* `Expr.CallsBack`: an expression whose callbacks have become calls on a counter;
* `Block.handsOn_rewrite`: lowering makes them so, in the statements that belong to the block, and
  leaves the wait-blocks inside as they are.
-/

namespace WaitDefer

/-! ## Counting -/

/-- The place of a callback. -/
def Node.deferSpan? : Node → Option Span
  | .expr (.defer _ span) => some span
  | _ => none

namespace Callbacks

/-- Lowers the callbacks that belong to one wait-block, and adds their number to a count. -/
def counting (c : Callbacks) : Rewriting (IdSupply × Nat) where
  func f _ := return f
  statement s kind :=
    match s.kind with
    | .wait _ => return s
    | _ => do return { s with kind := ← kind }
  expr e inner :=
    match e with
    | .defer bindings span => fun (ids, n) =>
      let r := c.lower bindings span ids
      (r.1, r.2, n + 1)
    | _ => inner

end Callbacks

/-- A step does what another does, and adds `k` to a count. -/
def Counts {α : Type} (k : Nat) (x : StateM (IdSupply × Nat) α) (y : StateM IdSupply α) : Prop :=
  ∀ ids n, x (ids, n) = ((y ids).1, (y ids).2, n + k)

namespace Counts

variable {α β : Type} {k k' : Nat} {x : StateM (IdSupply × Nat) α} {y : StateM IdSupply α}

theorem pure (a : α) : Counts 0 (Pure.pure a) (Pure.pure a) := fun _ _ => rfl

theorem map {f : α → β} (hx : Counts k x y) : Counts k (f <$> x) (f <$> y) := by
  intro ids n
  rw [StateM.map_apply, StateM.map_apply, hx ids n]

theorem cast (hx : Counts k x y) (same : k = k') : Counts k' x y := same ▸ hx

/-- Lowering side by side with lowering that counts. -/
def tally : Tally (IdSupply × Nat) IdSupply Unit Nat where
  Of x y P := ∀ ids n, ∃ k, x (ids, n) = ((y ids).1, (y ids).2, n + k) ∧ P () k (y ids).1
  pure h := fun _ _ => ⟨0, rfl, h ()⟩
  bind {_ _ _ _ _ y _ _} hx hf := by
    intro ids n
    obtain ⟨k, first, p⟩ := hx ids n
    obtain ⟨k', second, q⟩ := hf (y ids).1 (y ids).2 (n + k)
    refine ⟨k + k', ?_, q k p⟩
    rw [StateM.bind_apply, StateM.bind_apply, first, ← Nat.add_assoc]
    exact second

theorem tally_iff : tally.Of x y (fun _ m _ => m = k) ↔ Counts k x y := by
  constructor
  · intro h ids n
    obtain ⟨_, same, rfl⟩ := h ids n
    exact same
  · exact fun h ids n => ⟨k, h ids n, rfl⟩

end Counts

section
variable {c : Callbacks}

theorem Expr.deferSpans_eq {e : Expr} (notDefer : e.isDefer = false) :
    e.deferSpans = e.operands.flatMap deferSpans := by
  have picked (e : Expr) : e.deferSpans = e.ownNodes.filterMap Node.deferSpan? := rfl
  have names : (e.names.map Node.ident).filterMap Node.deferSpan? = [] := by
    rw [List.filterMap_eq_nil_iff]
    intro n hn
    obtain ⟨x, -, rfl⟩ := List.mem_map.mp hn
    rfl
  have functions : e.functions.flatMap (Func.nodes fun _ => false) = [] := by
    cases e with
    | func f => obtain ⟨_, _, _, _, _⟩ := f; simp [Expr.functions, Func.nodes]
    | _ => rfl
  have self : Node.deferSpan? (.expr e) = none := by
    cases e <;> first | rfl | cases notDefer
  rw [picked, ownNodes, nodes_parts, List.filterMap_cons_none self, functions, List.append_nil,
    List.filterMap_append, names, List.append_nil, List.filterMap_flatMap]
  rfl

/-- The number of callbacks that belong to a part of a statement or of an expression. Those of a
function belong to the function. -/
def Node.callbacks : Node → Nat
  | .expr e => e.deferSpans.length
  | .func _ => 0
  | n => n.ownDefers.length

theorem Counts.of_tallied {m : Nat} {ps ps' : List Node}
    (h : Tallied (fun m e _ => m = e.deferSpans.length)
      (fun m s _ => m = (Node.statement s).ownDefers.length)
      (fun m b _ => m = (Node.block b).ownDefers.length) (fun m _ _ => m = 0) m ps ps') :
    m = (ps.map Node.callbacks).sum := by
  induction h with
  | nil => rfl
  | expr first _ ih | statement first _ ih | block first _ ih | func first _ ih =>
    rw [List.map_cons, List.sum_cons, ← ih, first]
    rfl

theorem Func.counts_rewrite (f : Func) : Counts 0 (f.rewrite c.counting) (f.rewrite c.rewriting) := by
  obtain ⟨id, name, params, body, span⟩ := f
  exact .pure _

theorem Expr.counts_rewrite (e : Expr) :
    Counts e.deferSpans.length (e.rewrite c.counting) (e.rewrite c.rewriting) := by
  induction e using Expr.inductOn with
  | step e ih =>
    cases isDefer : e.isDefer with
    | true =>
      cases e with
      | defer bindings span =>
        intro ids n
        simp [rewrite, Callbacks.counting, Callbacks.rewriting, deferSpans, ownNodes, nodes]
      | _ => cases isDefer
    | false =>
      have whole := tally_rewrite Counts.tally c.counting c.rewriting
        (S := fun _ m s _ => m = (Node.statement s).ownDefers.length)
        (B := fun _ m b _ => m = (Node.block b).ownDefers.length)
        (fun inner => by cases e <;> first | rfl | cases isDefer)
        (fun inner => by cases e <;> first | rfl | cases isDefer)
        (fun o ho => Counts.tally_iff.mpr (ih o ho)) fun f _ => Counts.tally_iff.mpr f.counts_rewrite
      refine Counts.tally_iff.mp (Tally.weaken _ whole fun _ m e' both => ?_)
      rw [Counts.of_tallied both.2, deferSpans_eq isDefer, List.length_flatMap, components]
      simp [Node.callbacks, Function.comp_def]

/-- The callbacks counted in a statement are those of its parts. -/
theorem StatementKind.counts_rewrite {kind : StatementKind}
    (headers : ∀ h ∈ kind.headers, Counts (Node.statement h).ownDefers.length
      (h.rewrite c.counting) (h.rewrite c.rewriting))
    (blocks : ∀ b ∈ kind.blocks, Counts (Node.block b).ownDefers.length
      (b.rewrite c.counting) (b.rewrite c.rewriting)) :
    Counts (((kind.tests ++ kind.operands).map fun e => e.deferSpans.length).sum +
        (kind.headers.map fun h => (Node.statement h).ownDefers.length).sum +
        (kind.blocks.map fun b => (Node.block b).ownDefers.length).sum)
      (kind.rewrite c.counting) (kind.rewrite c.rewriting) := by
  have whole := tally_rewrite Counts.tally c.counting c.rewriting
    (fun e _ => Counts.tally_iff.mpr e.counts_rewrite)
    (fun h hh => Counts.tally_iff.mpr (headers h hh))
    (fun b hb => Counts.tally_iff.mpr (blocks b hb)) fun f _ => Counts.tally_iff.mpr f.counts_rewrite
  refine Counts.tally_iff.mp (Tally.weaken _ whole fun _ m kind' both => ?_)
  rw [Counts.of_tallied both.2, (kind.components_perm.map _).sum_eq]
  simp [Node.callbacks, Function.comp_def, Nat.add_assoc]

theorem Statement.counts_rewrite {s : Statement}
    (headers : ∀ h ∈ s.kind.headers, Counts (Node.statement h).ownDefers.length
      (h.rewrite c.counting) (h.rewrite c.rewriting))
    (blocks : ∀ b ∈ s.kind.blocks, Counts (Node.block b).ownDefers.length
      (b.rewrite c.counting) (b.rewrite c.rewriting)) :
    Counts (Node.statement s).ownDefers.length (s.rewrite c.counting) (s.rewrite c.rewriting) := by
  obtain ⟨id, kind, span⟩ := s
  cases isWait : kind.isWait with
  | true =>
    rw [Node.ownDefers_wait ⟨id, kind, span⟩ isWait]
    cases kind <;> first | exact .pure _ | cases isWait
  | false =>
    have rewritten {σ : Type} {r : Rewriting σ}
        (keeps : ∀ inner, r.statement ⟨id, kind, span⟩ inner = do return ⟨id, ← inner, span⟩) :
        rewrite r ⟨id, kind, span⟩ = (fun k => ⟨id, k, span⟩) <$> kind.rewrite r := by
      rw [rewrite, keeps]
      rfl
    have counting := rewritten (r := c.counting) fun inner => by
      cases kind <;> first | rfl | cases isWait
    have plain := rewritten (r := c.rewriting) fun inner => by
      cases kind <;> first | rfl | cases isWait
    rw [counting, plain]
    refine (StatementKind.counts_rewrite headers blocks).map.cast ?_
    rw [Node.ownDefers_statement _ isWait, Node.children, List.length_append, List.length_flatMap,
      List.length_flatMap]
    simp only [List.map_append, List.sum_append, List.map_map, Function.comp_def, Nat.add_assoc]

/-- Lowering counts the callbacks that belong to a block, and changes nothing else. -/
theorem Block.counts_rewrite (b : Block) :
    Counts (Node.block b).ownDefers.length (b.rewrite c.counting) (b.rewrite c.rewriting) := by
  induction b using Block.inductOn (Q := fun s => Counts (Node.statement s).ownDefers.length
    (s.rewrite c.counting) (s.rewrite c.rewriting)) with
  | block b ih =>
    obtain ⟨id, ss, span⟩ := b
    have statements := Statement.tally_listRewrite Counts.tally c.counting c.rewriting
      (E := fun _ m e _ => m = e.deferSpans.length)
      (B := fun _ m b _ => m = (Node.block b).ownDefers.length) (F := fun _ m _ _ => m = 0)
      fun s hs => Counts.tally_iff.mpr (ih s hs)
    refine Counts.tally_iff.mp (Tally.andReturn _ statements fun _ m ss' both => ?_)
    rw [Counts.of_tallied both.2, Node.ownDefers_block, List.length_flatMap, List.map_map]
    rfl
  | statement s headers blocks => exact Statement.counts_rewrite headers blocks

end

/-! ## Calls on a counter -/

/-- The parameters of a callback's function, one for each bound name. -/
def Config.callbackParams (config : Config) (bindings : List Ident) : List Ident :=
  bindings.mapIdx fun i b => ⟨config.reservedPrefix ++ "a" ++ toString i, b.span⟩

section
variable (config : Config) (counter : String)

/-- An expression and what it is when its callbacks are calls on a counter. One that binds names
hands over a function which assigns its parameters to them, in order. -/
inductive Expr.CallsBack : Expr → Expr → Prop
  | bare {span : Span} : CallsBack (.defer [] span)
      (.call (.memberNamed counter config.runtime.defer span) [] span)
  | binding {bindings : List Ident} {span : Span} {i j : NodeId} {assigns : List Statement}
      (some : bindings ≠ [])
      (inOrder : List.Forall₂ (fun p s => ∃ k, s = ⟨k, .assign (.ident p.1) (.ident p.2), p.1.span⟩)
        (bindings.zip (config.callbackParams bindings)) assigns) :
      CallsBack (.defer bindings span) (.call (.memberNamed counter config.runtime.defer span)
        [.func ⟨i, none, config.callbackParams bindings, ⟨j, assigns, span⟩, span⟩] span)
  | leaf {e : Expr} (isLeaf : e.operands = []) (notDefer : e.isDefer = false) : CallsBack e e
  | unary {op : UnaryOp} {operand operand' : Expr} {span : Span} (h : CallsBack operand operand') :
      CallsBack (.unary op operand span) (.unary op operand' span)
  | binary {op : BinaryOp} {left left' right right' : Expr} {span : Span}
      (h : CallsBack left left') (h' : CallsBack right right') :
      CallsBack (.binary op left right span) (.binary op left' right' span)
  | call {callee callee' : Expr} {arguments arguments' : List Expr} {span : Span}
      (h : CallsBack callee callee') (h' : List.Forall₂ CallsBack arguments arguments') :
      CallsBack (.call callee arguments span) (.call callee' arguments' span)
  | member {object object' : Expr} {property : Ident} {span : Span} (h : CallsBack object object') :
      CallsBack (.member object property span) (.member object' property span)

/-- The same statement, with its own callbacks as calls on a counter. -/
def Statement.CallsBack (x x' : Statement) : Prop :=
  x'.id = x.id ∧ List.Forall₂ (Expr.CallsBack config counter) (x.kind.tests ++ x.kind.operands)
    (x'.kind.tests ++ x'.kind.operands)

/-- The statements that belong to a node have their callbacks as calls on a counter, and the
wait-blocks inside are as they were. -/
structure Node.HandsOn (n n' : Node) : Prop where
  direct : List.Forall₂ (Statement.CallsBack config counter) n.direct n'.direct
  waits : ∀ w : Statement, w.kind.isWait = true → .statement w ∈ n.ownNodes →
    .statement w ∈ n'.ownNodes

end

section
variable {config : Config} {c : Callbacks}

theorem Callbacks.params_eq (reserved : c.names.reserved = config.reservedPrefix)
    (bindings : List Ident) : c.params 0 bindings = config.callbackParams bindings := by
  have numbered (index : Nat) : c.params index bindings = bindings.mapIdx fun i b =>
      ⟨config.reservedPrefix ++ "a" ++ toString (index + i), b.span⟩ := by
    induction bindings generalizing index with
    | nil => rfl
    | cons b bs ih =>
      rw [params, ih, List.mapIdx_cons, NameSupply.argument, NameSupply.name, reserved]
      simp only [Nat.add_zero, Nat.add_assoc, Nat.add_comm 1]
  simpa [Config.callbackParams] using numbered 0

theorem Callbacks.assigns_inOrder (bindings params : List Ident) (ids : IdSupply) :
    List.Forall₂ (fun p s => ∃ k, s = ⟨k, .assign (.ident p.1) (.ident p.2), p.1.span⟩)
      (bindings.zip params) (assignments bindings params ids).1 := by
  unfold assignments
  induction bindings.zip params generalizing ids with
  | nil => exact .nil
  | cons p ps ih =>
    rw [List.mapM_cons]
    exact .cons ⟨_, rfl⟩ (ih _)

theorem Callbacks.callsBack_lower (reserved : c.names.reserved = config.reservedPrefix)
    (method : c.method = config.runtime.defer) (bindings : List Ident) (span : Span)
    (ids : IdSupply) :
    (Expr.defer bindings span).CallsBack config c.counter (c.lower bindings span ids).1 := by
  cases bindings with
  | nil =>
    rw [lower, method]
    exact .bare
  | cons b bs =>
    have inOrder := assigns_inOrder (b :: bs) (c.params 0 (b :: bs)) ids
    simp only [c.params_eq reserved] at inOrder
    simp only [lower, method, c.params_eq reserved]
    exact .binding (List.cons_ne_nil b bs) inOrder

/-- Code that differs in expressions whose callbacks are calls on a counter is such code itself. -/
theorem Expr.Congruent.callsBack {e e' : Expr}
    (h : e.Congruent (CallsBack config c.counter) Eq e') (notDefer : e.isDefer = false) :
    e.CallsBack config c.counter e' := by
  cases h with
  | leaf _ isLeaf => exact .leaf isLeaf notDefer
  | unary op span operand => exact .unary operand
  | binary op span left right => exact .binary left right
  | call span callee arguments => exact .call callee arguments
  | member property span object => exact .member object
  | func same =>
    subst same
    exact .leaf rfl rfl

namespace Node

theorem handsOn_list {ns ns' : List Node} (h : List.Forall₂ (HandsOn config c.counter) ns ns') :
    List.Forall₂ (Statement.CallsBack config c.counter) (ns.flatMap direct) (ns'.flatMap direct) ∧
      ∀ w : Statement, w.kind.isWait = true → (∃ n ∈ ns, statement w ∈ n.ownNodes) →
        ∃ n ∈ ns', statement w ∈ n.ownNodes := by
  induction h with
  | nil => exact ⟨.nil, by simp⟩
  | cons first _ ih =>
    obtain ⟨direct, waits⟩ := ih
    refine ⟨List.rel_append first.direct direct, ?_⟩
    rintro w isWait ⟨n, hn, hw⟩
    rcases List.mem_cons.mp hn with rfl | hn
    · exact ⟨_, List.mem_cons_self, first.waits w isWait hw⟩
    · obtain ⟨n', hn', hw'⟩ := waits w isWait ⟨n, hn, hw⟩
      exact ⟨n', List.mem_cons_of_mem _ hn', hw'⟩

theorem handsOn_block {b b' : Block}
    (h : List.Forall₂ (HandsOn config c.counter) (block b).children (block b').children) :
    HandsOn config c.counter (block b) (block b') := by
  obtain ⟨inside, waits⟩ := handsOn_list h
  constructor
  · rw [direct_eq, direct_eq]
    exact inside
  · intro w isWait hw
    rcases (mem_ownNodes (i := w.id) rfl).mp hw with same | below
    · cases same
    · obtain ⟨n, hn, hw⟩ := waits w isWait below
      exact ownNodes_of_child hn hw

theorem handsOn_statement {s s' : Statement} (notWait : s.kind.isWait = false)
    (notWait' : s'.kind.isWait = false) (here : s.CallsBack config c.counter s')
    (h : List.Forall₂ (HandsOn config c.counter) (statement s).children (statement s').children) :
    HandsOn config c.counter (statement s) (statement s') := by
  obtain ⟨inside, waits⟩ := handsOn_list h
  constructor
  · rw [direct_statement s notWait, direct_statement s' notWait']
    exact .cons here inside
  · intro w isWait hw
    rcases (mem_ownNodes (i := w.id) rfl).mp hw with same | below
    · cases same
      simp [isWait] at notWait
    · obtain ⟨n, hn, hw⟩ := waits w isWait below
      exact ownNodes_of_child hn hw

end Node

/-- Lowering callbacks makes them calls on the counter. -/
theorem Callbacks.relates_handsOn (reserved : c.names.reserved = config.reservedPrefix)
    (method : c.method = config.runtime.defer) : c.Relates (.keeping fun _ => True)
      (fun _ e e' => e.CallsBack config c.counter e')
      (fun _ s s' => Node.HandsOn config c.counter (.statement s) (.statement s'))
      fun _ b b' => Node.HandsOn config c.counter (.block b) (.block b') where
  callback bindings span ids _ := ⟨trivial, c.callsBack_lower reserved method bindings span ids⟩
  expr notDefer congruent := congruent.callsBack notDefer
  block same := by
    refine Node.handsOn_block ?_
    rw [Node.children, Node.children, List.forall₂_map_left_iff, List.forall₂_map_right_iff]
    exact same
  wait {i s body} isWait := by
    constructor
    · rw [Node.direct_wait s (by rw [isWait]; rfl)]
      refine .cons ⟨rfl, ?_⟩ .nil
      rw [isWait]
      exact .nil
    · exact fun w _ hw => hw
  statement notWait congruent := by
    have alike := congruent.alike
    refine Node.handsOn_statement notWait (alike.isWait.trans notWait)
      ⟨rfl, List.rel_append alike.tests alike.operands⟩ (List.rel_append ?_ ?_)
    · rw [List.forall₂_map_left_iff, List.forall₂_map_right_iff]
      exact alike.headers
    · rw [List.forall₂_map_left_iff, List.forall₂_map_right_iff]
      exact alike.blocks

/-- **Lowering the callbacks of a wait-block** makes those of its own statements calls on its
counter, and leaves the wait-blocks inside as they are. -/
theorem Block.handsOn_rewrite (reserved : c.names.reserved = config.reservedPrefix)
    (method : c.method = config.runtime.defer) (b : Block) (ids : IdSupply) :
    Node.HandsOn config c.counter (.block b) (.block (b.rewrite c.rewriting ids).1) :=
  ((Callbacks.relates_handsOn reserved method).block_rewrite b ids trivial).2

end

end WaitDefer
