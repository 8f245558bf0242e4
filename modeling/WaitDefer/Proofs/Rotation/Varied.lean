import WaitDefer.Proofs.Marking.Varied
import WaitDefer.Proofs.Rotation.Lower
import WaitDefer.Proofs.Rotation.Recursive
import WaitDefer.Proofs.Rotation.Taking
import WaitDefer.Proofs.Tree.Paired

/-!
# Rotation of code that varies

Rotating code that varies in ids and names, with supplies that do, gives code that varies:

* `Lockstep`: supplies whose ids and names vary, as long as none runs out;
* `Callbacks.paired_block`: this for callbacks;
* `Block.paired_rotateTo`: this for blocks.
-/

namespace WaitDefer

open Build Rotation

/-! ## Supplies -/

/-- Ids have run out, if that counts. -/
def IdSupply.Spent (counts : Prop) (s : IdSupply) : Prop := counts ∧ s.exhausted = true

/-- Supplies of two runs that correspond: what they hand out varies, and they correspond again,
unless ids run out in the second. -/
structure Lockstep (v : Variation) where
  counts : Prop
  ids : IdSupply → IdSupply → Prop
  names : NameSupply → NameSupply → Prop
  fresh {s s' : IdSupply} : ids s s' → IdSupply.Spent counts s'.fresh.2 ∨
    ids s.fresh.2 s'.fresh.2 ∧ v.id s.fresh.1 s'.fresh.1
  advance {n n' : NameSupply} : names n n' → names n.advance n'.advance
  made {n n' : NameSupply} : names n n' → ∀ stem ∈ NameSupply.stems,
    v.declares (n.name stem n.next) (n'.name stem n'.next) ∧
      v.refers (n.name stem n.next) (n'.name stem n'.next)
  argument {n n' : NameSupply} : names n n' → ∀ index,
    n'.argument index = n.argument index ∧ v.refers (n.argument index) (n.argument index)

variable {v : Variation} {counts : Prop} {t : MarkTable}

/-- The supplies of ids as states of two runs. -/
abbrev Lockstep.draws (L : Lockstep v) : Pairing IdSupply IdSupply := ⟨L.ids, IdSupply.Spent L.counts⟩

/-! ## Made-up code -/

instance lasting_fresh : Lasting (IdSupply.Spent counts) IdSupply.fresh := by
  refine ⟨fun s spent => ⟨spent.1, ?_⟩⟩
  unfold IdSupply.fresh
  split
  · exact spent.2
  · rfl

instance lasting_statement (kind : StatementKind) (span : Span) :
    Lasting (IdSupply.Spent counts) (statement kind span) := by
  unfold statement
  infer_instance

instance lasting_block (ss : List Statement) (span : Span) :
    Lasting (IdSupply.Spent counts) (block ss span) := by
  unfold block
  infer_instance

instance lasting_exprStatement (e : Expr) :
    Lasting (IdSupply.Spent counts) (exprStatement e) := by
  unfold exprStatement
  infer_instance

instance lasting_func (name : Option String) (params : List Ident) (ss : List Statement)
    (span : Span) : Lasting (IdSupply.Spent counts) (func name params ss span) := by
  unfold func
  infer_instance

instance lasting_routine (name : String) (ss : List Statement) (span : Span) :
    Lasting (IdSupply.Spent counts) (routine name ss span) := by
  unfold routine
  infer_instance

instance lasting_closure (params : List Ident) (ss : List Statement) (span : Span) :
    Lasting (IdSupply.Spent counts) (Build.closure params ss span) := by
  unfold Build.closure
  infer_instance

instance lasting_branch (condition : Expr) (yes : Block) (no : Statement) (span : Span) :
    Lasting (IdSupply.Spent counts) (branch condition yes no span) := by
  unfold branch
  infer_instance

namespace Lockstep

variable (L : Lockstep v)

theorem paired_fresh : Paired L.draws v.id IdSupply.fresh IdSupply.fresh :=
  fun _ _ same => L.fresh same

variable {ss ss' : List Statement} (span : Span)

theorem paired_statement {k k' : StatementKind} (undeclared : k.declared = [])
    (h : k.Congruent (Expr.Variant v) (Statement.Variant v) (Block.Variant v) (Func.Variant v) k') :
    Paired L.draws (Statement.Variant v) (statement k span) (statement k' span) :=
  L.paired_fresh.bind fun _ _ id => .pure (.parts span id undeclared h)

theorem paired_block (h : List.Forall₂ (Statement.Variant v) ss ss') :
    Paired L.draws (Block.Variant v) (block ss span) (block ss' span) :=
  L.paired_fresh.bind fun _ _ id => .pure (.block span id h)

theorem paired_exprStatement {e e' : Expr} (h : e.Variant v e') :
    Paired L.draws (Statement.Variant v) (exprStatement e) (exprStatement e') := by
  rw [exprStatement, exprStatement, h.span]
  exact L.paired_statement e.span rfl (.expr h)

theorem paired_func {name name' : Option String} (params : List Ident)
    (named : Option.Rel v.declares name name') (h : List.Forall₂ (Statement.Variant v) ss ss') :
    Paired L.draws (Func.Variant v) (func name params ss span) (func name' params ss' span) := by
  refine L.paired_fresh.bind fun _ _ id => (L.paired_block span h).bind fun _ _ body =>
    .pure (.mk id ?_ body)
  cases named with
  | none => exact .none
  | some h => exact .some ⟨h, rfl⟩

theorem paired_routine {name name' : String} (named : v.declares name name')
    (h : List.Forall₂ (Statement.Variant v) ss ss') :
    Paired L.draws (Statement.Variant v) (routine name ss span) (routine name' ss' span) :=
  (L.paired_func span [] (.some named) h).bind fun _ _ f => L.paired_statement span rfl (.func f)

theorem paired_closure (params : List Ident) (h : List.Forall₂ (Statement.Variant v) ss ss') :
    Paired L.draws (Expr.Variant v) (closure params ss span) (closure params ss' span) :=
  (L.paired_func span params .none h).bind fun _ _ f => .pure (.parts rfl (.func f))

theorem paired_branch {condition condition' : Expr} {yes yes' : Block} {no no' : Statement}
    (test : condition.Variant v condition') (first : yes.Variant v yes')
    (second : no.Variant v no') :
    Paired L.draws (Statement.Variant v) (branch condition yes no span)
      (branch condition' yes' no' span) :=
  (L.paired_block span (.cons second .nil)).bind fun _ _ no =>
    L.paired_statement span rfl (.branch test first (.some no))

end Lockstep

theorem Expr.variant_callNamed {name name' : String} (h : v.refers name name') (span : Span) :
    (callNamed name span).Variant v (callNamed name' span) :=
  .parts rfl (.call span (.ident ⟨h, rfl⟩) .nil)

theorem Expr.variant_memberNamed {object object' : String} (h : v.refers object object')
    (property : String) (span : Span) :
    (memberNamed object property span).Variant v (memberNamed object' property span) :=
  .parts rfl (.member _ span (.ident ⟨h, rfl⟩))

/-! ## Callbacks -/

namespace Callbacks

/-- Callbacks whose counters and arguments vary. -/
structure Varies (L : Lockstep v) (c c' : Callbacks) : Prop where
  counter : v.refers c.counter c'.counter
  method : c'.method = c.method
  names : L.names c.names c'.names

variable {L : Lockstep v} {c c' : Callbacks}

/-- The parameters are the same. -/
theorem Varies.params (h : c.Varies L c') {bindings bindings' : List Ident}
    (same : List.Forall₂ (Ident.Varies v.refers) bindings bindings') (index : Nat) :
    c'.params index bindings' = c.params index bindings ∧
      ∀ p ∈ c.params index bindings, v.refers p.name p.name := by
  induction same generalizing index with
  | nil => exact ⟨rfl, by simp [Callbacks.params]⟩
  | cons first _ ih =>
    obtain ⟨rest, refers⟩ := ih (index + 1)
    obtain ⟨argument, refersFirst⟩ := L.argument h.names index
    rw [Callbacks.params, Callbacks.params, rest, argument, first.span]
    exact ⟨rfl, List.forall_mem_cons.mpr ⟨refersFirst, refers⟩⟩

theorem paired_assignments {bindings bindings' params : List Ident}
    (same : List.Forall₂ (Ident.Varies v.refers) bindings bindings')
    (fixed : ∀ p ∈ params, v.refers p.name p.name) :
    Paired L.draws (List.Forall₂ (Statement.Variant v)) (assignments bindings params)
      (assignments bindings' params) := by
  refine .list ?_
  induction same generalizing params with
  | nil => exact .nil
  | cons first _ ih =>
    cases params with
    | nil => exact .nil
    | cons p ps =>
      rw [List.zip_cons_cons, List.zip_cons_cons]
      refine .cons ?_ (ih fun q hq => fixed q (List.mem_cons_of_mem _ hq))
      rw [first.span]
      exact L.paired_statement _ rfl
        (.assign (.ident first) (.ident ⟨fixed p List.mem_cons_self, rfl⟩))

theorem Varies.paired_lower (h : c.Varies L c') {bindings bindings' : List Ident}
    (same : List.Forall₂ (Ident.Varies v.refers) bindings bindings') (span : Span) :
    Paired L.draws (Expr.Variant v) (c.lower bindings span) (c'.lower bindings' span) := by
  have callee := Expr.variant_memberNamed h.counter c.method span
  obtain ⟨params, fixed⟩ := h.params same 0
  have empty : bindings'.isEmpty = bindings.isEmpty := by cases same <;> rfl
  unfold lower
  simp only [h.method, params, empty]
  split
  · exact .pure (.parts rfl (.call span callee .nil))
  · exact (paired_assignments same fixed).bind fun _ _ ss =>
      (L.paired_closure span _ ss).bind fun _ _ f =>
        .pure (.parts rfl (.call span callee (.cons f .nil)))

instance lasting_expr (e : Expr) : Lasting (IdSupply.Spent counts) (e.rewrite c.rewriting) :=
  ⟨fun s spent => ⟨spent.1, (e.draws_anything c s).1 spent.2⟩⟩

instance lasting_block (b : Block) : Lasting (IdSupply.Spent counts) (b.rewrite c.rewriting) :=
  ⟨fun s spent => ⟨spent.1, (b.draws_anything c s).1 spent.2⟩⟩

instance lasting_statement (s : Statement) :
    Lasting (IdSupply.Spent counts) (s.rewrite c.rewriting) := by
  -- a statement is rewritten as in a block of its own
  have inBlock : Lasting (IdSupply.Spent counts) (Block.rewrite c.rewriting ⟨0, [s], default⟩) :=
    inferInstance
  exact ⟨inBlock.lasts⟩

theorem rewriting_expr_of_isDefer {e : Expr} (notDefer : e.isDefer = false) (inner : Draw Expr) :
    c.rewriting.expr e inner = inner := by
  rw [rewriting_expr]
  cases e <;> first | rfl | cases notDefer

theorem rewrite_statement (i : NodeId) {k : StatementKind} (span : Span) (notWait : k.isWait = false) :
    Statement.rewrite c.rewriting ⟨i, k, span⟩ =
      (fun k => ⟨i, k, span⟩) <$> k.rewrite c.rewriting := by
  cases k <;> first | rfl | cases notWait

/-- Functions inside are left as they are. -/
theorem paired_function {f f' : Func} (h : f.Variant v f') :
    f.Rewrites L.draws c.rewriting c'.rewriting (Func.Variant v) f' := by
  rw [Func.Rewrites, rewrite_func, rewrite_func]
  exact .pure h

theorem Varies.paired_expr (h : c.Varies L c') {e e' : Expr} (he : e.Variant v e') :
    e.Rewrites L.draws c.rewriting c'.rewriting (Expr.Variant v) e' := by
  refine he.least
    ⟨fun name => .pure (.ident name), fun span same => h.paired_lower same span, ?_⟩
  intro e e' nameless parts
  have whole (notDefer : e.isDefer = false) (notDefer' : e'.isDefer = false) :
      e.Rewrites L.draws c.rewriting c'.rewriting (Expr.Variant v) e' := by
    have congruent := (parts.imp (fun _ _ _ h => h) fun _ _ => paired_function).paired
      (rewriting_expr_of_isDefer notDefer) (rewriting_expr_of_isDefer notDefer')
    exact congruent.weaken fun o o' ⟨parts, names⟩ => .parts (names.trans nameless) parts
  cases parts with
  | leaf e noOperands noFunctions =>
    cases e with
    | defer bindings span =>
      rw [Expr.names] at nameless
      subst nameless
      exact h.paired_lower .nil span
    | _ => exact whole rfl rfl
  | _ => exact whole rfl rfl

/-- **Lowering the callbacks of code that varies** gives code that varies. -/
theorem Varies.paired_block (h : c.Varies L c') {b b' : Block} (hb : b.Variant v b') :
    b.Rewrites L.draws c.rewriting c'.rewriting (Block.Variant v) b' := by
  refine (hb.least (S := fun s s' => s.Variant v s' ∧
      s.Rewrites L.draws c.rewriting c'.rewriting (Statement.Variant v) s')
    (B := fun b b' => b.Variant v b' ∧
      b.Rewrites L.draws c.rewriting c'.rewriting (Block.Variant v) b') ⟨?_, ?_, ?_⟩).2
  · intro i i' x x' init init' span id name value
    refine ⟨.declare span id name value, ?_⟩
    have notWait (x : Ident) (init : Option Expr) : (StatementKind.declare x init).isWait = false := rfl
    rw [Statement.Rewrites, rewrite_statement i span (notWait _ _),
      rewrite_statement i' span (notWait _ _)]
    refine (StatementKind.paired_declare (optionRel_imp_mem value fun _ _ _ =>
      h.paired_expr)).map ?_
    rintro _ _ ⟨o, o', same, rfl, rfl⟩
    exact .declare span id name same
  · intro i i' k k' span id undeclared parts
    have variant := parts.imp (fun _ _ _ h => h) (fun _ _ _ h => h.1) (fun _ _ _ h => h.1)
      fun _ _ h => h
    refine ⟨.parts span id undeclared variant, ?_⟩
    have alike := variant.alike
    cases notWait : k.isWait with
    | true =>
      obtain ⟨body, rfl⟩ : ∃ body, k = .wait body := by
        cases k <;> simp_all [StatementKind.isWait]
      cases variant with
      | wait body => exact .pure (.parts span id undeclared (.wait body))
    | false =>
      rw [Statement.Rewrites, rewrite_statement i span notWait,
        rewrite_statement i' span (alike.isWait.trans notWait)]
      have rewritten := (parts.imp (fun _ _ _ => h.paired_expr) (fun _ _ _ h => h.2)
        (fun _ _ _ h => h.2) fun _ _ => paired_function).paired
      exact rewritten.map fun o o' h => .parts span id (h.2.trans undeclared) h.1
  · intro i i' ss ss' span id statements
    refine ⟨.block span id (statements.imp fun _ _ h => h.1), ?_⟩
    have rewritten (i : NodeId) (ss : List Statement) (c : Callbacks) :
        Block.rewrite c.rewriting ⟨i, ss, span⟩ =
          (fun ss => ⟨i, ss, span⟩) <$> ss.mapM (Statement.rewrite c.rewriting) := by
      rw [← Statement.listRewrite_eq]
      rfl
    rw [Block.Rewrites, rewritten, rewritten]
    have list : Paired L.draws (List.Forall₂ (Statement.Variant v)) _ _ :=
      .list (statements.imp fun _ _ h => h.2)
    exact list.map fun _ _ ss => .block span id ss

end Callbacks

/-! ## Steps of rotation -/

namespace Rotation

/-- A step of rotation that does not forget that ids ran out. -/
class Lasts {α : Type} (y : Rotation α) : Prop where
  keeps : Keeps y

namespace Lasts

variable {α β : Type}

instance pure (a : α) : Lasts (Pure.pure a) := ⟨.pure a⟩

instance throw (e : InternalError) : Lasts (MonadExcept.throw e : Rotation α) := ⟨.throw e⟩

instance bind {y : Rotation α} {f : α → Rotation β} [first : Lasts y] [rest : ∀ a, Lasts (f a)] :
    Lasts (y >>= f) := ⟨first.keeps.bind fun a => (rest a).keeps⟩

instance map {y : Rotation α} {f : α → β} [first : Lasts y] : Lasts (f <$> y) := ⟨first.keeps.map f⟩

instance ite {c : Prop} [Decidable c] {y z : Rotation α} [Lasts y] [Lasts z] :
    Lasts (if c then y else z) := by
  split <;> assumption

instance drawIds {y : Draw α} [lasting : Lasting (IdSupply.Spent True) y] :
    Lasts (Rotation.drawIds y) := ⟨fun s spent => (lasting.lasts s.ids ⟨trivial, spent⟩).2⟩

instance drawName (f : NameSupply → α × NameSupply) : Lasts (Rotation.drawName f) := ⟨.drawName f⟩

instance names : Lasts Rotation.names := ⟨.names⟩

end Lasts

/-- Two steps failed in the same way, or have results that correspond. -/
inductive Outcome {α α' : Type} (R : α → α' → Prop) :
    Except InternalError α → Except InternalError α' → Prop
  | ok {a : α} {a' : α'} (h : R a a') : Outcome R (.ok a) (.ok a')
  | error (e : InternalError) : Outcome R (.error e) (.error e)

end Rotation

/-- The supplies as states of two runs. -/
abbrev Lockstep.supplies (L : Lockstep v) : Pairing Supply Supply where
  same s s' := L.ids s.ids s'.ids ∧ L.names s.names s'.names
  spent s' := IdSupply.Spent L.counts s'.ids

namespace Rotation

/-- Two steps of rotation go side by side. -/
def Paired {α α' : Type} (L : Lockstep v) (R : α → α' → Prop) (x : Rotation α) (y : Rotation α') :
    Prop :=
  ∀ s s', L.supplies.same s s' → L.supplies.spent (y s').2 ∨
    L.supplies.same (x s).2 (y s').2 ∧ Outcome R (x s).1 (y s').1

namespace Paired

variable {α α' β β' : Type} {L : Lockstep v} {R : α → α' → Prop} {Q : β → β' → Prop}
  {x : Rotation α} {y : Rotation α'}

theorem pure {a : α} {a' : α'} (h : R a a') : Paired L R (Pure.pure a) (Pure.pure a') :=
  fun _ _ same => .inr ⟨same, .ok h⟩

theorem throw (e : InternalError) : Paired L R (MonadExcept.throw e) (MonadExcept.throw e) :=
  fun _ _ same => .inr ⟨same, .error e⟩

theorem bind {f : α → Rotation β} {f' : α' → Rotation β'} [lasts : ∀ a', Lasts (f' a')]
    (hx : Paired L R x y) (hf : ∀ a a', R a a' → Paired L Q (f a) (f' a')) :
    Paired L Q (x >>= f) (y >>= f') := by
  intro s s' same
  have first := hx s s' same
  rw [bind_apply, bind_apply]
  generalize x s = r, y s' = r' at first
  obtain ⟨r, t⟩ := r
  obtain ⟨r', t'⟩ := r'
  rcases first with spent | ⟨same, outcome⟩
  · cases r' with
    | error e => exact .inl spent
    | ok a' => exact .inl ⟨spent.1, (lasts a').keeps t' spent.2⟩
  · cases outcome with
    | error e => exact .inr ⟨same, .error e⟩
    | ok h => exact hf _ _ h t t' same

theorem map {f : α → β} {f' : α' → β'} (hx : Paired L R x y) (h : ∀ a a', R a a' → Q (f a) (f' a')) :
    Paired L Q (f <$> x) (f' <$> y) := by
  rw [← bind_pure_comp, ← bind_pure_comp]
  exact hx.bind fun a a' r => .pure (h a a' r)

theorem drawIds {x : Draw α} {y : Draw α'} (h : WaitDefer.Paired L.draws R x y) :
    Paired L R (Rotation.drawIds x) (Rotation.drawIds y) :=
  fun s s' same => (h s.ids s'.ids same.1).imp_right fun ⟨ids, r⟩ => ⟨⟨ids, same.2⟩, .ok r⟩

theorem drawName {f : NameSupply → α × NameSupply} {f' : NameSupply → α' × NameSupply}
    (h : ∀ n n', L.names n n' → L.names (f n).2 (f' n').2 ∧ R (f n).1 (f' n').1) :
    Paired L R (Rotation.drawName f) (Rotation.drawName f') := by
  intro s s' same
  obtain ⟨names, r⟩ := h s.names s'.names same.2
  exact .inr ⟨⟨same.1, names⟩, .ok r⟩

theorem names : Paired L L.names Rotation.names Rotation.names :=
  fun _ _ same => .inr ⟨same, .ok same.2⟩

end Paired

end Rotation

/-! ## Wiring -/

/-- The same loop, to be left and gone on with by code that varies. -/
structure LoopContext.Varies (v : Variation) (c c' : LoopContext) : Prop where
  exit : Option.Rel (Expr.Variant v) c.exit c'.exit
  next : c.next.Variant v c'.next
  label : c'.label = c.label

/-- The same loops. -/
abbrev LoopStack.Varies (v : Variation) : LoopStack → LoopStack → Prop :=
  List.Forall₂ (LoopContext.Varies v)

theorem LoopStack.Varies.target? {loops loops' : LoopStack} (h : loops.Varies v loops')
    (label : Option String) :
    Option.Rel (LoopContext.Varies v) (loops.target? label) (loops'.target? label) := by
  cases label with
  | none =>
    cases h with
    | nil => exact .none
    | cons first _ => exact .some first
  | some l =>
    change Option.Rel (LoopContext.Varies v) (loops.find? l) (loops'.find? l)
    unfold find?
    induction h with
    | nil => exact .none
    | cons first _ ih =>
      rw [List.find?_cons, List.find?_cons, first.label]
      split
      · exact .some first
      · exact ih

/-- Two ways to rotate blocks, for code that varies. -/
structure BlockRotation.Paired (L : Lockstep v) (inner inner' : BlockRotation) : Prop where
  block {loops loops' : LoopStack} {b b' : Block} {tail tail' : Option Expr} :
    loops.Varies v loops' → b.Variant v b' → Option.Rel (Expr.Variant v) tail tail' →
      Rotation.Paired L (Block.Variant v) (inner loops b tail) (inner' loops' b' tail')
  lasts (loops : LoopStack) (b : Block) (tail : Option Expr) : Rotation.Lasts (inner' loops b tail)

namespace Wiring

variable {L : Lockstep v} {config : Config} {maker maker' : String} {t : MarkTable}
  {inner inner' : BlockRotation} {loops loops' : LoopStack} {after after' : Option Expr}

section
variable (h : inner.Paired L inner')
include h

theorem lasts_optionalArm (arm : Option Block) (span : Span) :
    Rotation.Lasts (optionalArm inner' loops arm after span) :=
  ⟨keeps_optionalArm (fun loops b tail => (h.lasts loops b tail).keeps) _ _ _ _⟩

theorem paired_optionalArm (around : loops.Varies v loops') {arm arm' : Option Block}
    (given : Option.Rel (Block.Variant v) arm arm') (then' : Option.Rel (Expr.Variant v) after after')
    (span : Span) :
    Rotation.Paired L (Option.Rel (Block.Variant v)) (optionalArm inner loops arm after span)
      (optionalArm inner' loops' arm' after' span) := by
  cases given with
  | some given => exact (h.block around given then').map fun _ _ b => .some b
  | none =>
    cases then' with
    | none => exact .pure .none
    | some call =>
      exact .drawIds ((L.paired_exprStatement call).bind fun _ _ s =>
        (L.paired_block span (.cons s .nil)).bind fun _ _ b => .pure (.some b))

theorem lasts_arms (as : List Arm) : Rotation.Lasts (arms inner' loops after as) :=
  ⟨keeps_arms (fun loops b tail => (h.lasts loops b tail).keeps) _ _ _⟩

theorem paired_arms (around : loops.Varies v loops') {as as' : List Arm}
    (given : List.Forall₂ (Arm.Congruent (Expr.Variant v) (Block.Variant v)) as as')
    (then' : Option.Rel (Expr.Variant v) after after') :
    Rotation.Paired L (List.Forall₂ (Arm.Congruent (Expr.Variant v) (Block.Variant v)))
      (arms inner loops after as) (arms inner' loops' after' as') := by
  induction given with
  | nil => exact .pure .nil
  | cons first _ ih =>
    obtain ⟨span, test, body⟩ := first
    have lastsArms (as : List Arm) : Rotation.Lasts (arms inner' loops' after' as) := lasts_arms h as
    exact (h.block around body then').bind fun _ _ b => ih.bind fun _ _ as =>
      .pure (.cons (.arm span test b) as)

end

/-! ### Wait-blocks -/

instance lasting_continuationValue (after : Option Expr) (span : Span) :
    Lasting (IdSupply.Spent counts) (continuationValue after span) :=
  ⟨fun s spent => ⟨spent.1, (draws_continuationValue after span s).1 spent.2⟩⟩

/-- The routine that an expression calls without arguments. -/
def called? : Expr → Option Ident
  | .call (.ident name) [] _ => some name
  | _ => none

theorem continuationValue_some (call : Expr) (span : Span) :
    continuationValue (some call) span = match called? call with
      | some name => pure (.ident name)
      | none => exprStatement call >>= fun s => closure [] [s] span := by
  cases call with
  | call callee arguments => cases arguments <;> cases callee <;> rfl
  | _ => rfl

theorem called?_nameless {callee : Expr} (nameless : callee.names = []) (arguments : List Expr)
    (span : Span) : called? (.call callee arguments span) = none := by
  cases arguments <;> cases callee <;> first | rfl | cases nameless

theorem called?_varies {e e' : Expr} (h : e.Variant v e') :
    Option.Rel (Ident.Varies v.refers) (called? e) (called? e') := by
  cases h with
  | ident | defer => exact .none
  | parts nameless parts =>
    cases parts with
    | leaf e noOperands => cases e <;> first | exact .none | cases noOperands
    | call span callee arguments =>
      cases arguments with
      | cons first rest =>
        have given (c a : Expr) (as : List Expr) : called? (.call c (a :: as) span) = none := by
          cases c <;> rfl
        rw [given, given]
        exact .none
      | nil =>
        cases callee with
        | ident name => exact .some name
        | defer => exact .none
        | parts nameless parts =>
          have same := parts.names
          rw [called?_nameless nameless, called?_nameless (same.trans nameless)]
          exact .none
    | _ => exact .none

theorem paired_continuationValue (then' : Option.Rel (Expr.Variant v) after after') (span : Span) :
    WaitDefer.Paired L.draws (Expr.Variant v) (continuationValue after span)
      (continuationValue after' span) := by
  cases then' with
  | none => exact L.paired_closure span [] .nil
  | @some call call' varies =>
    have called := called?_varies varies
    rw [continuationValue_some, continuationValue_some]
    generalize called? call = o, called? call' = o' at called
    cases called with
    | some name => exact .pure (.ident name)
    | none =>
      exact (L.paired_exprStatement varies).bind fun _ _ s => L.paired_closure span [] (.cons s .nil)

theorem paired_lowerWait (h : inner.Paired L inner') (calls : v.refers maker maker')
    (around : loops.Varies v loops') {body body' : Block} (hb : body.Variant v body')
    (then' : Option.Rel (Expr.Variant v) after after') (span : Span) :
    Rotation.Paired L (Block.Variant v)
      (lowerWait ⟨config.calling maker, t⟩ inner loops body after span)
      (lowerWait ⟨config.calling maker', t⟩ inner' loops' body' after' span) := by
  have := h.lasts
  have counter : Rotation.Paired L (fun x x' => v.declares x x' ∧ v.refers x x')
      (drawName NameSupply.counter) (drawName NameSupply.counter) :=
    .drawName fun n n' same => ⟨L.advance same, L.made same "deferrals" (by simp [NameSupply.stems])⟩
  refine counter.bind fun x x' named => Rotation.Paired.names.bind fun n n' same => ?_
  obtain ⟨declares, refers⟩ := named
  have callbacks : Callbacks.Varies L ⟨x, config.runtime.defer, n⟩ ⟨x', config.runtime.defer, n'⟩ :=
    ⟨refers, rfl, same⟩
  refine (Rotation.Paired.drawIds (callbacks.paired_block hb)).bind fun body body' hb => ?_
  refine (Rotation.Paired.drawIds (paired_continuationValue then' span)).bind fun value value' hv => ?_
  have resume := Expr.Varies.parts rfl (.call span
    (Expr.variant_memberNamed refers config.runtime.wait span) (.cons hv .nil))
  refine (h.block around hb (.some resume)).bind fun body body' hb => ?_
  have create : WaitDefer.Paired L.draws (Statement.Variant v)
      (Build.statement (.declare ⟨x, span⟩ (some (.callNamed maker span))) span)
      (Build.statement (.declare ⟨x', span⟩ (some (.callNamed maker' span))) span) :=
    L.paired_fresh.bind fun _ _ id =>
      .pure (.declare span id ⟨declares, rfl⟩ (.some (Expr.variant_callNamed calls span)))
  refine (Rotation.Paired.drawIds create).bind fun _ _ first => .pure ?_
  cases hb with
  | block span id statements => exact .block span id (.cons first statements)

/-! ### Loops -/

instance lasting_exitStatement (exit : Option Expr) (span : Span) :
    Lasting (IdSupply.Spent counts) (exitStatement exit span) := by
  unfold exitStatement
  split <;> infer_instance

theorem paired_exitStatement (then' : Option.Rel (Expr.Variant v) after after') (span : Span) :
    WaitDefer.Paired L.draws (Statement.Variant v) (exitStatement after span)
      (exitStatement after' span) := by
  cases then' with
  | none => exact L.paired_statement span rfl (.ret .none)
  | some call => exact L.paired_exprStatement call

/-- The parts of a loop that vary. -/
structure LoopParts.Varies (v : Variation) (p p' : LoopParts) : Prop where
  before : List.Forall₂ (Statement.Variant v) p.before p'.before
  restart : List.Forall₂ (Statement.Variant v) p.restart p'.restart
  next : List.Forall₂ (Statement.Variant v) p.next p'.next

instance lasting_loopParts (head : LoopHead) (body : Block) (restart : Expr) (exit : Statement)
    (span : Span) :
    Lasting (IdSupply.Spent counts) (loopParts head body restart exit span) := by
  cases head with
  | whileDo condition =>
    unfold loopParts
    infer_instance
  | doWhile condition =>
    unfold loopParts
    infer_instance
  | counting init test update =>
    cases test <;>
    · unfold loopParts
      infer_instance

theorem paired_loopParts {head head' : LoopHead} {body body' : Block} {restart restart' : Expr}
    {exit exit' : Statement}
    (hh : LoopHead.Congruent (Expr.Variant v) (Statement.Variant v) head head')
    (hb : body.Variant v body') (again : restart.Variant v restart') (out : exit.Variant v exit')
    (span : Span) :
    WaitDefer.Paired L.draws (LoopParts.Varies v) (loopParts head body restart exit span)
      (loopParts head' body' restart' exit' span) := by
  have inside : List.Forall₂ (Statement.Variant v) body.statements body'.statements := by
    cases hb with
    | block span id statements => exact statements
  cases hh with
  | whileDo condition =>
    exact (L.paired_branch span condition hb out).bind fun _ _ branch =>
      (L.paired_exprStatement again).bind fun _ _ again =>
        .pure ⟨.nil, .cons branch .nil, .cons again .nil⟩
  | doWhile condition =>
    exact (L.paired_exprStatement again).bind fun _ _ again =>
      (L.paired_block span (.cons again .nil)).bind fun _ _ again =>
        (L.paired_branch span condition again out).bind fun _ _ branch =>
          .pure ⟨.nil, inside, .cons branch .nil⟩
  | counting init test update =>
    have goesOn {round round' : List Statement} (same : List.Forall₂ (Statement.Variant v) round round') :
        WaitDefer.Paired L.draws (LoopParts.Varies v)
          (do
            let again ← exprStatement restart
            return ⟨Option.toList _, round, Option.toList _ ++ [again]⟩)
          (do
            let again ← exprStatement restart'
            return ⟨Option.toList _, round', Option.toList _ ++ [again]⟩) :=
      (L.paired_exprStatement again).bind fun _ _ again => .pure
        ⟨optionRel_toList init, same, List.rel_append (optionRel_toList update) (.cons again .nil)⟩
    cases test with
    | none => exact goesOn inside
    | some condition =>
      exact (L.paired_branch span condition hb out).bind fun _ _ branch => goesOn (.cons branch .nil)

theorem paired_lowerLoop (h : inner.Paired L inner') (around : loops.Varies v loops')
    (label : Option Ident) {head head' : LoopHead} {body body' : Block}
    (hh : LoopHead.Congruent (Expr.Variant v) (Statement.Variant v) head head')
    (hb : body.Variant v body') (then' : Option.Rel (Expr.Variant v) after after') (span : Span) :
    Rotation.Paired L (Block.Variant v) (lowerLoop inner loops label head body after span)
      (lowerLoop inner' loops' label head' body' after' span) := by
  have := h.lasts
  have routines : Rotation.Paired L (fun r r' =>
      (v.declares r.restart r'.restart ∧ v.refers r.restart r'.restart) ∧
        v.declares r.next r'.next ∧ v.refers r.next r'.next)
      (drawName NameSupply.loopRoutines) (drawName NameSupply.loopRoutines) :=
    .drawName fun n n' same => ⟨L.advance same, L.made same "loop" (by simp [NameSupply.stems]),
      L.made same "next" (by simp [NameSupply.stems])⟩
  refine routines.bind fun r r' named => ?_
  obtain ⟨⟨declares, refers⟩, declaresNext, refersNext⟩ := named
  have restart := Expr.variant_callNamed refers span
  have next := Expr.variant_callNamed refersNext span
  have frame : LoopContext.Varies v ⟨after, .callNamed r.next span, label.map Ident.name⟩
      ⟨after', .callNamed r'.next span, label.map Ident.name⟩ := ⟨then', next, rfl⟩
  refine (h.block (.cons frame around) hb (.some next)).bind fun body body' hb => .drawIds ?_
  exact (paired_exitStatement then' span).bind fun _ _ exit =>
    (paired_loopParts hh hb restart exit span).bind fun _ _ parts =>
      (L.paired_routine span declares parts.restart).bind fun _ _ first =>
        (L.paired_routine span declaresNext parts.next).bind fun _ _ second =>
          (L.paired_exprStatement restart).bind fun _ _ start => L.paired_block span
            (List.rel_append parts.before (.cons first (.cons second (.cons start .nil))))

/-! ### Jumps and statements -/

theorem paired_lowerJump (around : loops.Varies v loops') (kind : JumpKind) (label : Option Ident)
    (span : Span) :
    Rotation.Paired L (fun k k' => k.declared = [] ∧ k.Congruent (Expr.Variant v)
        (Statement.Variant v) (Block.Variant v) (Func.Variant v) k')
      (lowerJump loops kind label span) (lowerJump loops' kind label span) := by
  have target := around.target? (label.map Ident.name)
  unfold lowerJump
  generalize loops.target? (label.map Ident.name) = o, loops'.target? (label.map Ident.name) = o'
    at target
  cases target with
  | none => exact .throw _
  | @some loop loop' same =>
    obtain ⟨exit, next, label⟩ := loop
    obtain ⟨exit', next', label'⟩ := loop'
    have leave := same.exit
    cases kind with
    | resume => exact .pure ⟨rfl, .expr same.next⟩
    | leave =>
      cases leave with
      | none => exact .pure ⟨rfl, .ret .none⟩
      | some call => exact .pure ⟨rfl, .expr call⟩

variable (config t) in
theorem paired_statement (h : inner.Paired L inner') (calls : v.refers maker maker')
    (around : loops.Varies v loops') {s s' : Statement} (hs : s.Variant v s') (same : s'.id = s.id)
    (then' : Option.Rel (Expr.Variant v) after after') :
    Rotation.Paired L (Statement.Variant v)
      (statement ⟨config.calling maker, t⟩ inner loops s after)
      (statement ⟨config.calling maker', t⟩ inner' loops' s' after') := by
  have lastsArm (arm : Option Block) (span : Span) :
      Rotation.Lasts (optionalArm inner' loops' arm after' span) := lasts_optionalArm h arm span
  cases hs with
  | declare span id name value =>
    subst same
    exact .throw _
  | @parts i i' k k' span id undeclared parts =>
    subst same
    cases parts with
    | block body =>
      rw [statement_block, statement_block]
      exact (h.block around body then').map fun _ _ b => .parts span id rfl (.block b)
    | branch condition yes no =>
      exact (h.block around yes then').bind fun _ _ yes =>
        (paired_optionalArm h around no then' span).bind fun _ _ no =>
          .pure (.parts span id rfl (.branch condition yes no))
    | switch subject arms otherwise =>
      exact (paired_arms h around arms then').bind fun _ _ arms =>
        (paired_optionalArm h around otherwise then' span).bind fun _ _ otherwise =>
          .pure (.parts span id rfl (.switch subject arms otherwise))
    | wait body =>
      rw [statement_wait, statement_wait]
      exact (paired_lowerWait h calls around body then' span).map fun _ _ b =>
        .parts span id rfl (.block b)
    | loop label head body =>
      cases waits : t.has i' .loop with
      | true =>
        rw [statement_loop waits, statement_loop waits]
        exact (paired_lowerLoop h around label head body then' span).map fun _ _ b =>
          .parts span id rfl (.block b)
      | false =>
        simp only [statement, waits, Bool.false_eq_true, ↓reduceIte]
        exact .throw _
    | jump kind label =>
      exact (paired_lowerJump around kind label span).bind fun _ _ k =>
        .pure (.parts span id k.1 k.2)
    | _ => exact .throw _

end Wiring

/-! ## Splits -/

/-- Ids that vary are not marked. -/
def Variation.Respects (v : Variation) (t : MarkTable) : Prop :=
  ∀ {i i'}, v.id i i' → i' ≠ i → t.get i = .none ∧ t.get i' = .none

theorem Variation.Respects.get (respects : v.Respects t) {i i' : NodeId} (h : v.id i i') :
    t.get i' = t.get i := by
  by_cases same : i' = i
  · rw [same]
  · obtain ⟨first, second⟩ := respects h same
    rw [first, second]

theorem Variation.Respects.hasAny (respects : v.Respects t) {i i' : NodeId} (h : v.id i i')
    (m : Marks) : t.hasAny i' m = t.hasAny i m := by
  rw [MarkTable.hasAny, MarkTable.hasAny, respects.get h]

theorem Variation.Respects.eq (respects : v.Respects t) {i i' : NodeId} (h : v.id i i') {m : Marks}
    (marked : t.hasAny i m = true) : i' = i := by
  by_contra other
  rw [MarkTable.hasAny, (respects h other).1] at marked
  simp [Marks.meets, Marks.none] at marked

/-- What is read off a statement without regard to its id and its parts. -/
theorem Statement.Varies.form {F : Func → Func → Prop} {s s' : Statement} (h : s.Varies v F s') :
    v.id s.id s'.id ∧ s'.span = s.span ∧ s'.kind.isJump = s.kind.isJump ∧
      s'.kind.name = s.kind.name := by
  cases h with
  | declare span id name value => exact ⟨id, rfl, rfl, rfl⟩
  | parts span id undeclared parts => exact ⟨id, rfl, by cases parts <;> rfl, parts.form.1⟩

namespace Split

/-- The same split, of code that varies. -/
structure Varies (v : Variation) (s s' : Split) : Prop where
  pivot : s.pivot.Variant v s'.pivot
  same : s'.pivot.id = s.pivot.id
  following : List.Forall₂ (Statement.Variant v) s.following s'.following

theorem ofStatements_varies (respects : v.Respects t) {ss ss' : List Statement}
    (h : List.Forall₂ (Statement.Variant v) ss ss') :
    List.Forall₂ (Statement.Variant v) (ofStatements t ss).1 (ofStatements t ss').1 ∧
      List.Forall₂ (Varies v) (ofStatements t ss).2 (ofStatements t ss').2 := by
  induction h with
  | nil => exact ⟨.nil, .nil⟩
  | cons first _ ih =>
    obtain ⟨id, -, isJump, -⟩ := first.form
    simp only [ofStatements, respects.hasAny id, isJump]
    split
    · rename_i marked
      have same := respects.eq id marked
      split
      · exact ⟨.nil, .cons ⟨first, same, .nil⟩ .nil⟩
      · exact ⟨.nil, .cons ⟨first, same, ih.1⟩ ih.2⟩
    · exact ⟨.cons first ih.1, ih.2⟩

/-- The same split with a name for what follows, if it has one. -/
structure NamedVaries (v : Variation) (p p' : Split × Option String) : Prop where
  split : p.1.Varies v p'.1
  name : Option.Rel (fun x x' => v.declares x x' ∧ v.refers x x') p.2 p'.2

variable {L : Lockstep v} {config : Config} {maker maker' : String} {inner inner' : BlockRotation}
  {loops loops' : LoopStack} {tail tail' : Option Expr}

instance lasts_withNames (ss : List Split) : Rotation.Lasts (withNames ss) := ⟨keeps_withNames ss⟩

theorem isEmpty_eq {α β : Type} {R : α → β → Prop} {l : List α} {l' : List β}
    (h : List.Forall₂ R l l') : l'.isEmpty = l.isEmpty := by
  cases h <;> rfl

theorem paired_withNames {ss ss' : List Split} (h : List.Forall₂ (Varies v) ss ss') :
    Rotation.Paired L (List.Forall₂ (NamedVaries v)) (withNames ss) (withNames ss') := by
  induction h with
  | nil => exact .pure .nil
  | cons first rest ih =>
    obtain ⟨-, -, isJump, -⟩ := first.pivot.form
    have drawn : Rotation.Paired L (fun x x' => v.declares x x' ∧ v.refers x x')
        (drawName NameSupply.continuation) (drawName NameSupply.continuation) :=
      .drawName fun n n' same => ⟨L.advance same, L.made same "k" (by simp [NameSupply.stems])⟩
    simp only [withNames, isEmpty_eq rest, isEmpty_eq first.following, isJump]
    split
    · exact (drawn.map fun _ _ same => Option.Rel.some same).bind fun _ _ name =>
        ih.bind fun _ _ named => .pure (.cons ⟨first, name⟩ named)
    · exact (Rotation.Paired.pure Option.Rel.none).bind fun _ _ name =>
        ih.bind fun _ _ named => .pure (.cons ⟨first, name⟩ named)

instance lasting_ending (tail : Option Expr) :
    Lasting (IdSupply.Spent counts) (ending tail) := by
  unfold ending
  split <;> infer_instance

theorem paired_ending (then' : Option.Rel (Expr.Variant v) tail tail') :
    WaitDefer.Paired L.draws (List.Forall₂ (Statement.Variant v)) (ending tail) (ending tail') := by
  cases then' with
  | none => exact .pure .nil
  | some call => exact (L.paired_exprStatement call).bind fun _ _ s => .pure (.cons s .nil)

theorem paired_weave (h : inner.Paired L inner') (calls : v.refers maker maker')
    (around : loops.Varies v loops') (then' : Option.Rel (Expr.Variant v) tail tail')
    {named named' : List (Split × Option String)} (hn : List.Forall₂ (NamedVaries v) named named') :
    Rotation.Paired L (List.Forall₂ (Statement.Variant v))
      (weave ⟨config.calling maker, t⟩ inner loops tail named)
      (weave ⟨config.calling maker', t⟩ inner' loops' tail' named') := by
  have lastsInner (loops : LoopStack) (b : Block) (tail : Option Expr) := (h.lasts loops b tail).keeps
  have lastsWeave (named : List (Split × Option String)) :
      Rotation.Lasts (weave ⟨config.calling maker', t⟩ inner' loops' tail' named) :=
    ⟨keeps_weave lastsInner _ _ _⟩
  have lastsStatement (s : Statement) (after : Option Expr) :
      Rotation.Lasts (Wiring.statement ⟨config.calling maker', t⟩ inner' loops' s after) :=
    ⟨Wiring.keeps_statement lastsInner _ _ _⟩
  induction hn with
  | nil => exact .pure .nil
  | @cons p p' more more' first rest ih =>
    obtain ⟨s, name⟩ := p
    obtain ⟨s', name'⟩ := p'
    obtain ⟨⟨pivot, same, following⟩, hname⟩ := first
    obtain ⟨-, span, isJump, -⟩ := pivot.form
    have wire {after after' : Option Expr} (then' : Option.Rel (Expr.Variant v) after after') :=
      Wiring.paired_statement config t h calls around pivot same then'
    cases hname with
    | none =>
      refine ih.bind fun after after' ha => ?_
      rw [isJump]
      have last : Option.Rel (Expr.Variant v) (if s.pivot.kind.isJump = true then none else tail)
          (if s.pivot.kind.isJump = true then none else tail') := by
        split
        · exact .none
        · exact then'
      exact (wire last).bind fun _ _ wired => .pure (List.rel_append ha (.cons wired .nil))
    | @some x x' made =>
      refine ih.bind fun after after' ha => ?_
      rw [isEmpty_eq rest, span]
      have call := Expr.variant_callNamed made.2 s.pivot.span
      have rest {last last' : List Statement} (hl : List.Forall₂ (Statement.Variant v) last last') :=
        (Rotation.Paired.drawIds (L.paired_routine s.pivot.span made.1
          (List.rel_append (List.rel_append following ha) hl))).bind fun _ _ routine =>
            (wire (.some call)).bind fun _ _ wired =>
              Rotation.Paired.pure (L := L) (List.Forall₂.cons routine (.cons wired .nil))
      dsimp only
      split
      · exact (Rotation.Paired.drawIds (paired_ending then')).bind fun _ _ last => rest last
      · exact (Rotation.Paired.pure List.Forall₂.nil).bind fun _ _ last => rest last

end Split

/-! ## Blocks -/

theorem Block.Varies.height {F : Func → Func → Prop} {b b' : Block} (h : b.Varies v F b') :
    b'.height = b.height := by
  refine h.least (S := fun s s' => s'.height = s.height) (B := fun b b' => b'.height = b.height)
    ⟨fun _ _ _ _ => rfl, fun _ _ _ parts => parts.height, fun {i i' ss ss'} span _ statements => ?_⟩
  have inside : Statement.listHeight ss' = Statement.listHeight ss := by
    induction statements with
    | nil => rfl
    | cons first _ ih => rw [Statement.listHeight, Statement.listHeight, first, ih]
  rw [Block.height, Block.height, inside]

theorem Block.paired_rotateTo (L : Lockstep v) (config : Config) {maker maker' : String}
    (respects : v.Respects t) (calls : v.refers maker maker') (n : Nat) :
    (rotateTo ⟨config.calling maker, t⟩ n).Paired L (rotateTo ⟨config.calling maker', t⟩ n) := by
  refine ⟨?_, fun _ _ _ => ⟨keeps_rotateTo _ _ _ _ _⟩⟩
  induction n with
  | zero => exact fun _ hb _ => .pure hb
  | succ n ih =>
    intro loops loops' b b' tail tail' around hb then'
    have inner : (rotateTo ⟨config.calling maker, t⟩ n).Paired L
        (rotateTo ⟨config.calling maker', t⟩ n) :=
      ⟨ih, fun _ _ _ => ⟨keeps_rotateTo _ _ _ _ _⟩⟩
    cases hb with
    | @block i i' ss ss' span id statements =>
      obtain ⟨before, splits⟩ := Split.ofStatements_varies respects statements
      simp only [rotateTo, rotateWith, Split.isEmpty_eq splits]
      split
      · exact (Rotation.Paired.drawIds (Split.paired_ending then')).bind fun _ _ last =>
          .pure (.block span id (List.rel_append before last))
      · have lasts (named : List (Split × Option String)) : Rotation.Lasts (Split.weave
            ⟨config.calling maker', t⟩ (rotateTo ⟨config.calling maker', t⟩ n) loops' tail' named) :=
          ⟨Split.keeps_weave (keeps_rotateTo _ _) _ _ _⟩
        exact (Split.paired_withNames splits).bind fun _ _ named =>
          (Split.paired_weave inner calls around then' named).bind fun _ _ after =>
            .pure (.block span id (List.rel_append before after))

end WaitDefer
