import WaitDefer.Proofs.Tree.Plain
import WaitDefer.Proofs.Tree.Stepwise
import WaitDefer.Rotation.Defers

/-!
# Lowered callbacks

* `Callbacks.Relates`: what relates code to what it becomes when its callbacks are lowered, part by
  part;
* `Block.plain_rewrite`: lowering the callbacks of a wait-block does not change the plain form of its
  body.
-/

namespace WaitDefer

section
variable {σ α β : Type}

theorem StateM.bind_apply (x : StateM σ α) (f : α → StateM σ β) (s : σ) :
    (x >>= f) s = f (x s).1 (x s).2 := rfl

theorem StateM.pure_apply (a : α) (s : σ) : (pure a : StateM σ α) s = (a, s) := rfl

theorem StateM.map_apply (f : α → β) (x : StateM σ α) (s : σ) :
    (f <$> x) s = (f (x s).1, (x s).2) := rfl

end

namespace Callbacks

/-- The names of the callbacks are those the settings call for. -/
structure Fits (c : Callbacks) (config : Config) : Prop where
  counter : config.isReserved c.counter = true
  method : c.method = config.runtime.defer

theorem length_params (c : Callbacks) (index : Nat) (bindings : List Ident) :
    (c.params index bindings).length = bindings.length := by
  induction bindings generalizing index with
  | nil => rfl
  | cons b bs ih => simp [params, ih]

theorem assignments_cons (b p : Ident) (bindings params : List Ident) (ids : IdSupply) :
    (assignments (b :: bindings) (p :: params) ids).1 =
      ⟨ids.fresh.1, .assign (.ident b) (.ident p), b.span⟩ ::
        (assignments bindings params ids.fresh.2).1 := by
  simp only [assignments, List.zip_cons_cons, List.mapM_cons, StateM.bind_apply,
    StateM.pure_apply, Build.statement]

/-- The statements of a callback assign the bound names, in order. -/
theorem assigned?_assignments (bindings params : List Ident) (ids : IdSupply)
    (h : params.length = bindings.length) :
    (assignments bindings params ids).1.mapM Statement.assigned? = some bindings := by
  induction bindings generalizing params ids with
  | nil => rfl
  | cons b bs ih =>
    cases params with
    | nil => simp at h
    | cons p ps =>
      rw [assignments_cons, List.mapM_cons, ih ps ids.fresh.2 (by simpa using h)]
      rfl

theorem plain_lower {c : Callbacks} {config : Config} (fits : c.Fits config)
    (bindings : List Ident) (span : Span) (ids : IdSupply) :
    (c.lower bindings span ids).1.plain config = .defer bindings span := by
  have method : (Expr.memberNamed c.counter c.method span).isCallbackMethod config = true := by
    simp [Expr.memberNamed, Expr.isCallbackMethod, fits.counter, fits.method]
  unfold lower
  split
  · rename_i none
    rw [List.isEmpty_iff] at none
    subst none
    simp [StateM.pure_apply, Expr.plain_call, Expr.callback?, method, Expr.boundBy]
  · simp only [StateM.bind_apply, StateM.pure_apply, Build.closure, Build.func, Build.block,
      Expr.plain_call, Expr.callback?, method, ↓reduceIte, Expr.boundBy, Option.map_none,
      assigned?_assignments bindings _ _ (c.length_params 0 bindings)]

theorem rewriting_expr (c : Callbacks) (e : Expr) (inner : Build.Draw Expr) :
    c.rewriting.expr e inner =
      match e with
      | .defer bindings span => c.lower bindings span
      | _ => inner := rfl

theorem rewrite_func (c : Callbacks) (f : Func) : f.rewrite c.rewriting = pure f := by
  obtain ⟨id, name, params, body, span⟩ := f
  simp only [Func.rewrite]
  rfl

/-- Something that relates a piece of code to what it becomes when its callbacks are lowered, if it
relates those of callbacks, and of the rest whatever differs in such parts only. -/
structure Relates {ι : Type} (T : Triples IdSupply ι) (c : Callbacks) (E : ι → Expr → Expr → Prop)
    (S : ι → Statement → Statement → Prop) (B : ι → Block → Block → Prop) : Prop where
  callback : ∀ bindings span, T.Of (c.lower bindings span) fun i => E i (.defer bindings span)
  expr : ∀ {i e e'}, e.isDefer = false → e.Congruent (E i) Eq e' → E i e e'
  block : ∀ {i id span ss ss'}, List.Forall₂ (S i) ss ss' → B i ⟨id, ss, span⟩ ⟨id, ss', span⟩
  /-- The callbacks of the wait-blocks inside are not lowered. -/
  wait : ∀ {i s body}, s.kind = .wait body → S i s s
  statement : ∀ {i id span k k'}, k.isWait = false → k.Congruent (E i) (S i) (B i) Eq k' →
    S i ⟨id, k, span⟩ ⟨id, k', span⟩

namespace Relates

variable {ι : Type} {T : Triples IdSupply ι} {c : Callbacks} {E : ι → Expr → Expr → Prop}
  {S : ι → Statement → Statement → Prop} {B : ι → Block → Block → Prop} (h : c.Relates T E S B)
include h

theorem expr_rewrite (e : Expr) : T.Of (e.rewrite c.rewriting) fun i => E i e := by
  induction e using Expr.inductOn with
  | step e ih =>
    cases isDefer : e.isDefer with
    | true =>
      cases e with
      | defer bindings span => exact h.callback bindings span
      | _ => cases isDefer
    | false =>
      have keeps : ∀ inner, c.rewriting.expr e inner = inner := by
        intro inner
        rw [rewriting_expr]
        cases e <;> first | rfl | cases isDefer
      refine T.weaken (Expr.congruent_rewrite T (F := fun _ => Eq) keeps ih fun f _ => ?_)
        fun _ _ congruent => h.expr isDefer congruent
      rw [rewrite_func]
      exact T.pure fun _ => rfl

theorem block_rewrite (b : Block) : T.Of (b.rewrite c.rewriting) fun i => B i b := by
  induction b using Block.inductOn
    (Q := fun s : Statement => T.Of (s.rewrite c.rewriting) fun i => S i s) with
  | block b ih =>
    obtain ⟨id, ss, span⟩ := b
    exact T.bind (Statement.alike_listRewrite T ih) fun ss' => T.pure fun _ => h.block
  | statement s headers blocks =>
    obtain ⟨id, kind, span⟩ := s
    cases isWait : kind.isWait with
    | true =>
      obtain ⟨body, rfl⟩ : ∃ body, kind = .wait body := by
        cases kind <;> simp_all [StatementKind.isWait]
      exact T.pure fun _ => h.wait rfl
    | false =>
      have rewritten : Statement.rewrite c.rewriting ⟨id, kind, span⟩ = do
          return ⟨id, ← kind.rewrite c.rewriting, span⟩ := by
        cases kind <;> first | rfl | cases isWait
      rw [rewritten]
      refine T.bind (StatementKind.congruent_rewrite T (F := fun _ => Eq)
        (fun e _ => h.expr_rewrite e) headers blocks fun f _ => ?_) fun k' =>
          T.pure fun _ congruent => h.statement isWait congruent
      rw [rewrite_func]
      exact T.pure fun _ => rfl

end Relates

end Callbacks

/-! ## The plain form -/

section
variable {config : Config}

theorem map_eq_of_forall₂ {α β : Type} {g : α → β} {l l' : List α}
    (h : List.Forall₂ (fun a a' => g a' = g a) l l') : l'.map g = l.map g := by
  induction h with
  | nil => rfl
  | cons first _ rest => rw [List.map_cons, List.map_cons, first, rest]

theorem map_eq_of_optionRel {α β : Type} {g : α → β} {o o' : Option α}
    (h : Option.Rel (fun a a' => g a' = g a) o o') : o'.map g = o.map g := by
  cases h with
  | none => rfl
  | some same => exact congrArg some same

/-- Expressions with parts of one plain form have one plain form. -/
theorem Expr.Congruent.plain {e e' : Expr}
    (h : e.Congruent (fun o o' => o'.plain config = o.plain config) Eq e') :
    e'.plain config = e.plain config := by
  cases h with
  | leaf => rfl
  | unary op span operand => rw [plain_unary, plain_unary, operand]
  | binary op span left right => rw [plain_binary, plain_binary, left, right]
  | call span callee arguments =>
    have arguments := map_eq_of_forall₂ arguments
    rw [plain_call, plain_call, ← callback?_plain, callee, arguments, callback?_plain]
  | member property span object => rw [plain_member, plain_member, object]
  | func same => rw [same]

theorem LoopHead.Congruent.plain {h h' : LoopHead}
    (congruent : h.Congruent (fun e e' => e'.plain config = e.plain config)
      (fun s s' => s'.plain config = s.plain config) h') : h'.plain config = h.plain config := by
  cases congruent with
  | whileDo condition | doWhile condition => rw [LoopHead.plain, LoopHead.plain, condition]
  | counting init test update =>
    rw [LoopHead.plain, LoopHead.plain, map_eq_of_optionRel init, map_eq_of_optionRel test,
      map_eq_of_optionRel update]

/-- Statements with parts of one plain form have one plain form. -/
theorem StatementKind.Congruent.plain {k k' : StatementKind}
    (h : k.Congruent (fun e e' => e'.plain config = e.plain config)
      (fun s s' => s'.plain config = s.plain config)
      (fun b b' => b'.plain config = b.plain config) Eq k') :
    k'.plain config = k.plain config := by
  cases h with
  | declare name init => rw [plain_declare, plain_declare, map_eq_of_optionRel init]
  | assign target value => rw [plain_assign, plain_assign, target, value]
  | expr value => rw [plain_expr, plain_expr, value]
  | ret value => rw [plain_ret, plain_ret, map_eq_of_optionRel value]
  | block body => rw [plain_block, plain_block, body]
  | branch condition yes no =>
    rw [plain_branch, plain_branch, condition, yes, map_eq_of_optionRel no]
  | switch subject arms otherwise =>
    have arms := map_eq_of_forall₂ (g := Arm.plain config) (arms.imp fun _ _ same => by
      cases same with
      | arm span test body => simp only [Arm.plain, test, body])
    rw [plain_switch, plain_switch, subject, arms, map_eq_of_optionRel otherwise]
  | loop label head body =>
    rw [plain_loop, plain_loop, head.plain, body]
  | jump => rfl
  | wait body => rw [plain_wait, plain_wait, body]
  | func same => rw [same]

variable {c : Callbacks} (fits : c.Fits config)
include fits

/-- Lowering callbacks keeps the plain form of the code. -/
theorem Callbacks.relates_plain : c.Relates (.keeping fun _ => True)
    (fun _ e e' => e'.plain config = e.plain config)
    (fun _ s s' => s'.plain config = s.plain config)
    fun _ b b' => b'.plain config = b.plain config where
  callback bindings span ids _ := ⟨trivial, plain_lower fits bindings span ids⟩
  expr _ congruent := congruent.plain
  block same := by rw [Block.plain_eq, Block.plain_eq, map_eq_of_forall₂ same]
  wait _ := rfl
  statement _ congruent := by rw [Statement.plain_eq, Statement.plain_eq, congruent.plain]

/-- Lowering the callbacks of a wait-block leaves the plain form of its body as it was. -/
theorem Block.plain_rewrite (b : Block) (ids : IdSupply) :
    (b.rewrite c.rewriting ids).1.plain config = b.plain config :=
  ((Callbacks.relates_plain fits).block_rewrite b ids trivial).2

end

end WaitDefer
