import WaitDefer.Proofs.Tree.Stepwise
import WaitDefer.Proofs.Tree.Varied

/-!
# Two runs side by side

The same pass runs twice, on code and states that correspond. The second run may run out of
something; from then on nothing is said of it:

* `Lasting`: a step does not forget that something ran out;
* `Paired`: two steps keep states in correspondence and give results that correspond;
* `Expr.Congruent.paired`, `StatementKind.Congruent.paired`: two rewritings of code whose parts
  correspond, if they go side by side on the parts;
* `Block.Varies.paired`: two rewritings of functions only, on code that varies.
-/

namespace WaitDefer

section
variable {σ σ' α α' β β' : Type}

/-- Once something has run out, it has after a step. -/
class Lasting (spent : σ → Prop) (y : StateM σ α) : Prop where
  lasts : ∀ s, spent s → spent (y s).2

namespace Lasting

variable {spent : σ → Prop}

instance pure (a : α) : Lasting spent (Pure.pure a) := ⟨fun _ h => h⟩

instance bind {y : StateM σ α} {f : α → StateM σ β} [first : Lasting spent y]
    [rest : ∀ a, Lasting spent (f a)] : Lasting spent (y >>= f) :=
  ⟨fun s h => (rest (y s).1).lasts _ (first.lasts s h)⟩

instance map {y : StateM σ α} {f : α → β} [first : Lasting spent y] : Lasting spent (f <$> y) :=
  ⟨first.lasts⟩

instance ite {c : Prop} [Decidable c] {y z : StateM σ α} [Lasting spent y] [Lasting spent z] :
    Lasting spent (if c then y else z) := by
  split <;> assumption

theorem of_keeping {y : StateM σ α} (h : (Triples.keeping spent).Of y fun _ _ => True) :
    Lasting spent y :=
  ⟨fun s e => (h s e).1⟩

instance optionM {g : α → StateM σ β} [each : ∀ a, Lasting spent (g a)] (o : Option α) :
    Lasting spent (o.mapM g) := by
  cases o with
  | none => exact pure _
  | some a => exact map

instance listM {g : α → StateM σ β} [each : ∀ a, Lasting spent (g a)] (as : List α) :
    Lasting spent (as.mapM g) := by
  induction as with
  | nil => exact pure _
  | cons a as ih =>
    rw [List.mapM_cons]
    infer_instance

end Lasting

/-- Which states of two runs correspond, and when something has run out in the second. -/
structure Pairing (σ σ' : Type) where
  same : σ → σ' → Prop
  spent : σ' → Prop

/-- From states that correspond, two steps come to such states with results that correspond, unless
something runs out. -/
def Paired (P : Pairing σ σ') (R : α → α' → Prop) (x : StateM σ α) (y : StateM σ' α') : Prop :=
  ∀ s s', P.same s s' → P.spent (y s').2 ∨ P.same (x s).2 (y s').2 ∧ R (x s).1 (y s').1

namespace Paired

variable {P : Pairing σ σ'} {R : α → α' → Prop} {Q : β → β' → Prop} {x : StateM σ α}
  {y : StateM σ' α'}

theorem pure {a : α} {a' : α'} (h : R a a') : Paired P R (Pure.pure a) (Pure.pure a') :=
  fun _ _ same => .inr ⟨same, h⟩

theorem bind {f : α → StateM σ β} {f' : α' → StateM σ' β'} [lasting : ∀ a', Lasting P.spent (f' a')]
    (hx : Paired P R x y) (hf : ∀ a a', R a a' → Paired P Q (f a) (f' a')) :
    Paired P Q (x >>= f) (y >>= f') := by
  intro s s' same
  rcases hx s s' same with spent | ⟨same, r⟩
  · exact .inl ((lasting _).lasts _ spent)
  · exact hf _ _ r _ _ same

theorem map {f : α → β} {f' : α' → β'} (hx : Paired P R x y) (h : ∀ a a', R a a' → Q (f a) (f' a')) :
    Paired P Q (f <$> x) (f' <$> y) :=
  fun s s' same => (hx s s' same).imp_right fun ⟨same, r⟩ => ⟨same, h _ _ r⟩

theorem weaken {R' : α → α' → Prop} (hx : Paired P R x y) (h : ∀ a a', R a a' → R' a a') :
    Paired P R' x y :=
  fun s s' same => (hx s s' same).imp_right fun ⟨same, r⟩ => ⟨same, h _ _ r⟩

theorem option {γ γ' : Type} {o : Option γ} {o' : Option γ'} {g : γ → StateM σ α}
    {g' : γ' → StateM σ' α'} (h : Option.Rel (fun c c' => Paired P R (g c) (g' c')) o o') :
    Paired P (Option.Rel R) (o.mapM g) (o'.mapM g') := by
  cases h with
  | none => exact .pure .none
  | some step => exact step.map fun a a' r => .some r

theorem list {γ γ' : Type} {l : List γ} {l' : List γ'} {g : γ → StateM σ α} {g' : γ' → StateM σ' α'}
    [∀ c, Lasting P.spent (g' c)]
    (h : List.Forall₂ (fun c c' => Paired P R (g c) (g' c')) l l') :
    Paired P (List.Forall₂ R) (l.mapM g) (l'.mapM g') := by
  induction h with
  | nil => exact .pure .nil
  | cons first _ ih =>
    rw [List.mapM_cons, List.mapM_cons]
    exact first.bind fun a a' r => ih.bind fun as as' rs => .pure (.cons r rs)

end Paired

end

/-! ## Rewriting -/

section
variable {σ σ' : Type} {P : Pairing σ σ'} {r : Rewriting σ} {r' : Rewriting σ'}

theorem Expr.listRewrite_eq (es : List Expr) : listRewrite r es = es.mapM (rewrite r) := by
  induction es with
  | nil => rfl
  | cons e es ih => rw [List.mapM_cons, listRewrite, ih]

theorem Statement.listRewrite_eq (ss : List Statement) : listRewrite r ss = ss.mapM (rewrite r) := by
  induction ss with
  | nil => rfl
  | cons s ss ih => rw [List.mapM_cons, listRewrite, ih]

/-- The test and the body of an arm are rewritten. -/
def Arm.rewrite (r : Rewriting σ) (a : Arm) : StateM σ Arm := do
  let test ← a.test.rewrite r
  let body ← a.body.rewrite r
  return ⟨test, body, a.span⟩

theorem Arm.listRewrite_eq (as : List Arm) : listRewrite r as = as.mapM (rewrite r) := by
  induction as with
  | nil => rfl
  | cons a as ih =>
    obtain ⟨test, body, span⟩ := a
    rw [List.mapM_cons, listRewrite, ih]
    rfl

/-- Two rewritings of two expressions go side by side. -/
def Expr.Rewrites (P : Pairing σ σ') (r : Rewriting σ) (r' : Rewriting σ') (R : Expr → Expr → Prop)
    (e e' : Expr) : Prop := Paired P R (e.rewrite r) (e'.rewrite r')

def Func.Rewrites (P : Pairing σ σ') (r : Rewriting σ) (r' : Rewriting σ') (R : Func → Func → Prop)
    (f f' : Func) : Prop := Paired P R (f.rewrite r) (f'.rewrite r')

def Block.Rewrites (P : Pairing σ σ') (r : Rewriting σ) (r' : Rewriting σ')
    (R : Block → Block → Prop) (b b' : Block) : Prop := Paired P R (b.rewrite r) (b'.rewrite r')

def Statement.Rewrites (P : Pairing σ σ') (r : Rewriting σ) (r' : Rewriting σ')
    (R : Statement → Statement → Prop) (s s' : Statement) : Prop :=
  Paired P R (s.rewrite r) (s'.rewrite r')

/-- Expressions, statements and blocks are left to their parts. -/
structure Rewriting.OnFuncs (r : Rewriting σ) : Prop where
  expr (e : Expr) (inner : StateM σ Expr) : r.expr e inner = inner
  statement (s : Statement) (inner : StateM σ StatementKind) :
    r.statement s inner = (fun kind => { s with kind }) <$> inner
  block (b : Block) (inner : StateM σ (List Statement)) :
    r.block b inner = (fun statements => { b with statements }) <$> inner

variable {E : Expr → Expr → Prop} {S : Statement → Statement → Prop} {B : Block → Block → Prop}
  {F : Func → Func → Prop} {v : Variation}

/-- A declaration is rewritten in its value. -/
theorem StatementKind.paired_declare {x x' : Ident} {init init' : Option Expr}
    (value : Option.Rel (Expr.Rewrites P r r' E) init init') :
    Paired P (fun k k' => ∃ o o', Option.Rel E o o' ∧ k = .declare x o ∧ k' = .declare x' o')
      (StatementKind.rewrite r (.declare x init)) (StatementKind.rewrite r' (.declare x' init')) := by
  cases value with
  | none => exact .pure ⟨none, none, .none, rfl, rfl⟩
  | some value =>
    exact Paired.bind value fun o o' same => .pure ⟨some o, some o', .some same, rfl, rfl⟩

variable [∀ e, Lasting P.spent (Expr.rewrite r' e)]

/-- Where two rewritings leave expressions to their parts, the results have the same form. -/
theorem Expr.Congruent.paired {e e' : Expr} (keeps : ∀ inner, r.expr e inner = inner)
    (keeps' : ∀ inner, r'.expr e' inner = inner)
    (h : e.Congruent (Expr.Rewrites P r r' E) (Func.Rewrites P r r' F) e') :
    Paired P (fun o o' => o.Congruent E F o' ∧ o.names = e.names) (e.rewrite r) (e'.rewrite r') := by
  cases h with
  | leaf e noOperands noFunctions =>
    have same : Paired P (fun o o' => o.Congruent E F o' ∧ o.names = e.names) (pure e) (pure e) :=
      .pure ⟨.leaf e noOperands noFunctions, rfl⟩
    cases e with
    | call => cases noOperands
    | unary => cases noOperands
    | binary => cases noOperands
    | member => cases noOperands
    | func => cases noFunctions
    | _ =>
      rw [rewrite, rewrite, keeps, keeps']
      exact same
  | unary op span operand =>
    rw [rewrite, rewrite, keeps, keeps']
    exact Paired.bind operand fun _ _ o => .pure ⟨.unary op span o, rfl⟩
  | binary op span left right =>
    rw [rewrite, rewrite, keeps, keeps']
    exact Paired.bind left fun _ _ l => Paired.bind right fun _ _ r => .pure ⟨.binary op span l r, rfl⟩
  | call span callee arguments =>
    rw [rewrite, rewrite, keeps, keeps', listRewrite_eq, listRewrite_eq]
    exact Paired.bind callee fun _ _ c => (Paired.list arguments).bind fun _ _ as =>
      .pure ⟨.call span c as, rfl⟩
  | member property span object =>
    rw [rewrite, rewrite, keeps, keeps']
    exact Paired.bind object fun _ _ o => .pure ⟨.member property span o, rfl⟩
  | func function =>
    rw [rewrite, rewrite, keeps, keeps']
    exact Paired.bind function fun _ _ f => .pure ⟨.func f, rfl⟩

theorem Expr.Varies.paired (only : r.OnFuncs) (only' : r'.OnFuncs) {e e' : Expr}
    (h : e.Varies v (Func.Rewrites P r r' F) e') : e.Rewrites P r r' (Expr.Varies v F) e' := by
  refine h.least ⟨fun name => ?_, fun span bindings => ?_, fun nameless parts => ?_⟩
  · rw [Rewrites, rewrite, rewrite, only.expr, only'.expr]
    exact .pure (.ident name)
  · rw [Rewrites, rewrite, rewrite, only.expr, only'.expr]
    exact .pure (.defer span bindings)
  · exact (parts.paired (only.expr _) (only'.expr _)).weaken fun _ _ h =>
      .parts (h.2.trans nameless) h.1

variable [∀ b, Lasting P.spent (Block.rewrite r' b)]

instance Arm.lasting_rewrite (a : Arm) : Lasting P.spent (a.rewrite r') := by
  unfold rewrite
  infer_instance

instance Arm.lasting_listRewrite (as : List Arm) : Lasting P.spent (listRewrite r' as) := by
  rw [listRewrite_eq]
  infer_instance

theorem Arm.paired_listRewrite {as as' : List Arm}
    (h : List.Forall₂ (Arm.Congruent (Expr.Rewrites P r r' E) (Block.Rewrites P r r' B)) as as') :
    Paired P (List.Forall₂ (Arm.Congruent E B)) (listRewrite r as) (listRewrite r' as') := by
  rw [listRewrite_eq, listRewrite_eq]
  refine .list (h.imp fun a a' congruent => ?_)
  obtain ⟨span, test, body⟩ := congruent
  exact Paired.bind test fun _ _ t => Paired.bind body fun _ _ b => .pure (.arm span t b)

variable [∀ s, Lasting P.spent (Statement.rewrite r' s)]

theorem StatementKind.Congruent.paired {k k' : StatementKind}
    (h : k.Congruent (Expr.Rewrites P r r' E) (Statement.Rewrites P r r' S)
      (Block.Rewrites P r r' B) (Func.Rewrites P r r' F) k') :
    Paired P (fun o o' => o.Congruent E S B F o' ∧ o.declared = k.declared) (k.rewrite r)
      (k'.rewrite r') := by
  cases h with
  | declare name init =>
    cases init with
    | none => exact .pure ⟨.declare name .none, rfl⟩
    | some value => exact Paired.bind value fun _ _ e => .pure ⟨.declare name (.some e), rfl⟩
  | assign target value =>
    exact Paired.bind target fun _ _ t => Paired.bind value fun _ _ e => .pure ⟨.assign t e, rfl⟩
  | expr value => exact Paired.bind value fun _ _ e => .pure ⟨.expr e, rfl⟩
  | ret value =>
    cases value with
    | none => exact .pure ⟨.ret .none, rfl⟩
    | some value => exact Paired.bind value fun _ _ e => .pure ⟨.ret (.some e), rfl⟩
  | block body => exact Paired.bind body fun _ _ b => .pure ⟨.block b, rfl⟩
  | branch condition yes no =>
    cases no with
    | none =>
      exact Paired.bind condition fun _ _ c => Paired.bind yes fun _ _ y => .pure ⟨.branch c y .none, rfl⟩
    | some no =>
      exact Paired.bind condition fun _ _ c => Paired.bind yes fun _ _ y =>
        Paired.bind no fun _ _ n => .pure ⟨.branch c y (.some n), rfl⟩
  | switch subject arms otherwise =>
    have inArms := Arm.paired_listRewrite arms
    cases otherwise with
    | none =>
      exact Paired.bind subject fun _ _ e => inArms.bind fun _ _ as => .pure ⟨.switch e as .none, rfl⟩
    | some no =>
      exact Paired.bind subject fun _ _ e => inArms.bind fun _ _ as =>
        Paired.bind no fun _ _ n => .pure ⟨.switch e as (.some n), rfl⟩
  | loop label head body =>
    cases head with
    | whileDo condition =>
      exact Paired.bind condition fun _ _ c => Paired.bind body fun _ _ b =>
        .pure ⟨.loop label (.whileDo c) b, rfl⟩
    | doWhile condition =>
      exact Paired.bind body fun _ _ b => Paired.bind condition fun _ _ c =>
        .pure ⟨.loop label (.doWhile c) b, rfl⟩
    | counting init test update =>
      rw [rewrite_counting, rewrite_counting]
      exact (Paired.option init).bind fun _ _ i => (Paired.option test).bind fun _ _ t =>
        (Paired.option update).bind fun _ _ u => Paired.bind body fun _ _ b =>
          .pure ⟨.loop label (.counting i t u) b, rfl⟩
  | jump kind label => exact .pure ⟨.jump kind label, rfl⟩
  | wait body => exact Paired.bind body fun _ _ b => .pure ⟨.wait b, rfl⟩
  | func function => exact Paired.bind function fun _ _ f => .pure ⟨.func f, rfl⟩

/-- Where two rewritings have their say at functions only, what comes of code that varies varies as
it did, if what comes of the functions in it corresponds. -/
theorem Block.Varies.paired (only : r.OnFuncs) (only' : r'.OnFuncs) {b b' : Block}
    (h : b.Varies v (Func.Rewrites P r r' F) b') : b.Rewrites P r r' (Block.Varies v F) b' := by
  refine h.least (S := Statement.Rewrites P r r' (Statement.Varies v F)) ⟨?_, ?_, ?_⟩
  · intro i i' x x' init init' span id name value
    rw [Statement.Rewrites, Statement.rewrite, Statement.rewrite, only.statement, only'.statement]
    refine (StatementKind.paired_declare (optionRel_imp_mem value fun _ _ _ h =>
      h.paired only only')).map ?_
    rintro _ _ ⟨o, o', same, rfl, rfl⟩
    exact .declare span id name same
  · intro i i' k k' span id undeclared parts
    rw [Statement.Rewrites, Statement.rewrite, Statement.rewrite, only.statement, only'.statement]
    have rewritten := (parts.imp (fun _ _ _ h => h.paired only only') (fun _ _ _ h => h)
      (fun _ _ _ h => h) fun _ _ h => h).paired
    exact rewritten.map fun o o' ⟨parts, declared⟩ =>
      .parts span id (declared.trans undeclared) parts
  · intro i i' ss ss' span id statements
    rw [Rewrites, Block.rewrite, Block.rewrite, only.block, only'.block, Statement.listRewrite_eq,
      Statement.listRewrite_eq]
    exact (Paired.list statements).map fun _ _ ss => .block span id ss

end

end WaitDefer
