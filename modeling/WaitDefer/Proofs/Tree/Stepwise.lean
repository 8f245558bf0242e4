import Mathlib.Algebra.Group.Nat.Defs
import WaitDefer.Proofs.Tree.Alike
import WaitDefer.Tree.Rewrite

/-!
# Rewriting part by part

A rewriting goes through the parts of a statement one after the other. Whatever is known of each
part is known of the whole, however one reasons about the state that is carried along:

* `Triples`: rules for steps that carry a state;
* `Tally`: rules for two steps side by side that add something up;
* `Expr.components`, `StatementKind.components`: the parts of code, in the order of the walk;
* `Expr.tally_rewrite`, `StatementKind.tally_rewrite`: where rewritings leave a piece of code to its
  parts, only these change, and what is added up is what is added up over them;
* `Expr.congruent_rewrite`, `StatementKind.congruent_rewrite`: the same of one rewriting that adds
  nothing up;
* `Expr.alike_rewrite`, `StatementKind.alike_rewrite`: what is rewritten is alike to what it was if
  its parts are.
-/

namespace WaitDefer

/-! ## Steps that carry a state -/

/-- What may be said of a step that carries a state of type `σ`: that its result has a property,
which may speak of some `ι`. -/
structure Triples (σ ι : Type) where
  Of : {α : Type} → StateM σ α → (ι → α → Prop) → Prop
  pure {α : Type} {P : ι → α → Prop} {a : α} (h : ∀ i, P i a) : Of (Pure.pure a) P
  bind {α β : Type} {P : ι → α → Prop} {Q : ι → β → Prop} {x : StateM σ α} {f : α → StateM σ β}
    (hx : Of x P) (hf : ∀ a, Of (f a) fun i b => P i a → Q i b) : Of (x >>= f) Q

namespace Triples

variable {σ ι α β : Type} (T : Triples σ ι)

theorem map {P : ι → α → Prop} {Q : ι → β → Prop} {x : StateM σ α} {f : α → β}
    (hx : T.Of x P) (h : ∀ i a, P i a → Q i (f a)) : T.Of (f <$> x) Q := by
  rw [← bind_pure_comp]
  exact T.bind hx fun a => T.pure fun i p => h i a p

theorem weaken {P Q : ι → α → Prop} {x : StateM σ α} (hx : T.Of x P)
    (h : ∀ i a, P i a → Q i a) : T.Of x Q := by
  have := T.map (f := id) hx h
  rwa [id_map] at this

end Triples

/-- The state keeps a property, and the result has one. -/
def Triples.keeping {σ : Type} (I : σ → Prop) : Triples σ Unit where
  Of x P := ∀ s, I s → I (x s).2 ∧ P () (x s).1
  pure h _ keeps := ⟨keeps, h ()⟩
  bind hx hf s keeps :=
    have first := hx s keeps
    have second := hf _ _ first.1
    ⟨second.1, second.2 first.2⟩

/-! ## Runs side by side -/

/-- What may be said of two steps side by side, one with a state of type `σ` and one with a state of
type `τ`, while some `M` is added up: that their result, which is the same, has a property together
with the sum. It may speak of some `ι`. -/
structure Tally (σ τ ι M : Type) [AddMonoid M] where
  Of : {α : Type} → StateM σ α → StateM τ α → (ι → M → α → Prop) → Prop
  pure {α : Type} {P : ι → M → α → Prop} {a : α} (h : ∀ i, P i 0 a) :
    Of (Pure.pure a) (Pure.pure a) P
  bind {α β : Type} {P : ι → M → α → Prop} {Q : ι → M → β → Prop} {x : StateM σ α} {y : StateM τ α}
    {f : α → StateM σ β} {g : α → StateM τ β} (hx : Of x y P)
    (hf : ∀ a, Of (f a) (g a) fun i more b => ∀ sum, P i sum a → Q i (sum + more) b) :
    Of (x >>= f) (y >>= g) Q

/-- An optional part and what it becomes, with what is added up over it. -/
inductive Option.Tallied {α β M : Type} [Zero M] (R : M → α → β → Prop) :
    M → Option α → Option β → Prop
  | none : Tallied R 0 none none
  | some {m : M} {a : α} {b : β} (part : R m a b) : Tallied R m (some a) (some b)

theorem Option.Tallied.rel {α β M : Type} [Zero M] {R : M → α → β → Prop} {m : M} {o : Option α}
    {o' : Option β} (h : Tallied R m o o') : Option.Rel (fun a b => ∃ m, R m a b) o o' := by
  cases h with
  | none => exact .none
  | some part => exact .some ⟨_, part⟩

namespace Tally

variable {σ τ ι M α β : Type} [AddMonoid M] (T : Tally σ τ ι M)

theorem andReturn {P : ι → M → α → Prop} {Q : ι → M → β → Prop} {x : StateM σ α} {y : StateM τ α}
    {f : α → β} (hx : T.Of x y P) (h : ∀ i m a, P i m a → Q i m (f a)) :
    T.Of (do return f (← x)) (do return f (← y)) Q := by
  refine T.bind hx fun a => T.pure fun i sum p => ?_
  rw [add_zero]
  exact h i sum a p

theorem map {P : ι → M → α → Prop} {Q : ι → M → β → Prop} {x : StateM σ α} {y : StateM τ α}
    {f : α → β} (hx : T.Of x y P) (h : ∀ i m a, P i m a → Q i m (f a)) :
    T.Of (f <$> x) (f <$> y) Q := by
  rw [← bind_pure_comp, ← bind_pure_comp]
  exact T.andReturn hx h

theorem weaken {P Q : ι → M → α → Prop} {x : StateM σ α} {y : StateM τ α} (hx : T.Of x y P)
    (h : ∀ i m a, P i m a → Q i m a) : T.Of x y Q := by
  have := T.map (f := id) hx h
  rwa [id_map, id_map] at this

theorem option {o : Option α} {g : α → StateM σ β} {g' : α → StateM τ β}
    {R : ι → M → α → β → Prop} (h : ∀ a ∈ o, T.Of (g a) (g' a) fun i m => R i m a) :
    T.Of (o.mapM g) (o.mapM g') fun i m => Option.Tallied (R i) m o := by
  cases o with
  | none => exact T.pure fun _ => .none
  | some a => exact T.map (h a rfl) fun i m b r => .some r

end Tally

/-- One step that adds nothing up, whatever might be added. -/
def Triples.tally {σ ι : Type} (T : Triples σ ι) (M : Type) [AddMonoid M] : Tally σ σ ι M where
  Of x _ P := T.Of x fun i a => P i 0 a
  pure h := T.pure h
  bind hx hf := T.bind hx fun a => T.weaken (hf a) fun _ _ q p => by
    have both := q 0 p
    rwa [add_zero] at both

/-! ## Components -/

/-- The parts of an expression, in order. -/
def Expr.components (e : Expr) : List Node := e.operands.map .expr ++ e.functions.map .func

/-- The parts of an arm, in order. -/
def Arm.components (a : Arm) : List Node := [.expr a.test, .block a.body]

/-- The parts of a statement, in the order of the walk. -/
def StatementKind.components : StatementKind → List Node
  | .declare _ init => init.toList.map .expr
  | .assign target value => [.expr target, .expr value]
  | .expr value => [.expr value]
  | .ret value => value.toList.map .expr
  | .block body | .wait body => [.block body]
  | .branch condition yes no => .expr condition :: .block yes :: no.toList.map .block
  | .switch subject arms otherwise =>
    .expr subject :: (arms.flatMap Arm.components ++ otherwise.toList.map .block)
  | .loop _ (.whileDo condition) body => [.expr condition, .block body]
  | .loop _ (.doWhile condition) body => [.block body, .expr condition]
  | .loop _ (.counting init test update) body =>
    init.toList.map .statement ++ (test.toList.map .expr ++ (update.toList.map .statement ++
      [.block body]))
  | .jump _ _ => []
  | .func f => [.func f]

theorem Arm.components_perm (arms : List Arm) : (arms.flatMap components).Perm
    ((arms.map Arm.test).map .expr ++ (arms.map Arm.body).map .block) := by
  induction arms with
  | nil => exact .refl _
  | cons a arms ih => exact .cons _ ((ih.cons _).trans List.perm_middle.symm)

/-- The parts of a statement, sorted by kind. -/
theorem StatementKind.components_perm (k : StatementKind) : k.components.Perm
    ((k.tests ++ k.operands).map .expr ++ k.headers.map .statement ++ k.blocks.map .block ++
      k.functions.map .func) := by
  cases k with
  | switch subject arms otherwise =>
    have inArms := ((Arm.components_perm arms).append_right (otherwise.toList.map .block)).cons
      (.expr subject)
    simpa [components, tests, operands, headers, blocks, functions] using inArms
  | loop label head body =>
    cases head with
    | whileDo condition => exact .refl _
    | doWhile condition => exact .swap _ _ _
    | counting init test update =>
      -- the test stands between the two statements of the head
      have swapped := List.perm_append_comm_assoc (init.toList.map Node.statement)
        (test.toList.map .expr) (update.toList.map .statement ++ [.block body])
      simpa [components, tests, operands, headers, blocks, functions, LoopHead.test?,
        LoopHead.statements] using swapped
  | _ => simp [components, tests, operands, headers, blocks, functions]

section
variable {M : Type} [AddMonoid M] (E : M → Expr → Expr → Prop) (S : M → Statement → Statement → Prop)
  (B : M → Block → Block → Prop) (F : M → Func → Func → Prop)

/-- Parts and what they become, one by one, with what is added up over them. -/
inductive Tallied : M → List Node → List Node → Prop
  | nil : Tallied 0 [] []
  | expr {m n : M} {e e' : Expr} {ps ps' : List Node} (first : E m e e') (rest : Tallied n ps ps') :
    Tallied (m + n) (.expr e :: ps) (.expr e' :: ps')
  | statement {m n : M} {s s' : Statement} {ps ps' : List Node} (first : S m s s')
    (rest : Tallied n ps ps') : Tallied (m + n) (.statement s :: ps) (.statement s' :: ps')
  | block {m n : M} {b b' : Block} {ps ps' : List Node} (first : B m b b')
    (rest : Tallied n ps ps') : Tallied (m + n) (.block b :: ps) (.block b' :: ps')
  | func {m n : M} {f f' : Func} {ps ps' : List Node} (first : F m f f')
    (rest : Tallied n ps ps') : Tallied (m + n) (.func f :: ps) (.func f' :: ps')

end

namespace Tallied

variable {M : Type} [AddMonoid M] {E : M → Expr → Expr → Prop} {S : M → Statement → Statement → Prop}
  {B : M → Block → Block → Prop} {F : M → Func → Func → Prop}

theorem append {m n : M} {ps ps' qs qs' : List Node} (h : Tallied E S B F m ps ps')
    (rest : Tallied E S B F n qs qs') : Tallied E S B F (m + n) (ps ++ qs) (ps' ++ qs') := by
  induction h with
  | nil => rwa [zero_add]
  | expr first _ ih => rw [add_assoc]; exact .expr first ih
  | statement first _ ih => rw [add_assoc]; exact .statement first ih
  | block first _ ih => rw [add_assoc]; exact .block first ih
  | func first _ ih => rw [add_assoc]; exact .func first ih

theorem optional_expr {m : M} {o o' : Option Expr} (h : Option.Tallied E m o o') :
    Tallied E S B F m (o.toList.map .expr) (o'.toList.map .expr) := by
  cases h with
  | none => exact .nil
  | some part =>
    rw [← add_zero m]
    exact .expr part .nil

theorem optional_statement {m : M} {o o' : Option Statement} (h : Option.Tallied S m o o') :
    Tallied E S B F m (o.toList.map .statement) (o'.toList.map .statement) := by
  cases h with
  | none => exact .nil
  | some part =>
    rw [← add_zero m]
    exact .statement part .nil

end Tallied

/-! ## Rewriting -/

/-- A rewritten counting loop, its optional parts treated alike. -/
theorem StatementKind.rewrite_counting {σ : Type} {r : Rewriting σ} (label : Option Ident)
    (init update : Option Statement) (test : Option Expr) (body : Block) :
    rewrite r (.loop label (.counting init test update) body) = do
      let init ← init.mapM (Statement.rewrite r)
      let test ← test.mapM (Expr.rewrite r)
      let update ← update.mapM (Statement.rewrite r)
      let body ← body.rewrite r
      return .loop label (.counting init test update) body := by
  cases init <;> cases test <;> cases update <;> rfl

section
variable {σ τ ι M : Type} [AddMonoid M] (T : Tally σ τ ι M) (r : Rewriting σ) (r' : Rewriting τ)
  {E : ι → M → Expr → Expr → Prop} {S : ι → M → Statement → Statement → Prop}
  {B : ι → M → Block → Block → Prop} {F : ι → M → Func → Func → Prop}

theorem Expr.tally_listRewrite {es : List Expr}
    (h : ∀ e ∈ es, T.Of (e.rewrite r) (e.rewrite r') fun i m => E i m e) :
    T.Of (listRewrite r es) (listRewrite r' es) fun i m es' =>
      List.Forall₂ (fun e e' => ∃ m, E i m e e') es es' ∧
        Tallied (E i) (S i) (B i) (F i) m (es.map .expr) (es'.map .expr) := by
  induction es with
  | nil => exact T.pure fun _ => ⟨.nil, .nil⟩
  | cons e es ih =>
    refine T.bind (h e List.mem_cons_self) fun e' =>
      T.bind (ih fun e he => h e (List.mem_cons_of_mem _ he)) fun es' => ?_
    refine T.pure fun i more ⟨all, rest⟩ sum first => ⟨.cons ⟨_, first⟩ all, ?_⟩
    rw [add_zero]
    exact .expr first rest

/-- Where two rewritings leave an expression to its parts, only these change, and what is added up
is what is added up over them. -/
theorem Expr.tally_rewrite {e : Expr} (keeps : ∀ inner, r.expr e inner = inner)
    (keeps' : ∀ inner, r'.expr e inner = inner)
    (operands : ∀ o ∈ e.operands, T.Of (o.rewrite r) (o.rewrite r') fun i m => E i m o)
    (functions : ∀ f ∈ e.functions, T.Of (f.rewrite r) (f.rewrite r') fun i m => F i m f) :
    T.Of (e.rewrite r) (e.rewrite r') fun i m e' =>
      e.Congruent (fun o o' => ∃ m, E i m o o') (fun f f' => ∃ m, F i m f f') e' ∧
        Tallied (E i) (S i) (B i) (F i) m e.components e'.components := by
  cases e with
  | unary op operand span =>
    rw [rewrite, keeps, rewrite, keeps']
    exact T.bind (operands operand (by simp [Expr.operands])) fun o' => T.pure fun i m o =>
      ⟨.unary op span ⟨_, o⟩, .expr o .nil⟩
  | binary op left right span =>
    rw [rewrite, keeps, rewrite, keeps']
    exact T.bind (operands left (by simp [Expr.operands])) fun l' =>
      T.bind (operands right (by simp [Expr.operands])) fun r' => T.pure fun i _ r _ l =>
        ⟨.binary op span ⟨_, l⟩ ⟨_, r⟩, .expr l (.expr r .nil)⟩
  | call callee arguments span =>
    rw [rewrite, keeps, rewrite, keeps']
    exact T.bind (operands callee (by simp [Expr.operands])) fun c' =>
      T.bind (tally_listRewrite T r r' fun a ha => operands a (by simp [Expr.operands, ha]))
        fun as' => T.pure fun i _ as _ c => ⟨.call span ⟨_, c⟩ as.1, .expr c (as.2.append .nil)⟩
  | member object property span =>
    rw [rewrite, keeps, rewrite, keeps']
    exact T.bind (operands object (by simp [Expr.operands])) fun o' => T.pure fun i _ o =>
      ⟨.member property span ⟨_, o⟩, .expr o .nil⟩
  | func f =>
    rw [rewrite, keeps, rewrite, keeps']
    exact T.bind (functions f (by simp [Expr.functions])) fun f' => T.pure fun i _ f =>
      ⟨.func ⟨_, f⟩, .func f .nil⟩
  | _ =>
    rw [rewrite, keeps, rewrite, keeps']
    exact T.pure fun i => ⟨.leaf _ rfl rfl, .nil⟩

theorem Statement.tally_listRewrite {ss : List Statement}
    (h : ∀ s ∈ ss, T.Of (s.rewrite r) (s.rewrite r') fun i m => S i m s) :
    T.Of (listRewrite r ss) (listRewrite r' ss) fun i m ss' =>
      List.Forall₂ (fun s s' => ∃ m, S i m s s') ss ss' ∧
        Tallied (E i) (S i) (B i) (F i) m (ss.map .statement) (ss'.map .statement) := by
  induction ss with
  | nil => exact T.pure fun _ => ⟨.nil, .nil⟩
  | cons s ss ih =>
    refine T.bind (h s List.mem_cons_self) fun s' =>
      T.bind (ih fun s hs => h s (List.mem_cons_of_mem _ hs)) fun ss' => ?_
    refine T.pure fun i more ⟨all, rest⟩ sum first => ⟨.cons ⟨_, first⟩ all, ?_⟩
    rw [add_zero]
    exact .statement first rest

theorem Arm.tally_listRewrite {arms : List Arm}
    (tests : ∀ a ∈ arms, T.Of (a.test.rewrite r) (a.test.rewrite r') fun i m => E i m a.test)
    (bodies : ∀ a ∈ arms, T.Of (a.body.rewrite r) (a.body.rewrite r') fun i m => B i m a.body) :
    T.Of (listRewrite r arms) (listRewrite r' arms) fun i m arms' =>
      List.Forall₂ (Arm.Congruent (fun e e' => ∃ m, E i m e e') fun b b' => ∃ m, B i m b b') arms
          arms' ∧
        Tallied (E i) (S i) (B i) (F i) m (arms.flatMap Arm.components)
          (arms'.flatMap Arm.components) := by
  induction arms with
  | nil => exact T.pure fun _ => ⟨.nil, .nil⟩
  | cons a arms ih =>
    have test := tests a List.mem_cons_self
    have body := bodies a List.mem_cons_self
    obtain ⟨t, b, span⟩ := a
    refine T.bind test fun t' => T.bind body fun b' =>
      T.bind (ih (fun a ha => tests a (List.mem_cons_of_mem _ ha))
        fun a ha => bodies a (List.mem_cons_of_mem _ ha)) fun arms' => ?_
    refine T.pure fun i _ ⟨all, rest⟩ _ b _ t => ⟨.cons (.arm span ⟨_, t⟩ ⟨_, b⟩) all, ?_⟩
    rw [add_zero]
    exact .expr t (.block b rest)

/-- Only the parts of a rewritten statement change, and what is added up is what is added up over
them. -/
theorem StatementKind.tally_rewrite {k : StatementKind}
    (exprs : ∀ e ∈ k.tests ++ k.operands, T.Of (e.rewrite r) (e.rewrite r') fun i m => E i m e)
    (headers : ∀ h ∈ k.headers, T.Of (h.rewrite r) (h.rewrite r') fun i m => S i m h)
    (blocks : ∀ b ∈ k.blocks, T.Of (b.rewrite r) (b.rewrite r') fun i m => B i m b)
    (functions : ∀ f ∈ k.functions, T.Of (f.rewrite r) (f.rewrite r') fun i m => F i m f) :
    T.Of (k.rewrite r) (k.rewrite r') fun i m k' =>
      k.Congruent (fun e e' => ∃ m, E i m e e') (fun s s' => ∃ m, S i m s s')
          (fun b b' => ∃ m, B i m b b') (fun f f' => ∃ m, F i m f f') k' ∧
        Tallied (E i) (S i) (B i) (F i) m k.components k'.components := by
  cases k with
  | declare name init =>
    cases init with
    | none => exact T.pure fun i => ⟨.declare name .none, .nil⟩
    | some e =>
      exact T.bind (exprs e (by simp [tests, operands])) fun e' => T.pure fun i _ e =>
        ⟨.declare name (.some ⟨_, e⟩), .expr e .nil⟩
  | assign target value =>
    exact T.bind (exprs target (by simp [tests, operands])) fun t' =>
      T.bind (exprs value (by simp [tests, operands])) fun v' => T.pure fun i _ v _ t =>
        ⟨.assign ⟨_, t⟩ ⟨_, v⟩, .expr t (.expr v .nil)⟩
  | expr value =>
    exact T.bind (exprs value (by simp [tests, operands])) fun v' => T.pure fun i _ v =>
      ⟨.expr ⟨_, v⟩, .expr v .nil⟩
  | ret value =>
    cases value with
    | none => exact T.pure fun i => ⟨.ret .none, .nil⟩
    | some e =>
      exact T.bind (exprs e (by simp [tests, operands])) fun e' => T.pure fun i _ e =>
        ⟨.ret (.some ⟨_, e⟩), .expr e .nil⟩
  | block body =>
    exact T.bind (blocks body (by simp [StatementKind.blocks])) fun b' => T.pure fun i _ b =>
      ⟨.block ⟨_, b⟩, .block b .nil⟩
  | wait body =>
    exact T.bind (blocks body (by simp [StatementKind.blocks])) fun b' => T.pure fun i _ b =>
      ⟨.wait ⟨_, b⟩, .block b .nil⟩
  | branch condition yes no =>
    have inYes := blocks yes (by simp [StatementKind.blocks])
    have inTest := exprs condition (by simp [tests, operands])
    cases no with
    | none =>
      exact T.bind inTest fun c' => T.bind inYes fun y' => T.pure fun i _ y _ c =>
        ⟨.branch ⟨_, c⟩ ⟨_, y⟩ .none, .expr c (.block y .nil)⟩
    | some no =>
      exact T.bind inTest fun c' => T.bind inYes fun y' =>
        T.bind (blocks no (by simp [StatementKind.blocks])) fun n' => T.pure fun i _ n _ y _ c =>
          ⟨.branch ⟨_, c⟩ ⟨_, y⟩ (.some ⟨_, n⟩), .expr c (.block y (.block n .nil))⟩
  | switch subject arms otherwise =>
    have inSubject := exprs subject (by simp [tests])
    have inTests : ∀ a ∈ arms, a.test ∈ (switch subject arms otherwise).tests ++
        (switch subject arms otherwise).operands := by
      intro a ha
      simp only [tests]
      grind
    have inBodies : ∀ a ∈ arms, a.body ∈ (switch subject arms otherwise).blocks := by
      intro a ha
      simp only [StatementKind.blocks]
      grind
    have inArms := Arm.tally_listRewrite T r r' (S := S) (F := F)
      (fun a ha => exprs _ (inTests a ha)) fun a ha => blocks _ (inBodies a ha)
    cases otherwise with
    | none =>
      exact T.bind inSubject fun s' => T.bind inArms fun as' => T.pure fun i _ as _ s =>
        ⟨.switch ⟨_, s⟩ as.1 .none, .expr s (as.2.append .nil)⟩
    | some b =>
      exact T.bind inSubject fun s' => T.bind inArms fun as' =>
        T.bind (blocks b (by simp [StatementKind.blocks])) fun b' => T.pure fun i _ b _ as _ s =>
          ⟨.switch ⟨_, s⟩ as.1 (.some ⟨_, b⟩), .expr s (as.2.append (.block b .nil))⟩
  | loop label head body =>
    have inBody := blocks body (by simp [StatementKind.blocks])
    cases head with
    | whileDo condition =>
      exact T.bind (exprs condition (by simp [tests, LoopHead.test?])) fun c' =>
        T.bind inBody fun b' => T.pure fun i _ b _ c =>
          ⟨.loop label (.whileDo ⟨_, c⟩) ⟨_, b⟩, .expr c (.block b .nil)⟩
    | doWhile condition =>
      exact T.bind inBody fun b' =>
        T.bind (exprs condition (by simp [tests, LoopHead.test?])) fun c' => T.pure fun i _ c _ b =>
          ⟨.loop label (.doWhile ⟨_, c⟩) ⟨_, b⟩, .block b (.expr c .nil)⟩
    | counting init test update =>
      rw [rewrite_counting, rewrite_counting]
      refine T.bind (T.option fun h hh => headers h ?_) fun init' =>
        T.bind (T.option fun e he => exprs e ?_) fun test' =>
          T.bind (T.option fun h hh => headers h ?_) fun update' =>
            T.bind inBody fun b' => T.pure fun i _ b _ u _ t _ s =>
              ⟨.loop label (.counting s.rel t.rel u.rel) ⟨_, b⟩, (Tallied.optional_statement s).append
                ((Tallied.optional_expr t).append ((Tallied.optional_statement u).append
                  (.block b .nil)))⟩
      · exact List.mem_append_left _ (Option.mem_toList.mpr hh)
      · exact List.mem_append_left _ (Option.mem_toList.mpr he)
      · exact List.mem_append_right _ (Option.mem_toList.mpr hh)
  | func f =>
    exact T.bind (functions f (by simp [StatementKind.functions])) fun f' => T.pure fun i _ f =>
      ⟨.func ⟨_, f⟩, .func f .nil⟩
  | jump kind label => exact T.pure fun i => ⟨.jump kind label, .nil⟩

end

section
variable {σ ι : Type} (T : Triples σ ι) {r : Rewriting σ} {E : ι → Expr → Expr → Prop}
  {S : ι → Statement → Statement → Prop} {B : ι → Block → Block → Prop}
  {F : ι → Func → Func → Prop}

theorem Statement.alike_listRewrite {ss : List Statement}
    (h : ∀ s ∈ ss, T.Of (s.rewrite r) fun i => S i s) :
    T.Of (listRewrite r ss) fun i ss' => List.Forall₂ (S i) ss ss' := by
  have all := tally_listRewrite (T.tally Nat) r r (E := fun _ _ => Eq) (S := fun i _ => S i)
    (B := fun _ _ => Eq) (F := fun _ _ => Eq) h
  exact T.weaken all fun _ _ both => both.1.imp fun _ _ ⟨_, part⟩ => part

/-- Where a rewriting leaves an expression to its parts, only these change. -/
theorem Expr.congruent_rewrite {e : Expr} (keeps : ∀ inner, r.expr e inner = inner)
    (operands : ∀ o ∈ e.operands, T.Of (o.rewrite r) fun i => E i o)
    (functions : ∀ f ∈ e.functions, T.Of (f.rewrite r) fun i => F i f) :
    T.Of (e.rewrite r) fun i => e.Congruent (E i) (F i) := by
  have whole := tally_rewrite (T.tally Nat) r r (E := fun i _ => E i) (S := fun _ _ => Eq)
    (B := fun _ _ => Eq) (F := fun i _ => F i) keeps keeps operands functions
  exact T.weaken whole fun _ _ both => both.1.imp (fun _ _ _ ⟨_, o⟩ => o) fun _ _ ⟨_, f⟩ => f

/-- A rewritten statement is the same but for its parts. -/
theorem StatementKind.congruent_rewrite {k : StatementKind}
    (exprs : ∀ e ∈ k.tests ++ k.operands, T.Of (e.rewrite r) fun i => E i e)
    (headers : ∀ h ∈ k.headers, T.Of (h.rewrite r) fun i => S i h)
    (blocks : ∀ b ∈ k.blocks, T.Of (b.rewrite r) fun i => B i b)
    (functions : ∀ f ∈ k.functions, T.Of (f.rewrite r) fun i => F i f) :
    T.Of (k.rewrite r) fun i => k.Congruent (E i) (S i) (B i) (F i) := by
  have whole := tally_rewrite (T.tally Nat) r r (E := fun i _ => E i) (S := fun i _ => S i)
    (B := fun i _ => B i) (F := fun i _ => F i) exprs headers blocks functions
  exact T.weaken whole fun _ _ both => both.1.imp (fun _ _ _ ⟨_, e⟩ => e) (fun _ _ _ ⟨_, s⟩ => s)
    (fun _ _ _ ⟨_, b⟩ => b) fun _ _ ⟨_, f⟩ => f

/-- Where a rewriting leaves an expression to its parts, what relates those relates the whole. -/
theorem Expr.alike_rewrite {e : Expr} (keeps : ∀ inner, r.expr e inner = inner)
    (operands : ∀ o ∈ e.operands, T.Of (o.rewrite r) fun i => E i o)
    (functions : ∀ f ∈ e.functions, T.Of (f.rewrite r) fun i => F i f) :
    T.Of (e.rewrite r) fun i => e.Alike (E i) (F i) :=
  T.weaken (congruent_rewrite T keeps operands functions) fun _ _ congruent => congruent.alike

/-- Whatever relates the parts of a statement to what they are rewritten to relates the parts of
the whole. -/
theorem StatementKind.alike_rewrite {kind : StatementKind}
    (exprs : ∀ e ∈ kind.tests ++ kind.operands, T.Of (e.rewrite r) fun i => E i e)
    (headers : ∀ h ∈ kind.headers, T.Of (h.rewrite r) fun i => S i h)
    (blocks : ∀ b ∈ kind.blocks, T.Of (b.rewrite r) fun i => B i b)
    (functions : ∀ f ∈ kind.functions, T.Of (f.rewrite r) fun i => F i f) :
    T.Of (kind.rewrite r) fun i => kind.Alike (E i) (S i) (B i) (F i) :=
  T.weaken (congruent_rewrite T exprs headers blocks functions) fun _ _ congruent =>
    congruent.alike

end

end WaitDefer
