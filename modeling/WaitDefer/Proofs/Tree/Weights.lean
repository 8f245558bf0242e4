import WaitDefer.Proofs.Tree.Bags
import WaitDefer.Proofs.Tree.Stepwise
import WaitDefer.Proofs.Tree.Whole

/-!
# Weights

What the nodes of a piece of code count for, added up over the piece:

* `Weighing`: what a node counts for, by its id and the names it brings in or assigns;
* `Weighing.expr_eq`, `Weighing.statement_eq`: the weight of code, part by part;
* `Spending`: rules for steps that carry a state and use something up;
* `StatementKind.weighs_rewrite`: rewriting a statement adds no more than rewriting its parts.
-/

namespace WaitDefer

/-! ## Names -/

/-- The name that an expression is. -/
def Expr.named : Expr → List Ident
  | ident name => [name]
  | _ => []

/-- The names that an expression binds to what its callback is called with. -/
def Expr.bound : Expr → List Ident
  | defer bindings _ => bindings
  | _ => []

/-- The name that a statement assigns a value. -/
def StatementKind.assigned : StatementKind → List Ident
  | assign target _ => target.named
  | _ => []

/-! ## Weighing code -/

/-- What nodes count for, and which functions are entered. None of it depends on what a node
holds. -/
structure Weighing (β : Type) where
  enter : NodeId → Option Ident → List Ident → Bool
  func : NodeId → Option Ident → List Ident → Multiset β
  block : NodeId → Multiset β
  /-- What a statement counts for, by its id, the name it declares with `let`, the name of the
  function it declares, and the name it assigns. -/
  statement : NodeId → List Ident → List Ident → List Ident → Multiset β
  /-- What a name counts for that is bound by a callback. -/
  binding : Ident → Multiset β

namespace Weighing

variable {β : Type} (w : Weighing β)

def enters (f : Func) : Bool := w.enter f.id f.name f.params

def node : Node → Multiset β
  | .func f => w.func f.id f.name f.params
  | .block b => w.block b.id
  | .statement s => w.statement s.id s.kind.declared s.kind.titled s.kind.assigned
  | .expr e => bagOf w.binding e.bound
  | .ident _ => 0

def ofExpr (e : Expr) : Multiset β := bagOf w.node (e.nodes w.enters)

def ofFunc (f : Func) : Multiset β := bagOf w.node (f.nodes w.enters)

def ofBlock (b : Block) : Multiset β := bagOf w.node (b.nodes w.enters)

def ofStatement (s : Statement) : Multiset β := bagOf w.node (s.nodes w.enters)

/-- The weight of what a statement holds. -/
def ofKind (kind : StatementKind) : Multiset β :=
  bagOf w.ofExpr kind.tests + bagOf w.ofExpr kind.operands + bagOf w.ofStatement kind.headers +
    bagOf w.ofBlock kind.blocks + bagOf w.ofFunc kind.functions

theorem idents (is : List Ident) : bagOf w.node (is.map .ident) = 0 :=
  bagOf_eq_zero fun n hn => by
    obtain ⟨i, -, rfl⟩ := List.mem_map.mp hn
    rfl

theorem expr_eq (e : Expr) :
    w.ofExpr e =
      bagOf w.binding e.bound + bagOf w.ofExpr e.operands + bagOf w.ofFunc e.functions := by
  rw [ofExpr, Expr.nodes_parts]
  simp only [bagOf_cons, bagOf_append, bagOf_flatMap, idents, node, add_zero, add_assoc]
  rfl

theorem func_eq (f : Func) :
    w.ofFunc f = if w.enters f then w.func f.id f.name f.params + w.ofBlock f.body else 0 := by
  obtain ⟨id, name, params, body, span⟩ := f
  rw [ofFunc, Func.nodes]
  split
  · simp only [bagOf_cons, bagOf_append, idents, zero_add]
    rfl
  · rfl

theorem block_eq (b : Block) :
    w.ofBlock b = w.block b.id + bagOf w.ofStatement b.statements := by
  rw [ofBlock, Block.nodes_eq, bagOf_cons, bagOf_flatMap]
  rfl

theorem statement_eq (s : Statement) :
    w.ofStatement s =
      w.statement s.id s.kind.declared s.kind.titled s.kind.assigned + w.ofKind s.kind := by
  rw [ofStatement, Statement.nodes_eq, bagOf_cons,
    bagOf_perm (StatementKind.nodes_perm w.enters s.kind)]
  simp only [bagOf_append, bagOf_flatMap, idents, zero_add]
  rfl

/-- The same with every function entered. -/
def everywhere : Weighing β := { w with enter := fun _ _ _ => true }

theorem bagOf_le {α : Type} {f g : α → Multiset β} {as : List α} (h : ∀ a ∈ as, f a ≤ g a) :
    bagOf f as ≤ bagOf g as := by
  induction as with
  | nil => exact le_refl _
  | cons a as ih =>
    rw [bagOf_cons, bagOf_cons]
    exact add_le_add (h a List.mem_cons_self) (ih fun b hb => h b (List.mem_cons_of_mem _ hb))

/-- Code weighs no more if some functions are not entered. -/
theorem le_everywhere : Cases (fun e => w.ofExpr e ≤ w.everywhere.ofExpr e)
    (fun f => w.ofFunc f ≤ w.everywhere.ofFunc f) (fun b => w.ofBlock b ≤ w.everywhere.ofBlock b)
    fun s => w.ofStatement s ≤ w.everywhere.ofStatement s where
  expr e operands functions := by
    rw [expr_eq, expr_eq]
    exact add_le_add (add_le_add (le_refl _) (bagOf_le operands)) (bagOf_le functions)
  func f body := by
    rw [func_eq, func_eq]
    split
    · exact add_le_add (le_refl _) body
    · exact Multiset.zero_le _
  block b statements := by
    rw [block_eq, block_eq]
    exact add_le_add (le_refl _) (bagOf_le statements)
  statement s exprs headers blocks functions := by
    rw [statement_eq, statement_eq, ofKind, ofKind]
    refine add_le_add (le_refl _) (add_le_add (add_le_add (add_le_add (add_le_add ?_ ?_) ?_) ?_) ?_)
    · exact bagOf_le fun e he => exprs e (List.mem_append_left _ he)
    · exact bagOf_le fun e he => exprs e (List.mem_append_right _ he)
    · exact bagOf_le headers
    · exact bagOf_le blocks
    · exact bagOf_le functions

end Weighing

/-! ## Steps that use something up -/

/-- What may be said of a step that carries a state of type `σ` and uses up some `β`: that its
result, together with what was used, has a property. -/
structure Spending (σ β : Type) where
  Of : {α : Type} → StateM σ α → (Multiset β → α → Prop) → Prop
  pure {α : Type} {P : Multiset β → α → Prop} {a : α} (h : P 0 a) : Of (Pure.pure a) P
  bind {α γ : Type} {P : Multiset β → α → Prop} {Q : Multiset β → γ → Prop} {x : StateM σ α}
    {f : α → StateM σ γ} (hx : Of x P)
    (hf : ∀ a, Of (f a) fun more c => ∀ used, P used a → Q (used + more) c) : Of (x >>= f) Q

namespace Spending

variable {σ β α γ : Type} (T : Spending σ β)

theorem andReturn {P : Multiset β → α → Prop} {Q : Multiset β → γ → Prop} {x : StateM σ α}
    {f : α → γ} (hx : T.Of x P) (h : ∀ used a, P used a → Q used (f a)) :
    T.Of (do return f (← x)) Q := by
  refine T.bind hx fun a => T.pure fun used p => ?_
  rw [add_zero]
  exact h used a p

theorem map {P : Multiset β → α → Prop} {Q : Multiset β → γ → Prop} {x : StateM σ α} {f : α → γ}
    (hx : T.Of x P) (h : ∀ used a, P used a → Q used (f a)) : T.Of (f <$> x) Q := by
  rw [← bind_pure_comp]
  exact T.andReturn hx h

theorem weaken {P Q : Multiset β → α → Prop} {x : StateM σ α} (hx : T.Of x P)
    (h : ∀ used a, P used a → Q used a) : T.Of x Q := by
  have := T.map (f := id) hx h
  rwa [id_map] at this

/-- The result of a step weighs no more than `before` and what the step used. -/
def Weighs (x : StateM σ α) (before : Multiset β) (weight : α → Multiset β) : Prop :=
  T.Of x fun used a => weight a ≤ before + used

section
variable {T} {w : α → Multiset β} {v : γ → Multiset β}

/-- Two steps of which the second does not touch what the first made. -/
theorem Weighs.both {δ : Type} {x : StateM σ α} {y : StateM σ γ} {f : α → γ → δ} {b c : Multiset β}
    {weight : δ → Multiset β} (hx : T.Weighs x b w) (hy : T.Weighs y c v)
    (h : ∀ a d, weight (f a d) = w a + v d) :
    T.Weighs (do let a ← x; let d ← y; return f a d) (b + c) weight := by
  refine T.bind hx fun a => T.bind hy fun d => T.pure fun more second used first => ?_
  rw [h]
  exact (add_le_add first second).trans_eq (by abel)

end

/-- The same as a step beside itself that adds up what it uses. -/
def tally : Tally σ σ Unit (Multiset β) where
  Of x _ P := T.Of x (P ())
  pure h := T.pure (h ())
  bind hx hf := T.bind hx fun a => T.weaken (hf a) fun _ _ q => q

end Spending

/-! ## Rewriting -/

namespace Weighing

variable {β : Type} (w : Weighing β)

/-- The weight of a part of a statement or an expression. -/
def ofPart : Node → Multiset β
  | .func f => w.ofFunc f
  | .block b => w.ofBlock b
  | .statement s => w.ofStatement s
  | .expr e => w.ofExpr e
  | .ident _ => 0

/-- The weight of an arm of a switch. -/
def ofArm (a : Arm) : Multiset β := w.ofExpr a.test + w.ofBlock a.body

theorem arms_eq (arms : List Arm) :
    bagOf w.ofArm arms = bagOf w.ofExpr (arms.map Arm.test) + bagOf w.ofBlock (arms.map Arm.body) := by
  induction arms with
  | nil => simp
  | cons a arms ih =>
    simp only [List.map_cons, bagOf_cons, ih, ofArm]
    abel

theorem expr_components (e : Expr) :
    w.ofExpr e = bagOf w.binding e.bound + bagOf w.ofPart e.components := by
  rw [expr_eq, Expr.components, bagOf_append, bagOf_map, bagOf_map, add_assoc]
  rfl

theorem ofKind_components (kind : StatementKind) : w.ofKind kind = bagOf w.ofPart kind.components := by
  rw [bagOf_perm kind.components_perm]
  simp [ofKind, ofPart, add_assoc]

/-- Parts that weigh no more than before and what is used weigh no more together. -/
theorem le_of_tallied {E : Multiset β → Expr → Expr → Prop} {F : Multiset β → Func → Func → Prop}
    {used : Multiset β} {ps ps' : List Node}
    (expr : ∀ m e e', E m e e' → w.ofExpr e' ≤ w.ofExpr e + m)
    (func : ∀ m f f', F m f f' → w.ofFunc f' ≤ w.ofFunc f + m)
    (h : Tallied E (fun m s s' => w.ofStatement s' ≤ w.ofStatement s + m)
      (fun m b b' => w.ofBlock b' ≤ w.ofBlock b + m) F used ps ps') :
    bagOf w.ofPart ps' ≤ bagOf w.ofPart ps + used := by
  induction h with
  | nil => simp
  | expr first _ ih => exact (add_le_add (expr _ _ _ first) ih).trans_eq (add_add_add_comm ..)
  | statement first _ ih | block first _ ih =>
    exact (add_le_add first ih).trans_eq (add_add_add_comm ..)
  | func first _ ih => exact (add_le_add (func _ _ _ first) ih).trans_eq (add_add_add_comm ..)

end Weighing

section
variable {σ β : Type} {T : Spending σ β} {r : Rewriting σ} {w : Weighing β}

/-- Rewriting an expression adds no more than what is used, and makes no name of it or something
else of a name. -/
def Spending.Rewrites (T : Spending σ β) (w : Weighing β) (r : Rewriting σ) (e : Expr) : Prop :=
  T.Of (e.rewrite r) fun used e' => w.ofExpr e' ≤ w.ofExpr e + used ∧ e'.named = e.named

theorem Spending.Rewrites.weighs {e : Expr} (h : T.Rewrites w r e) :
    T.Weighs (e.rewrite r) (w.ofExpr e) w.ofExpr :=
  T.weaken h fun _ _ both => both.1

/-- Where a rewriting leaves an expression to its parts, it adds what it adds to those. -/
theorem Expr.weighs_rewrite {e : Expr} (keeps : ∀ inner, r.expr e inner = inner)
    (operands : ∀ o ∈ e.operands, T.Weighs (o.rewrite r) (w.ofExpr o) w.ofExpr)
    (functions : ∀ f ∈ e.functions, T.Weighs (f.rewrite r) (w.ofFunc f) w.ofFunc) :
    T.Rewrites w r e := by
  have whole := tally_rewrite T.tally r r
    (E := fun _ used o o' => w.ofExpr o' ≤ w.ofExpr o + used)
    (S := fun _ used s s' => w.ofStatement s' ≤ w.ofStatement s + used)
    (B := fun _ used b b' => w.ofBlock b' ≤ w.ofBlock b + used)
    (F := fun _ used f f' => w.ofFunc f' ≤ w.ofFunc f + used) keeps keeps operands functions
  refine T.weaken whole fun used e' ⟨congruent, parts⟩ => ?_
  have same : e'.bound = e.bound ∧ e'.named = e.named := by
    cases congruent <;> exact ⟨rfl, rfl⟩
  refine ⟨?_, same.2⟩
  rw [w.expr_components, w.expr_components e, same.1, add_assoc]
  exact add_le_add_right (w.le_of_tallied (fun _ _ _ le => le) (fun _ _ _ le => le) parts) _

theorem Statement.weighs_listRewrite {ss : List Statement}
    (h : ∀ s ∈ ss, T.Weighs (s.rewrite r) (w.ofStatement s) w.ofStatement) :
    T.Weighs (listRewrite r ss) (bagOf w.ofStatement ss) (bagOf w.ofStatement) := by
  induction ss with
  | nil => exact T.pure (by simp)
  | cons s ss ih =>
    exact (h s List.mem_cons_self).both (ih fun s hs => h s (List.mem_cons_of_mem _ hs))
      fun a d => bagOf_cons a d

/-- Rewriting a statement adds no more than rewriting its parts, and keeps the names it brings in
and assigns, if functions keep theirs. -/
theorem StatementKind.weighs_rewrite {kind : StatementKind}
    (exprs : ∀ e ∈ kind.tests ++ kind.operands, T.Rewrites w r e)
    (headers : ∀ h ∈ kind.headers, T.Weighs (h.rewrite r) (w.ofStatement h) w.ofStatement)
    (blocks : ∀ b ∈ kind.blocks, T.Weighs (b.rewrite r) (w.ofBlock b) w.ofBlock)
    (functions : ∀ f ∈ kind.functions, T.Of (f.rewrite r) fun used f' =>
      w.ofFunc f' ≤ w.ofFunc f + used ∧ f'.name = f.name) :
    T.Of (kind.rewrite r) fun used kind' =>
      w.ofKind kind' ≤ w.ofKind kind + used ∧ kind'.declared = kind.declared ∧
        kind'.titled = kind.titled ∧ kind'.assigned = kind.assigned := by
  have whole := tally_rewrite T.tally r r
    (E := fun _ used e e' => w.ofExpr e' ≤ w.ofExpr e + used ∧ e'.named = e.named)
    (S := fun _ used s s' => w.ofStatement s' ≤ w.ofStatement s + used)
    (B := fun _ used b b' => w.ofBlock b' ≤ w.ofBlock b + used)
    (F := fun _ used f f' => w.ofFunc f' ≤ w.ofFunc f + used ∧ f'.name = f.name)
    exprs headers blocks functions
  refine T.weaken whole fun used kind' ⟨congruent, parts⟩ => ⟨?_, ?_⟩
  · rw [w.ofKind_components, w.ofKind_components]
    exact w.le_of_tallied (fun _ _ _ both => both.1) (fun _ _ _ both => both.1) parts
  · cases congruent with
    | assign target _ =>
      obtain ⟨_, -, named⟩ := target
      exact ⟨rfl, rfl, named⟩
    | func function =>
      obtain ⟨_, -, name⟩ := function
      exact ⟨rfl, congrArg Option.toList name, rfl⟩
    | _ => exact ⟨rfl, rfl, rfl⟩

end

end WaitDefer
