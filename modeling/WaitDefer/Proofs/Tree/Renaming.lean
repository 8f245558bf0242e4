import WaitDefer.Proofs.Tree.Scopes
import WaitDefer.Proofs.Tree.Stepwise
import WaitDefer.Proofs.Tree.Varied

/-!
# Other names for references

Code in which references are given other names, while declarations keep theirs:

* `Block.renamed`: the code with every reference renamed;
* `Variation.variant_renamed`, `Func.Variant.eq_renamed`: it is the code that varies so;
* `Module.renamed_back`: references can be given their old names back.
-/

namespace WaitDefer

variable (g : String → String)

/-- The same place with another name. -/
def Ident.renamed (x : Ident) : Ident := ⟨g x.name, x.span⟩

/-- Gives other names to references, and leaves declarations as they are. -/
def Rewriting.references : Rewriting Unit where
  expr e inner :=
    match e with
    | .ident name => return .ident (name.renamed g)
    | .defer bindings span => return .defer (bindings.map (Ident.renamed g)) span
    | _ => inner

def Expr.renamed (e : Expr) : Expr := (e.rewrite (.references g) ()).1

def Func.renamed (f : Func) : Func := (f.rewrite (.references g) ()).1

def Block.renamed (b : Block) : Block := (b.rewrite (.references g) ()).1

def Statement.renamed (s : Statement) : Statement := (s.rewrite (.references g) ()).1

def StatementKind.renamed (kind : StatementKind) : StatementKind :=
  (kind.rewrite (.references g) ()).1

def Arm.renamed (a : Arm) : Arm := ⟨a.test.renamed g, a.body.renamed g, a.span⟩

def Module.renamed (m : Module) : Module := ⟨m.functions.map (Func.renamed g), m.span⟩

/-! ## Part by part -/

section
variable {g}

theorem Func.renamed_eq (f : Func) : f.renamed g = { f with body := f.body.renamed g } := by
  cases f
  rfl

theorem Statement.renamed_eq (s : Statement) :
    s.renamed g = { s with kind := s.kind.renamed g } := by
  cases s
  rfl

theorem Statement.listRenamed_eq (ss : List Statement) :
    (listRewrite (.references g) ss ()).1 = ss.map (renamed g) := by
  induction ss with
  | nil => rfl
  | cons s ss ih =>
    rw [List.map_cons, ← ih]
    rfl

theorem Block.renamed_eq (b : Block) :
    b.renamed g = { b with statements := b.statements.map (Statement.renamed g) } := by
  rw [← Statement.listRenamed_eq]
  cases b
  rfl

theorem Arm.listRenamed_eq (arms : List Arm) :
    (listRewrite (.references g) arms ()).1 = arms.map (renamed g) := by
  induction arms with
  | nil => rfl
  | cons a arms ih =>
    rw [List.map_cons, ← ih]
    cases a
    rfl

theorem Expr.listRenamed_eq (es : List Expr) :
    (listRewrite (.references g) es ()).1 = es.map (renamed g) := by
  induction es with
  | nil => rfl
  | cons e es ih =>
    rw [List.map_cons, ← ih]
    rfl

namespace Expr

theorem renamed_ident (x : Ident) : (ident x).renamed g = .ident (x.renamed g) := rfl

theorem renamed_defer (bindings : List Ident) (span : Span) :
    (defer bindings span).renamed g = .defer (bindings.map (Ident.renamed g)) span := rfl

theorem renamed_unary (op : UnaryOp) (operand : Expr) (span : Span) :
    (unary op operand span).renamed g = .unary op (operand.renamed g) span := rfl

theorem renamed_binary (op : BinaryOp) (left right : Expr) (span : Span) :
    (binary op left right span).renamed g = .binary op (left.renamed g) (right.renamed g) span :=
  rfl

theorem renamed_call (callee : Expr) (arguments : List Expr) (span : Span) :
    (call callee arguments span).renamed g =
      .call (callee.renamed g) (arguments.map (renamed g)) span := by
  rw [← listRenamed_eq]
  rfl

theorem renamed_member (object : Expr) (property : Ident) (span : Span) :
    (member object property span).renamed g = .member (object.renamed g) property span := rfl

theorem renamed_func (f : Func) : (func f).renamed g = .func (f.renamed g) := rfl

end Expr

namespace StatementKind

theorem renamed_declare (name : Ident) (init : Option Expr) :
    (declare name init).renamed g = .declare name (init.map (Expr.renamed g)) := by
  cases init <;> rfl

theorem renamed_assign (target value : Expr) :
    (assign target value).renamed g = .assign (target.renamed g) (value.renamed g) := rfl

theorem renamed_expr (value : Expr) : (expr value).renamed g = .expr (value.renamed g) := rfl

theorem renamed_ret (value : Option Expr) :
    (ret value).renamed g = .ret (value.map (Expr.renamed g)) := by
  cases value <;> rfl

theorem renamed_block (body : Block) : (block body).renamed g = .block (body.renamed g) := rfl

theorem renamed_branch (condition : Expr) (yes : Block) (no : Option Block) :
    (branch condition yes no).renamed g =
      .branch (condition.renamed g) (yes.renamed g) (no.map (Block.renamed g)) := by
  cases no <;> rfl

theorem renamed_switch (subject : Expr) (arms : List Arm) (otherwise : Option Block) :
    (switch subject arms otherwise).renamed g =
      .switch (subject.renamed g) (arms.map (Arm.renamed g)) (otherwise.map (Block.renamed g)) := by
  rw [← Arm.listRenamed_eq]
  cases otherwise <;> rfl

end StatementKind

/-- What drives a loop, renamed. -/
def LoopHead.renamed (g : String → String) : LoopHead → LoopHead
  | whileDo condition => whileDo (condition.renamed g)
  | doWhile condition => doWhile (condition.renamed g)
  | counting init test update =>
    counting (init.map (Statement.renamed g)) (test.map (Expr.renamed g))
      (update.map (Statement.renamed g))

namespace StatementKind

theorem renamed_loop (label : Option Ident) (head : LoopHead) (body : Block) :
    (loop label head body).renamed g = .loop label (head.renamed g) (body.renamed g) := by
  cases head with
  | counting init test update => cases init <;> cases test <;> cases update <;> rfl
  | whileDo condition => rfl
  | doWhile condition => rfl

theorem renamed_wait (body : Block) : (wait body).renamed g = .wait (body.renamed g) := rfl

theorem renamed_func (f : Func) : (func f).renamed g = .func (f.renamed g) := rfl

end StatementKind

/-! ## Renaming as a variation -/

section
variable {v : Variation}

/-- Renaming references makes code with these nodes vary. -/
structure Variation.Renames (v : Variation) (g : String → String) (ns : List Node) : Prop where
  id : ∀ n ∈ ns, ∀ i, n.id? = some i → v.id i i
  bound : ∀ n ∈ ns, ∀ x ∈ n.bound, v.declares x.name x.name
  refers : ∀ n ∈ ns, ∀ x ∈ n.refers, v.refers x (g x)

theorem Variation.Renames.mono {l l' : List Node} (h : v.Renames g l) (sub : ∀ n ∈ l', n ∈ l) :
    v.Renames g l' :=
  ⟨fun n hn => h.id n (sub n hn), fun n hn => h.bound n (sub n hn), fun n hn => h.refers n (sub n hn)⟩

theorem Variation.variant_renamed :
    Cases (fun e => v.Renames g (e.nodes fun _ => true) → e.Variant v (e.renamed g))
      (fun f => v.Renames g f.allNodes → f.Variant v (f.renamed g))
      (fun b => v.Renames g (b.nodes fun _ => true) → b.Variant v (b.renamed g))
      fun s => v.Renames g (s.nodes fun _ => true) → s.Variant v (s.renamed g) where
  expr e operands functions := by
    intro renames
    have self : .expr e ∈ e.nodes fun _ => true := by
      rw [Expr.nodes_parts]
      exact List.mem_cons_self
    have names : ∀ x ∈ e.names, x.Varies v.refers (x.renamed g) := fun x hx =>
      ⟨renames.refers _ self x.name (List.mem_map_of_mem hx), rfl⟩
    cases e with
    | ident x => exact .ident (names x List.mem_cons_self)
    | defer bs span =>
      refine .defer span ?_
      rw [List.forall₂_map_right_iff, List.forall₂_same]
      exact names
    | _ =>
      refine .parts rfl ?_
      have congruent := Expr.congruent_rewrite (.keeping fun _ : Unit => True)
        (E := fun _ => Expr.Variant v) (F := fun _ => Func.Variant v) (r := .references g)
        (fun _ => rfl)
        (fun o ho _ _ => ⟨trivial, operands o ho <|
          renames.mono fun n hn => Expr.mem_nodes_of_operand ho hn⟩)
        (fun f hf _ _ => ⟨trivial, functions f hf <|
          renames.mono fun n hn => Expr.mem_nodes_of_function hf hn⟩)
      exact (congruent () trivial).2
  func f body := by
    intro renames
    have self := renames.bound (.func f) (by rw [f.allNodes_eq]; exact List.mem_cons_self)
    have id := renames.id (.func f) (by rw [f.allNodes_eq]; exact List.mem_cons_self) _ rfl
    have inside := body (renames.mono fun n hn => f.mem_allNodes_of_body hn)
    rw [Func.renamed_eq]
    obtain ⟨i, name, params, b, span⟩ := f
    refine .mk id ?_ inside
    cases name with
    | none => exact .none
    | some x => exact .some ⟨self x List.mem_cons_self, rfl⟩
  block b statements := by
    intro renames
    have id := renames.id (.block b) (by rw [Block.nodes_eq]; exact List.mem_cons_self) _ rfl
    have inside (s : Statement) (hs : s ∈ b.statements) : s.Variant v (s.renamed g) :=
      statements s hs (renames.mono fun n hn => Block.mem_nodes_of_statement hs hn)
    rw [Block.renamed_eq]
    obtain ⟨i, ss, span⟩ := b
    refine .block span id ?_
    rw [List.forall₂_map_right_iff, List.forall₂_same]
    exact inside
  statement s exprs headers blocks functions := by
    intro renames
    have self : .statement s ∈ s.nodes fun _ => true := by
      rw [Statement.nodes_eq]
      exact List.mem_cons_self
    have id := renames.id _ self _ rfl
    have declared := renames.bound _ self
    have exprs (e : Expr) (he : e ∈ s.kind.tests ++ s.kind.operands) : e.Variant v (e.renamed g) :=
      exprs e he (renames.mono fun n hn => Statement.mem_nodes_of_expr he hn)
    have congruent := StatementKind.congruent_rewrite (k := s.kind)
      (.keeping fun _ : Unit => True) (E := fun _ => Expr.Variant v)
      (S := fun _ => Statement.Variant v) (B := fun _ => Block.Variant v)
      (F := fun _ => Func.Variant v) (r := .references g) (fun e he _ _ => ⟨trivial, exprs e he⟩)
      (fun h hh _ _ => ⟨trivial, headers h hh <|
        renames.mono fun n hn => Statement.mem_nodes_of_header hh hn⟩)
      (fun b hb _ _ => ⟨trivial, blocks b hb <|
        renames.mono fun n hn => Statement.mem_nodes_of_block hb hn⟩)
      (fun f hf _ _ => ⟨trivial, functions f hf <|
        renames.mono fun n hn => Statement.mem_nodes_of_function hf hn⟩)
    have congruent : s.kind.Congruent _ _ _ _ (s.kind.renamed g) := (congruent () trivial).2
    rw [Statement.renamed_eq]
    obtain ⟨i, kind, span⟩ := s
    cases kind with
    | declare x init =>
      rw [StatementKind.renamed_declare]
      refine .declare span id ⟨declared x List.mem_cons_self, rfl⟩ ?_
      cases init with
      | none => exact .none
      | some e => exact .some (exprs e (by simp [StatementKind.tests, StatementKind.operands]))
    | _ => exact .parts span id rfl congruent

/-! ### Code that varies so -/

theorem eq_map_of_forall₂ {α : Type} {h : α → α} {l l' : List α}
    (same : List.Forall₂ (fun a a' => a' = h a) l l') : l' = l.map h := by
  induction same with
  | nil => rfl
  | cons first _ ih => rw [List.map_cons, first, ih]

theorem eq_map_of_optionRel {α : Type} {h : α → α} {o o' : Option α}
    (same : Option.Rel (fun a a' => a' = h a) o o') : o' = o.map h := by
  cases same with
  | none => rfl
  | some same => rw [Option.map_some, same]

theorem Expr.Congruent.eq_renamed {e e' : Expr} (nameless : e.names = [])
    (h : e.Congruent (fun e e' => e' = e.renamed g) (fun f f' => f' = f.renamed g) e') :
    e' = e.renamed g := by
  cases h with
  | leaf e noOperands noFunctions =>
    cases e with
    | ident x => cases nameless
    | defer bs span =>
      change bs = [] at nameless
      rw [nameless]
      rfl
    | func f => cases noFunctions
    | call | unary | binary | member => cases noOperands
    | _ => rfl
  | unary op span operand => rw [renamed_unary, operand]
  | binary op span left right => rw [renamed_binary, left, right]
  | call span callee arguments => rw [renamed_call, callee, eq_map_of_forall₂ arguments]
  | member property span object => rw [renamed_member, object]
  | func function => rw [renamed_func, function]

theorem StatementKind.Congruent.eq_renamed {k k' : StatementKind}
    (h : k.Congruent (fun e e' => e' = e.renamed g) (fun s s' => s' = s.renamed g)
      (fun b b' => b' = b.renamed g) (fun f f' => f' = f.renamed g) k') : k' = k.renamed g := by
  cases h with
  | declare name init => rw [renamed_declare, eq_map_of_optionRel init]
  | assign target value => rw [renamed_assign, target, value]
  | expr value => rw [renamed_expr, value]
  | ret value => rw [renamed_ret, eq_map_of_optionRel value]
  | block body => rw [renamed_block, body]
  | branch condition yes no => rw [renamed_branch, condition, yes, eq_map_of_optionRel no]
  | switch subject arms otherwise =>
    have arms := eq_map_of_forall₂ (h := Arm.renamed g) (arms.imp fun a a' same => by
      obtain ⟨span, test, body⟩ := same
      rw [Arm.renamed, test, body])
    rw [renamed_switch, subject, arms, eq_map_of_optionRel otherwise]
  | loop label head body =>
    rw [renamed_loop, body]
    cases head with
    | whileDo condition => rw [LoopHead.renamed, condition]
    | doWhile condition => rw [LoopHead.renamed, condition]
    | counting init test update =>
      rw [LoopHead.renamed, eq_map_of_optionRel init, eq_map_of_optionRel test,
        eq_map_of_optionRel update]
  | jump kind label => rfl
  | wait body => rw [renamed_wait, body]
  | func function => rw [renamed_func, function]

/-- Only references vary, each by `g`. -/
structure Variation.By (v : Variation) (g : String → String) : Prop where
  id : ∀ {i i'}, v.id i i' → i' = i
  declares : ∀ {x x'}, v.declares x x' → x' = x
  refers : ∀ {x x'}, v.refers x x' → x' = g x

theorem Ident.Varies.eq_renamed (only : v.By g) {x x' : Ident} (h : x.Varies v.refers x') :
    x' = x.renamed g := by
  obtain ⟨name, span⟩ := h
  have name := only.refers name
  cases x'
  simp_all [Ident.renamed]

theorem Expr.Varies.eq_renamed (only : v.By g) {e e' : Expr}
    (h : e.Varies v (fun f f' => f' = f.renamed g) e') : e' = e.renamed g :=
  h.least {
    ident := fun name => by rw [name.eq_renamed only, renamed_ident]
    defer := fun span bindings => by
      rw [renamed_defer, eq_map_of_forall₂ (bindings.imp fun _ _ name => name.eq_renamed only)]
    parts := fun nameless parts => parts.eq_renamed nameless }

theorem Block.Varies.eq_renamed (only : v.By g) {b b' : Block}
    (h : b.Varies v (fun f f' => f' = f.renamed g) b') : b' = b.renamed g := by
  refine h.least (S := fun s s' => s' = s.renamed g) (B := fun b b' => b' = b.renamed g) ⟨?_, ?_, ?_⟩
  · intro i i' x x' init init' span id name value
    have value := eq_map_of_optionRel (optionRel_imp_mem value fun _ _ _ h => h.eq_renamed only)
    rw [Statement.renamed_eq, StatementKind.renamed_declare, only.id id, name.eq only.declares, value]
  · intro i i' k k' span id undeclared parts
    have kind := (parts.imp (fun _ _ _ h => h.eq_renamed only) (fun _ _ _ h => h) (fun _ _ _ h => h)
      fun _ _ h => h).eq_renamed
    rw [Statement.renamed_eq, only.id id, kind]
  · intro i i' ss ss' span id statements
    rw [Block.renamed_eq, only.id id, eq_map_of_forall₂ statements]

/-- A function that varies from another by renaming is the renamed one. -/
theorem Func.Variant.eq_renamed (only : v.By g) {f f' : Func} (h : f.Variant v f') :
    f' = f.renamed g := by
  induction h with
  | @func i i' name name' params b b' span F _ id named body ih =>
    have named : name' = name := by
      cases named with
      | none => rfl
      | some name => rw [name.eq only.declares]
    have body := (body.mono (.refl v) ih).eq_renamed only
    rw [renamed_eq, only.id id, named, body]

/-- The variation of code with renamed references. -/
def Variation.ofNames (g : String → String) : Variation where
  id i i' := i' = i
  declares x x' := x' = x
  refers x x' := x' = g x

theorem Func.variant_ofNames (f : Func) : f.Variant (.ofNames g) (f.renamed g) :=
  Func.whole Variation.variant_renamed f ⟨fun _ _ _ _ => rfl, fun _ _ _ _ => rfl, fun _ _ _ _ => rfl⟩

/-- What is read off the walk without regard to references is the same. -/
theorem Func.reads_renamed {γ : Type} {read : Node → List γ} {enter : Func → Bool}
    (compares : ∀ F, (Variation.ofNames g).Compares F (.reading read))
    (func : ∀ {f f' : Func}, f.Variant (.ofNames g) f' → read (.func f') = read (.func f))
    (same : ∀ {f f' : Func}, f.Variant (.ofNames g) f' → enter f' = enter f) (f : Func) :
    ((f.renamed g).nodes enter).flatMap read = (f.nodes enter).flatMap read :=
  f.variant_ofNames.compares compares (fun h => Comparison.reading_node (func h)) same

theorem Func.ids_renamed (f : Func) : (f.renamed g).ids = f.ids := by
  have compares (F : Func → Func → Prop) :
      (Variation.ofNames g).Compares F (.reading fun n => n.id?.toList) := {
    ident := fun _ _ => rfl
    expr := fun _ => rfl
    statement := fun h => Comparison.reading_node (by
      cases h with
      | declare span id | parts span id => exact congrArg (fun i => [i]) id)
    block := fun h => Comparison.reading_node (by
      cases h with
      | block span id => exact congrArg (fun i => [i]) id) }
  have ids (f : Func) : f.ids = f.allNodes.flatMap fun n => n.id?.toList :=
    List.filterMap_eq_flatMap_toList _ _
  rw [ids, ids]
  refine Func.reads_renamed compares (fun h => ?_) (fun _ => rfl) f
  cases h with
  | func params span F inside id => exact congrArg (fun i => [i]) id

/-- A module with renamed references binds the same names. -/
theorem Func.bound_renamed (f : Func) :
    (f.renamed g).allNodes.flatMap Node.bound = f.allNodes.flatMap Node.bound := by
  have compares (F : Func → Func → Prop) :
      (Variation.ofNames g).Compares F (.reading Node.bound) := {
    ident := fun _ _ => rfl
    expr := fun _ => rfl
    statement := fun h => Comparison.reading_node (by
      cases h with
      | declare span id name => exact congrArg (fun x => [x]) (name.eq fun h => h)
      | parts span id undeclared parts => exact parts.alike.declared)
    block := fun _ => rfl }
  refine Func.reads_renamed compares (fun h => ?_) (fun _ => rfl) f
  cases h with
  | func params span F inside id named =>
    cases named with
    | none => rfl
    | some name => simp only [Node.bound, name.eq fun h => h]

/-- What code with renamed references refers to is a new name. -/
theorem Func.refers_renamed {f : Func} {n : Node} (hn : n ∈ (f.renamed g).allNodes) {x : String}
    (hx : x ∈ n.refers) : ∃ y, x = g y := by
  let W : Comparison := {
    Of := fun _ l' => ∀ n ∈ l', ∀ x ∈ n.refers, ∃ y, x = g y
    nil := by simp
    append := fun h h' n hn => (List.mem_append.mp hn).elim (h n) (h' n)
    ident := by simp [Node.refers] }
  have compares (F : Func → Func → Prop) : (Variation.ofNames g).Compares F W := {
    ident := fun _ _ => by simp [W, Node.refers]
    expr := fun {e e'} h => by
      have names : ∀ i ∈ e'.names, ∃ y, i.name = g y := by
        cases h with
        | ident name => simpa [Expr.names] using ⟨_, name.name⟩
        | defer span bindings =>
          intro i hi
          obtain ⟨j, -, name⟩ := exists_left_of_forall₂ bindings hi
          exact ⟨j.name, name.name⟩
        | parts nameless parts => simp [parts.names, nameless]
      simpa [W, Node.refers] using names
    statement := fun _ => by simp [W, Node.refers]
    block := fun _ => by simp [W, Node.refers] }
  exact f.variant_ofNames.compares compares (fun _ => by simp [W, Node.refers]) (fun _ => rfl) n hn x hx

end

end

/-! ## There and back -/

theorem Module.renamed_eq (m : Module) :
    m.renamed g = { m with functions := m.functions.map (Func.renamed g) } := rfl

/-- References that are given their old names again are as before. -/
theorem renamed_back_cases {g g' : String → String} (back : ∀ x, g' (g x) = x) :
    Cases (fun e => e = (e.renamed g).renamed g') (fun f => f = (f.renamed g).renamed g')
      (fun b => b = (b.renamed g).renamed g') fun s => s = (s.renamed g).renamed g' where
  expr e operands functions := by
    have ident (x : Ident) : (x.renamed g).renamed g' = x := by
      rw [Ident.renamed, Ident.renamed, back]
    cases e with
    | ident x => rw [Expr.renamed_ident, Expr.renamed_ident, ident]
    | defer bindings span =>
      have same : (bindings.map (Ident.renamed g)).map (Ident.renamed g') = bindings := by
        rw [List.map_map]
        exact (List.map_congr_left fun x _ => ident x).trans (List.map_id bindings)
      rw [Expr.renamed_defer, Expr.renamed_defer, same]
    | _ =>
      have congruent := Expr.congruent_rewrite (.keeping fun _ : Unit => True)
        (E := fun _ e e' => e = e'.renamed g') (F := fun _ f f' => f = f'.renamed g')
        (r := .references g) (fun _ => rfl) (fun o ho _ _ => ⟨trivial, operands o ho⟩)
        (fun f hf _ _ => ⟨trivial, functions f hf⟩)
      exact (congruent () trivial).2.flip.eq_renamed rfl
  func f body := by
    rw [Func.renamed_eq, Func.renamed_eq]
    cases f
    simp only [← body]
  block b statements := by
    have same : (b.statements.map (Statement.renamed g)).map (Statement.renamed g') =
        b.statements := by
      rw [List.map_map]
      exact (List.map_congr_left fun s hs => (statements s hs).symm).trans (List.map_id _)
    rw [Block.renamed_eq, Block.renamed_eq]
    cases b
    simp only [same]
  statement s exprs headers blocks functions := by
    have congruent := StatementKind.congruent_rewrite (k := s.kind)
      (.keeping fun _ : Unit => True) (E := fun _ e e' => e = e'.renamed g')
      (S := fun _ s s' => s = s'.renamed g') (B := fun _ b b' => b = b'.renamed g')
      (F := fun _ f f' => f = f'.renamed g') (r := .references g)
      (fun e he _ _ => ⟨trivial, exprs e he⟩) (fun h hh _ _ => ⟨trivial, headers h hh⟩)
      (fun b hb _ _ => ⟨trivial, blocks b hb⟩) (fun f hf _ _ => ⟨trivial, functions f hf⟩)
    have kind : s.kind = (s.kind.renamed g).renamed g' :=
      (congruent () trivial).2.flip.eq_renamed
    rw [Statement.renamed_eq, Statement.renamed_eq, ← kind]
    cases s
    rfl

theorem Module.renamed_back {g g' : String → String} (back : ∀ x, g' (g x) = x) (m : Module) :
    (m.renamed g).renamed g' = m := by
  have same : (m.functions.map (Func.renamed g)).map (Func.renamed g') = m.functions := by
    rw [List.map_map]
    refine (List.map_congr_left fun f _ => ?_).trans (List.map_id _)
    exact (Func.whole (renamed_back_cases back) f).symm
  rw [Module.renamed_eq, Module.renamed_eq, same]

/-- Where every reference keeps its name, nothing changes. -/
theorem renamed_id_cases : Cases (fun e => e.renamed id = e) (fun f => f.renamed id = f)
    (fun b => b.renamed id = b) fun s => s.renamed id = s where
  expr e operands functions := by
    cases e with
    | ident x => rfl
    | defer bs span =>
      have same : bs.map (Ident.renamed id) = bs := List.map_id bs
      rw [Expr.renamed_defer, same]
    | _ =>
      have congruent := Expr.congruent_rewrite (.keeping fun _ : Unit => True) (E := fun _ => Eq)
        (F := fun _ => Eq) (r := .references id) (fun _ => rfl)
        (fun o ho _ _ => ⟨trivial, (operands o ho).symm⟩)
        (fun f hf _ _ => ⟨trivial, (functions f hf).symm⟩)
      exact (congruent () trivial).2.eq.symm
  func f body := by
    rw [Func.renamed_eq, body]
    cases f
    rfl
  block b statements := by
    rw [Block.renamed_eq, List.map_congr_left (g := id) statements, List.map_id]
    cases b
    rfl
  statement s exprs headers blocks functions := by
    have congruent := StatementKind.congruent_rewrite (k := s.kind)
      (.keeping fun _ : Unit => True) (E := fun _ => Eq) (S := fun _ => Eq) (B := fun _ => Eq)
      (F := fun _ => Eq) (r := .references id) (fun e he _ _ => ⟨trivial, (exprs e he).symm⟩)
      (fun h hh _ _ => ⟨trivial, (headers h hh).symm⟩)
      (fun b hb _ _ => ⟨trivial, (blocks b hb).symm⟩)
      (fun f hf _ _ => ⟨trivial, (functions f hf).symm⟩)
    have kind : s.kind = s.kind.renamed id := (congruent () trivial).2.eq
    rw [Statement.renamed_eq, ← kind]
    cases s
    rfl

theorem Func.renamed_id (f : Func) : f.renamed (fun x => x) = f := Func.whole renamed_id_cases f

end WaitDefer
