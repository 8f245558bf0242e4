import WaitDefer.Proofs.Tree.Congruent

/-!
# Code that varies in ids and names

Two pieces of code may be the same but for the ids of their nodes and for names:

* `Variation`: which id and which name may stand where which stood;
* `Block.Varies`: own code that varies so; `Func.Variant`: code that does throughout;
* `Expr.Varies.least`, `Block.Varies.least`: induction over two such pieces of code at once;
* `Block.Varies.compares`: the walks of two such pieces of code compare, if the nodes do;
* `Block.Varies.mono`: what varies less varies more.
-/

namespace WaitDefer

/-- Which id may stand where which stood, and which name where one is declared or referred to. -/
structure Variation where
  id : NodeId → NodeId → Prop
  declares : String → String → Prop
  refers : String → String → Prop

/-- Names at the same place. -/
structure Ident.Varies (R : String → String → Prop) (x x' : Ident) : Prop where
  name : R x.name x'.name
  span : x'.span = x.span

section
variable (v : Variation) (F : Func → Func → Prop)

mutual

/-- The same expression, but for references that vary and functions that correspond. -/
inductive Expr.Varies : Expr → Expr → Prop
  | ident {x x' : Ident} (name : x.Varies v.refers x') : Expr.Varies (.ident x) (.ident x')
  | defer {bs bs' : List Ident} (span : Span)
    (bindings : List.Forall₂ (Ident.Varies v.refers) bs bs') :
    Expr.Varies (.defer bs span) (.defer bs' span)
  | parts {e e' : Expr} (nameless : e.names = []) (parts : e.Congruent Expr.Varies F e') :
    Expr.Varies e e'

/-- The same statement, but for ids and names that vary and functions that correspond. -/
inductive Statement.Varies : Statement → Statement → Prop
  | declare {i i' : NodeId} {x x' : Ident} {init init' : Option Expr} (span : Span) (id : v.id i i')
    (name : x.Varies v.declares x') (value : Option.Rel Expr.Varies init init') :
    Statement.Varies ⟨i, .declare x init, span⟩ ⟨i', .declare x' init', span⟩
  | parts {i i' : NodeId} {k k' : StatementKind} (span : Span) (id : v.id i i')
    (undeclared : k.declared = [])
    (parts : k.Congruent Expr.Varies Statement.Varies Block.Varies F k') :
    Statement.Varies ⟨i, k, span⟩ ⟨i', k', span⟩

/-- The same block, but for ids and names that vary and functions that correspond. -/
inductive Block.Varies : Block → Block → Prop
  | block {i i' : NodeId} {ss ss' : List Statement} (span : Span) (id : v.id i i')
    (statements : List.Forall₂ Statement.Varies ss ss') :
    Block.Varies ⟨i, ss, span⟩ ⟨i', ss', span⟩

end

end

/-- The same function, but for ids and names that vary, also in functions inside. -/
inductive Func.Variant (v : Variation) : Func → Func → Prop
  | func {i i' : NodeId} {name name' : Option Ident} (params : List Ident) {b b' : Block}
    (span : Span) (F : Func → Func → Prop) (inside : ∀ g g', F g g' → Func.Variant v g g')
    (id : v.id i i') (named : Option.Rel (Ident.Varies v.declares) name name')
    (body : Block.Varies v F b b') :
    Func.Variant v ⟨i, name, params, b, span⟩ ⟨i', name', params, b', span⟩

/-- The same expression, but for ids and names that vary, also in functions inside. -/
abbrev Expr.Variant (v : Variation) : Expr → Expr → Prop := Expr.Varies v (Func.Variant v)

/-- The same statement, but for ids and names that vary, also in functions inside. -/
abbrev Statement.Variant (v : Variation) : Statement → Statement → Prop :=
  Statement.Varies v (Func.Variant v)

/-- The same block, but for ids and names that vary, also in functions inside. -/
abbrev Block.Variant (v : Variation) : Block → Block → Prop := Block.Varies v (Func.Variant v)

/-! ## Parts that correspond otherwise -/

section
variable {E : Expr → Expr → Prop} {S : Statement → Statement → Prop}
  {B : Block → Block → Prop} {F : Func → Func → Prop}

theorem optionRel_flip {α β : Type} {R : α → β → Prop} {o : Option α} {o' : Option β}
    (h : Option.Rel R o o') : Option.Rel (flip R) o' o := by
  cases h with
  | none => exact .none
  | some r => exact .some r

theorem Expr.Congruent.flip {e e' : Expr} (h : e.Congruent E F e') :
    e'.Congruent (flip E) (flip F) e := by
  cases h with
  | leaf e operands functions => exact .leaf e operands functions
  | unary op span operand => exact .unary op span operand
  | binary op span left right => exact .binary op span left right
  | call span callee arguments => exact .call span callee arguments.flip
  | member property span object => exact .member property span object
  | func function => exact .func function

theorem StatementKind.Congruent.flip {k k' : StatementKind} (h : k.Congruent E S B F k') :
    k'.Congruent (flip E) (flip S) (flip B) (flip F) k := by
  cases h with
  | declare name init => exact .declare name (optionRel_flip init)
  | assign target value => exact .assign target value
  | expr value => exact .expr value
  | ret value => exact .ret (optionRel_flip value)
  | block body => exact .block body
  | branch condition yes no => exact .branch condition yes (optionRel_flip no)
  | switch subject arms otherwise =>
    refine .switch subject (List.Forall₂.flip (arms.imp fun a a' same => ?_))
      (optionRel_flip otherwise)
    obtain ⟨span, test, body⟩ := same
    exact .arm span test body
  | loop label head body =>
    refine .loop label ?_ body
    cases head with
    | whileDo condition => exact .whileDo condition
    | doWhile condition => exact .doWhile condition
    | counting init test update =>
      exact .counting (optionRel_flip init) (optionRel_flip test) (optionRel_flip update)
  | jump kind label => exact .jump kind label
  | wait body => exact .wait body
  | func function => exact .func function

end

/-! ## Induction -/

section
variable {v v' : Variation} {F F' : Func → Func → Prop}

/-- What holds of two expressions if it holds of their parts. -/
structure Variation.OnExprs (v : Variation) (F : Func → Func → Prop) (E : Expr → Expr → Prop) :
    Prop where
  ident {x x' : Ident} : x.Varies v.refers x' → E (.ident x) (.ident x')
  defer {bs bs' : List Ident} (span : Span) : List.Forall₂ (Ident.Varies v.refers) bs bs' →
    E (.defer bs span) (.defer bs' span)
  parts {e e' : Expr} : e.names = [] → e.Congruent E F e' → E e e'

theorem Expr.Varies.least {E : Expr → Expr → Prop} (closed : v.OnExprs F E) {e e' : Expr}
    (h : e.Varies v F e') : E e e' := by
  induction e using Expr.inductOn generalizing e' with
  | step e ih =>
    cases h with
    | ident name => exact closed.ident name
    | defer span bindings => exact closed.defer span bindings
    | parts nameless parts =>
      exact closed.parts nameless (parts.imp (fun o ho o' h => ih o ho h) fun _ _ h => h)

/-- What holds of two pieces of code if it holds of the statements and blocks in them. -/
structure Variation.OnCode (v : Variation) (F : Func → Func → Prop)
    (S : Statement → Statement → Prop) (B : Block → Block → Prop) : Prop where
  declare {i i' : NodeId} {x x' : Ident} {init init' : Option Expr} (span : Span) : v.id i i' →
    x.Varies v.declares x' → Option.Rel (Expr.Varies v F) init init' →
    S ⟨i, .declare x init, span⟩ ⟨i', .declare x' init', span⟩
  parts {i i' : NodeId} {k k' : StatementKind} (span : Span) : v.id i i' → k.declared = [] →
    k.Congruent (Expr.Varies v F) S B F k' → S ⟨i, k, span⟩ ⟨i', k', span⟩
  block {i i' : NodeId} {ss ss' : List Statement} (span : Span) : v.id i i' →
    List.Forall₂ S ss ss' → B ⟨i, ss, span⟩ ⟨i', ss', span⟩

theorem Block.Varies.least {S : Statement → Statement → Prop} {B : Block → Block → Prop}
    (closed : v.OnCode F S B) {b b' : Block} (h : b.Varies v F b') : B b b' := by
  induction b using Block.inductOn (Q := fun s => ∀ s', s.Varies v F s' → S s s') generalizing b' with
  | block b ih =>
    cases h with
    | block span id statements =>
      exact closed.block span id (forall₂_imp_mem statements fun s hs s' => ih s hs s')
  | statement s headers blocks =>
    rename_i s' h
    cases h with
    | declare span id name value => exact closed.declare span id name value
    | parts span id undeclared parts =>
      exact closed.parts span id undeclared (parts.imp (fun _ _ _ h => h) headers
        (fun b hb b' h => blocks b hb h) fun _ _ h => h)

/-! ## The walk -/

/-- Nodes that vary compare one by one, and so do all names. -/
structure Variation.Compares (v : Variation) (F : Func → Func → Prop) (W : Comparison) : Prop where
  ident (x x' : Ident) : W.Of [.ident x] [.ident x']
  expr {e e' : Expr} : e.Varies v F e' → W.Of [.expr e] [.expr e']
  statement {s s' : Statement} : s.Varies v F s' → W.Of [.statement s] [.statement s']
  block {b b' : Block} : b.Varies v F b' → W.Of [.block b] [.block b']

section
variable {W : Comparison} {enter enter' : Func → Bool}

theorem Expr.Varies.compares (compares : v.Compares F W)
    (functions : ∀ f f', F f f' → f.Compares W enter enter' f') {e e' : Expr}
    (h : e.Varies v F e') : e.Compares W enter enter' e' := by
  refine (h.least (E := fun e e' => e.Varies v F e' ∧ e.Compares W enter enter' e')
    ⟨fun {x x'} name => ?_, fun {bs bs'} span bindings => ?_, fun {e e'} nameless parts => ?_⟩).2
  · have varies : (Expr.ident x).Varies v F (.ident x') := .ident name
    refine ⟨varies, ?_⟩
    rw [Expr.Compares, Expr.nodes, Expr.nodes]
    exact W.cons (compares.expr varies) (compares.ident x x')
  · have varies : (Expr.defer bs span).Varies v F (.defer bs' span) := .defer span bindings
    have names : W.Of (bs.map .ident) (bs'.map .ident) := by
      clear varies
      induction bindings with
      | nil => exact W.nil
      | cons _ _ ih => exact W.cons (compares.ident _ _) ih
    refine ⟨varies, ?_⟩
    rw [Expr.Compares, Expr.nodes, Expr.nodes]
    exact W.cons (compares.expr varies) names
  · have varies : e.Varies v F e' := .parts nameless (parts.imp (fun _ _ _ h => h.1) fun _ _ h => h)
    have rest := (parts.imp (fun _ _ _ h => h.2) functions).walk
    refine ⟨varies, ?_⟩
    rw [Expr.nodes_parts, Expr.nodes_parts] at rest
    rw [Expr.Compares, Expr.nodes_parts, Expr.nodes_parts]
    exact W.cons (compares.expr varies) rest

theorem Block.Varies.compares (compares : v.Compares F W)
    (functions : ∀ f f', F f f' → f.Compares W enter enter' f') {b b' : Block}
    (h : b.Varies v F b') : b.Compares W enter enter' b' := by
  refine (h.least (S := fun s s' => s.Varies v F s' ∧ s.Compares W enter enter' s')
    (B := fun b b' => b.Varies v F b' ∧ b.Compares W enter enter' b') ⟨?_, ?_, ?_⟩).2
  · intro i i' x x' init init' span id name value
    have varies := Statement.Varies.declare span id name value
    have inside : W.Of ((StatementKind.declare x init).nodes enter)
        ((StatementKind.declare x' init').nodes enter') := by
      cases value with
      | none => exact compares.ident x x'
      | some value => exact W.cons (compares.ident x x') (value.compares compares functions)
    refine ⟨varies, ?_⟩
    rw [Statement.Compares, Statement.nodes_eq, Statement.nodes_eq]
    exact W.cons (compares.statement varies) inside
  · intro i i' k k' span id undeclared parts
    have varies : Statement.Varies v F ⟨i, k, span⟩ ⟨i', k', span⟩ := .parts span id undeclared
      (parts.imp (fun _ _ _ h => h) (fun _ _ _ h => h.1) (fun _ _ _ h => h.1) fun _ _ h => h)
    have rest := (parts.imp (fun _ _ _ h => h.compares compares functions) (fun _ _ _ h => h.2)
      (fun _ _ _ h => h.2) functions).walk
    refine ⟨varies, ?_⟩
    rw [Statement.Compares, Statement.nodes_eq, Statement.nodes_eq]
    exact W.cons (compares.statement varies) rest
  · intro i i' ss ss' span id statements
    have varies : Block.Varies v F ⟨i, ss, span⟩ ⟨i', ss', span⟩ :=
      .block span id (statements.imp fun _ _ h => h.1)
    refine ⟨varies, ?_⟩
    rw [Block.Compares, Block.nodes_eq, Block.nodes_eq]
    exact W.cons (compares.block varies) (W.flatMap statements fun _ _ h => h.2)

/-- Functions that are not entered compare. -/
theorem Func.compares_outside (f f' : Func) : f.Compares W (fun _ => false) (fun _ => false) f' := by
  obtain ⟨id, name, params, body, span⟩ := f
  obtain ⟨id', name', params', body', span'⟩ := f'
  exact W.nil

end

/-! ## More variation -/

/-- One variation allows what another does. -/
structure Variation.Le (v v' : Variation) : Prop where
  id : ∀ {i i'}, v.id i i' → v'.id i i'
  declares : ∀ {x x'}, v.declares x x' → v'.declares x x'
  refers : ∀ {x x'}, v.refers x x' → v'.refers x x'

theorem Ident.Varies.imp {R R' : String → String → Prop} {x x' : Ident} (h : x.Varies R x')
    (imp : ∀ {y y'}, R y y' → R' y y') : x.Varies R' x' := ⟨imp h.name, h.span⟩

theorem Ident.Varies.eq {R : String → String → Prop} {x x' : Ident} (h : x.Varies R x')
    (same : ∀ {y y'}, R y y' → y' = y) : x' = x := by
  have name := same h.name
  have span := h.span
  cases x
  cases x'
  simp_all

theorem Expr.Varies.mono (le : v.Le v') (functions : ∀ f f', F f f' → F' f f') {e e' : Expr}
    (h : e.Varies v F e') : e.Varies v' F' e' :=
  h.least {
    ident := fun name => .ident (name.imp le.refers)
    defer := fun span bindings => .defer span (bindings.imp fun _ _ name => name.imp le.refers)
    parts := fun nameless parts => .parts nameless (parts.imp (fun _ _ _ h => h) functions) }

theorem Block.Varies.mono (le : v.Le v') (functions : ∀ f f', F f f' → F' f f') {b b' : Block}
    (h : b.Varies v F b') : b.Varies v' F' b' :=
  h.least {
    declare := fun span id name value => .declare span (le.id id) (name.imp le.declares)
      (optionRel_imp_mem value fun _ _ _ e => e.mono le functions)
    parts := fun span id undeclared parts => .parts span (le.id id) undeclared
      (parts.imp (fun _ _ _ e => e.mono le functions) (fun _ _ _ h => h) (fun _ _ _ h => h) functions)
    block := fun span id statements => .block span (le.id id) statements }

theorem Func.Variant.mk {i i' : NodeId} {name name' : Option Ident} {params : List Ident}
    {b b' : Block} {span : Span} (id : v.id i i')
    (named : Option.Rel (Ident.Varies v.declares) name name') (body : b.Variant v b') :
    Func.Variant v ⟨i, name, params, b, span⟩ ⟨i', name', params, b', span⟩ :=
  .func params span _ (fun _ _ h => h) id named body

theorem Variation.Le.refl (v : Variation) : v.Le v := ⟨fun h => h, fun h => h, fun h => h⟩

theorem Func.Variant.mono (le : v.Le v') {f f' : Func} (h : f.Variant v f') : f.Variant v' f' := by
  induction h with
  | func params span F inside id named body ih =>
    exact .mk (le.id id) (optionRel_imp_mem named fun _ _ _ h => h.imp le.declares) (body.mono le ih)

theorem Func.Variant.span {f f' : Func} (h : f.Variant v f') : f'.span = f.span := by
  cases h
  rfl

section
variable {W : Comparison} {enter enter' : Func → Bool}

/-- The walks of functions that vary compare, if the nodes do and the same functions are entered. -/
theorem Func.Variant.compares (compares : ∀ F, v.Compares F W)
    (functions : ∀ {f f'}, f.Variant v f' → W.Of [.func f] [.func f'])
    (same : ∀ {f f'}, f.Variant v f' → enter' f' = enter f) {f f' : Func} (h : f.Variant v f') :
    f.Compares W enter enter' f' := by
  induction h with
  | @func i i' name name' params b b' span F inside id named body ih =>
    have varies : Func.Variant v ⟨i, name, params, b, span⟩ ⟨i', name', params, b', span⟩ :=
      .func params span F inside id named body
    have names : W.Of (name.toList.map .ident) (name'.toList.map .ident) := by
      cases named with
      | none => exact W.nil
      | some _ => exact (compares F).ident _ _
    rw [Func.Compares, Func.nodes, Func.nodes, same varies]
    split
    · exact W.cons (functions varies) (W.append (W.append names (W.idents params))
        (body.compares (compares F) ih))
    · exact W.nil

end

theorem Expr.Variant.span {e e' : Expr} (h : e.Variant v e') : e'.span = e.span := by
  cases h with
  | ident name => exact name.span
  | defer span bindings => rfl
  | parts nameless parts =>
    cases parts with
    | func function => exact function.span
    | _ => rfl

end

end WaitDefer
