import Mathlib.Data.List.Forall2
import Mathlib.Data.Option.Basic
import WaitDefer.Proofs.Tree.Paths

/-!
# Code of one form

* `Expr.Alike`, `StatementKind.Alike`: two pieces of code of one form, with parts that correspond;
* `Expr.Congruent`, `StatementKind.Congruent`: the same code, but for parts that correspond;
* `Expr.Congruent.alike`, `StatementKind.Congruent.alike`: such code has one form.
-/

namespace WaitDefer

/-! ## Parts that correspond -/

namespace Expr

/-- The function that an expression is. -/
def functions : Expr → List Func
  | func f => [f]
  | _ => []

/-- The names that an expression mentions itself. -/
def names : Expr → List Ident
  | ident name => [name]
  | defer bindings _ => bindings
  | _ => []

def isDefer : Expr → Bool
  | defer .. => true
  | _ => false

/-- The walk of an expression, sorted by kind of part. -/
theorem nodes_parts (enter : Func → Bool) (e : Expr) :
    e.nodes enter = .expr e :: (e.operands.flatMap (nodes enter) ++ e.names.map .ident ++
      e.functions.flatMap (Func.nodes enter)) := by
  cases e <;> simp [nodes_eq, names, functions]

end Expr

section
variable (E : Expr → Expr → Prop) (S : Statement → Statement → Prop) (B : Block → Block → Prop)
  (F : Func → Func → Prop)

/-- Two expressions of one form, with parts that correspond. -/
structure Expr.Alike (e e' : Expr) : Prop where
  names : e'.names = e.names
  operands : List.Forall₂ E e.operands e'.operands
  functions : List.Forall₂ F e.functions e'.functions
  isDefer : e'.isDefer = e.isDefer

/-- Two statements of one form, with parts that correspond. -/
structure StatementKind.Alike (k k' : StatementKind) : Prop where
  declared : k'.declared = k.declared
  tests : List.Forall₂ E k.tests k'.tests
  operands : List.Forall₂ E k.operands k'.operands
  headers : List.Forall₂ S k.headers k'.headers
  blocks : List.Forall₂ B k.blocks k'.blocks
  functions : List.Forall₂ F k.functions k'.functions
  isWait : k'.isWait = k.isWait
  isLoop : k'.isLoop = k.isLoop
  isSimple : k'.isSimple = k.isSimple

end

/-! ## Lists that correspond -/

section
variable {α β : Type} {R : α → α → Prop} {l l' : List α}

theorem exists_left_of_forall₂ (h : List.Forall₂ R l l') {b : α} (hb : b ∈ l') :
    ∃ a ∈ l, R a b := by
  induction h with
  | nil => cases hb
  | cons r _ ih =>
    rcases List.mem_cons.mp hb with rfl | hb
    · exact ⟨_, List.mem_cons_self, r⟩
    · obtain ⟨a, ha, r⟩ := ih hb
      exact ⟨a, List.mem_cons_of_mem _ ha, r⟩

theorem exists_right_of_forall₂ (h : List.Forall₂ R l l') {a : α} (ha : a ∈ l) :
    ∃ b ∈ l', R a b :=
  exists_left_of_forall₂ (R := flip R) (List.Forall₂.flip h) ha

theorem flatMap_perm {g : α → List β} (h : List.Forall₂ R l l')
    (perm : ∀ a b, R a b → (g b).Perm (g a)) : (l'.flatMap g).Perm (l.flatMap g) := by
  induction h with
  | nil => exact .refl _
  | cons r _ ih => exact (perm _ _ r).append ih

end

theorem forall₂_imp_mem {α β : Type} {R R' : α → β → Prop} {l : List α} {l' : List β}
    (h : List.Forall₂ R l l') (imp : ∀ a ∈ l, ∀ b, R a b → R' a b) : List.Forall₂ R' l l' := by
  induction h with
  | nil => exact .nil
  | cons first _ ih =>
    exact .cons (imp _ List.mem_cons_self _ first) (ih fun a ha => imp a (List.mem_cons_of_mem _ ha))

theorem optionRel_imp_mem {α β : Type} {R R' : α → β → Prop} {o : Option α} {o' : Option β}
    (h : Option.Rel R o o') (imp : ∀ a ∈ o, ∀ b, R a b → R' a b) : Option.Rel R' o o' := by
  cases h with
  | none => exact .none
  | some r => exact .some (imp _ rfl _ r)

/-! ## Code that differs in its parts only -/

section
variable (E : Expr → Expr → Prop) (S : Statement → Statement → Prop) (B : Block → Block → Prop)
  (F : Func → Func → Prop)

/-- The same expression, but for parts that correspond. -/
inductive Expr.Congruent : Expr → Expr → Prop
  | leaf (e : Expr) (operands : e.operands = []) (functions : e.functions = []) : Congruent e e
  | unary (op : UnaryOp) {o o' : Expr} (span : Span) (operand : E o o') :
    Congruent (.unary op o span) (.unary op o' span)
  | binary (op : BinaryOp) {l l' r r' : Expr} (span : Span) (left : E l l') (right : E r r') :
    Congruent (.binary op l r span) (.binary op l' r' span)
  | call {c c' : Expr} {as as' : List Expr} (span : Span) (callee : E c c')
    (arguments : List.Forall₂ E as as') : Congruent (.call c as span) (.call c' as' span)
  | member {o o' : Expr} (property : Ident) (span : Span) (object : E o o') :
    Congruent (.member o property span) (.member o' property span)
  | func {f f' : Func} (function : F f f') : Congruent (.func f) (.func f')

/-- The same arm, but for its test and its body. -/
inductive Arm.Congruent : Arm → Arm → Prop
  | arm (span : Span) {t t' : Expr} {b b' : Block} (test : E t t') (body : B b b') :
    Congruent ⟨t, b, span⟩ ⟨t', b', span⟩

/-- The same head of a loop, but for parts that correspond. -/
inductive LoopHead.Congruent : LoopHead → LoopHead → Prop
  | whileDo {c c' : Expr} (condition : E c c') : Congruent (.whileDo c) (.whileDo c')
  | doWhile {c c' : Expr} (condition : E c c') : Congruent (.doWhile c) (.doWhile c')
  | counting {i i' u u' : Option Statement} {t t' : Option Expr} (init : Option.Rel S i i')
    (test : Option.Rel E t t') (update : Option.Rel S u u') :
    Congruent (.counting i t u) (.counting i' t' u')

/-- The same statement, but for parts that correspond. -/
inductive StatementKind.Congruent : StatementKind → StatementKind → Prop
  | declare (name : Ident) {i i' : Option Expr} (init : Option.Rel E i i') :
    Congruent (.declare name i) (.declare name i')
  | assign {t t' v v' : Expr} (target : E t t') (value : E v v') :
    Congruent (.assign t v) (.assign t' v')
  | expr {v v' : Expr} (value : E v v') : Congruent (.expr v) (.expr v')
  | ret {v v' : Option Expr} (value : Option.Rel E v v') : Congruent (.ret v) (.ret v')
  | block {b b' : Block} (body : B b b') : Congruent (.block b) (.block b')
  | branch {c c' : Expr} {y y' : Block} {n n' : Option Block} (condition : E c c') (yes : B y y')
    (no : Option.Rel B n n') : Congruent (.branch c y n) (.branch c' y' n')
  | switch {e e' : Expr} {as as' : List Arm} {o o' : Option Block} (subject : E e e')
    (arms : List.Forall₂ (Arm.Congruent E B) as as') (otherwise : Option.Rel B o o') :
    Congruent (.switch e as o) (.switch e' as' o')
  | loop (label : Option Ident) {h h' : LoopHead} {b b' : Block}
    (head : LoopHead.Congruent E S h h') (body : B b b') :
    Congruent (.loop label h b) (.loop label h' b')
  | jump (kind : JumpKind) (label : Option Ident) : Congruent (.jump kind label) (.jump kind label)
  | wait {b b' : Block} (body : B b b') : Congruent (.wait b) (.wait b')
  | func {f f' : Func} (function : F f f') : Congruent (.func f) (.func f')

end

section
variable {E E' : Expr → Expr → Prop} {S S' : Statement → Statement → Prop}
  {B B' : Block → Block → Prop} {F F' : Func → Func → Prop}

theorem Expr.Congruent.imp {e e' : Expr} (h : e.Congruent E F e')
    (operands : ∀ o ∈ e.operands, ∀ o', E o o' → E' o o') (functions : ∀ f f', F f f' → F' f f') :
    e.Congruent E' F' e' := by
  cases h with
  | leaf e noOperands noFunctions => exact .leaf e noOperands noFunctions
  | unary op span operand => exact .unary op span (operands _ (by simp [Expr.operands]) _ operand)
  | binary op span left right =>
    exact .binary op span (operands _ (by simp [Expr.operands]) _ left)
      (operands _ (by simp [Expr.operands]) _ right)
  | call span callee arguments =>
    exact .call span (operands _ (by simp [Expr.operands]) _ callee)
      (forall₂_imp_mem arguments fun a ha => operands a (by simp [Expr.operands, ha]))
  | member property span object =>
    exact .member property span (operands _ (by simp [Expr.operands]) _ object)
  | func function => exact .func (functions _ _ function)

theorem StatementKind.Congruent.imp {k k' : StatementKind} (h : k.Congruent E S B F k')
    (exprs : ∀ e ∈ k.tests ++ k.operands, ∀ e', E e e' → E' e e')
    (headers : ∀ s ∈ k.headers, ∀ s', S s s' → S' s s')
    (blocks : ∀ b ∈ k.blocks, ∀ b', B b b' → B' b b') (functions : ∀ f f', F f f' → F' f f') :
    k.Congruent E' S' B' F' k' := by
  cases h with
  | declare name init =>
    exact .declare name (optionRel_imp_mem init fun e he => exprs e (by
      simp [tests, operands, Option.mem_def.mp he]))
  | assign target value =>
    exact .assign (exprs _ (by simp [operands]) _ target) (exprs _ (by simp [operands]) _ value)
  | expr value => exact .expr (exprs _ (by simp [operands]) _ value)
  | ret value =>
    exact .ret (optionRel_imp_mem value fun e he => exprs e (by
      simp [tests, operands, Option.mem_def.mp he]))
  | block body => exact .block (blocks _ (by simp [StatementKind.blocks]) _ body)
  | branch condition yes no =>
    exact .branch (exprs _ (by simp [tests]) _ condition)
      (blocks _ (by simp [StatementKind.blocks]) _ yes)
      (optionRel_imp_mem no fun b hb => blocks b (by
        simp [StatementKind.blocks, Option.mem_def.mp hb]))
  | switch subject arms otherwise =>
    refine .switch (exprs _ (by simp [tests]) _ subject)
      (forall₂_imp_mem arms fun a ha a' same => ?_)
      (optionRel_imp_mem otherwise fun b hb => blocks b (by
        simp [StatementKind.blocks, Option.mem_def.mp hb]))
    obtain ⟨span, test, body⟩ := same
    exact .arm span (exprs _ (by simp only [tests]; grind) _ test)
      (blocks _ (by simp only [StatementKind.blocks]; grind) _ body)
  | loop label head body =>
    refine .loop label ?_ (blocks _ (by simp [StatementKind.blocks]) _ body)
    cases head with
    | whileDo condition => exact .whileDo (exprs _ (by simp [tests, LoopHead.test?]) _ condition)
    | doWhile condition => exact .doWhile (exprs _ (by simp [tests, LoopHead.test?]) _ condition)
    | counting init test update =>
      refine .counting (optionRel_imp_mem init fun s hs => headers s ?_)
        (optionRel_imp_mem test fun e he => exprs e ?_)
        (optionRel_imp_mem update fun s hs => headers s ?_)
      · exact List.mem_append_left _ (Option.mem_toList.mpr hs)
      · exact List.mem_append_left _ (Option.mem_toList.mpr he)
      · exact List.mem_append_right _ (Option.mem_toList.mpr hs)
  | jump kind label => exact .jump kind label
  | wait body => exact .wait (blocks _ (by simp [StatementKind.blocks]) _ body)
  | func function => exact .func (functions _ _ function)

end

theorem optionRel_toList {α β : Type} {R : α → β → Prop} {o : Option α} {o' : Option β}
    (h : Option.Rel R o o') : List.Forall₂ R o.toList o'.toList := by
  cases h with
  | none => exact .nil
  | some r => exact .cons r .nil

/-- Expressions of one form have the same parts. -/
theorem Expr.Congruent.alike {E : Expr → Expr → Prop} {F : Func → Func → Prop} {e e' : Expr}
    (h : e.Congruent E F e') : e.Alike E F e' := by
  cases h with
  | leaf _ operands functions =>
    exact ⟨rfl, by rw [operands]; exact .nil, by rw [functions]; exact .nil, rfl⟩
  | unary op span operand => exact ⟨rfl, .cons operand .nil, .nil, rfl⟩
  | binary op span left right => exact ⟨rfl, .cons left (.cons right .nil), .nil, rfl⟩
  | call span callee arguments => exact ⟨rfl, .cons callee arguments, .nil, rfl⟩
  | member property span object => exact ⟨rfl, .cons object .nil, .nil, rfl⟩
  | func function => exact ⟨rfl, .nil, .cons function .nil, rfl⟩

/-- Statements of one form have the same parts. -/
theorem StatementKind.Congruent.alike {E : Expr → Expr → Prop} {S : Statement → Statement → Prop}
    {B : Block → Block → Prop} {F : Func → Func → Prop} {k k' : StatementKind}
    (h : k.Congruent E S B F k') : k.Alike E S B F k' := by
  cases h with
  | declare name init =>
    constructor <;> first | rfl | exact .nil | exact optionRel_toList init
  | assign target value =>
    constructor <;> first | rfl | exact .nil | exact .cons target (.cons value .nil)
  | expr value => constructor <;> first | rfl | exact .nil | exact .cons value .nil
  | ret value => constructor <;> first | rfl | exact .nil | exact optionRel_toList value
  | block body | wait body => constructor <;> first | rfl | exact .nil | exact .cons body .nil
  | branch condition yes no =>
    constructor <;> first | rfl | exact .nil | exact .cons condition .nil |
      exact .cons yes (optionRel_toList no)
  | switch subject arms otherwise =>
    rename_i as as' _ _
    have tests : List.Forall₂ E (as.map Arm.test) (as'.map Arm.test) :=
      List.forall₂_map_left_iff.mpr (List.forall₂_map_right_iff.mpr (arms.imp fun _ _ => by
        rintro ⟨_, test, -⟩
        exact test))
    have bodies : List.Forall₂ B (as.map Arm.body) (as'.map Arm.body) :=
      List.forall₂_map_left_iff.mpr (List.forall₂_map_right_iff.mpr (arms.imp fun _ _ => by
        rintro ⟨_, -, body⟩
        exact body))
    constructor <;> first | rfl | exact .nil | exact .cons subject tests |
      exact List.rel_append bodies (optionRel_toList otherwise)
  | loop label head body =>
    cases head with
    | whileDo condition | doWhile condition =>
      constructor <;> first | rfl | exact .nil | exact .cons condition .nil | exact .cons body .nil
    | counting init test update =>
      have headers : List.Forall₂ S _ _ :=
        List.rel_append (optionRel_toList init) (optionRel_toList update)
      constructor <;> first | rfl | exact .nil | exact optionRel_toList test |
        exact .cons body .nil | exact headers
  | jump kind label => constructor <;> first | rfl | exact .nil
  | func function => constructor <;> first | rfl | exact .nil | exact .cons function .nil

end WaitDefer
