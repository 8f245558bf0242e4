import WaitDefer.Proofs.Tree.Whole

/-!
# Walks of code that differs in its parts only

* `Expr.Congruent.walk`, `StatementKind.Congruent.walk`: the walks of such code go alike;
* `Expr.Congruent.eq`, `StatementKind.Congruent.eq`: code with the same parts is the same.
-/

namespace WaitDefer

/-! ## Walks -/

/-- A way to compare two walks, piece by piece. -/
structure Comparison where
  Of : List Node → List Node → Prop
  nil : Of [] []
  append {l₁ l₁' l₂ l₂' : List Node} : Of l₁ l₁' → Of l₂ l₂' → Of (l₁ ++ l₂) (l₁' ++ l₂')
  ident (name : Ident) : Of [.ident name] [.ident name]

namespace Comparison

variable (W : Comparison)

theorem cons {n n' : Node} {l l' : List Node} (first : W.Of [n] [n']) (rest : W.Of l l') :
    W.Of (n :: l) (n' :: l') := W.append first rest

/-- The same is read off the nodes, one after the other. -/
def reading {γ : Type} (read : Node → List γ) : Comparison where
  Of l l' := l'.flatMap read = l.flatMap read
  nil := rfl
  append h h' := by rw [List.flatMap_append, List.flatMap_append, h, h']
  ident _ := rfl

theorem reading_cons {γ : Type} {read : Node → List γ} {n n' : Node} {l l' : List Node}
    (first : read n' = read n) (rest : (reading read).Of l l') :
    (reading read).Of (n :: l) (n' :: l') := by
  change (n' :: l').flatMap read = (n :: l).flatMap read
  rw [List.flatMap_cons, List.flatMap_cons, first, rest]

theorem reading_node {γ : Type} {read : Node → List γ} {n n' : Node} (same : read n' = read n) :
    (reading read).Of [n] [n'] := reading_cons same rfl

theorem flatMap {α : Type} {R : α → α → Prop} {walk walk' : α → List Node} {l l' : List α}
    (h : List.Forall₂ R l l') (each : ∀ a a', R a a' → W.Of (walk a) (walk' a')) :
    W.Of (l.flatMap walk) (l'.flatMap walk') := by
  induction h with
  | nil => exact W.nil
  | cons r _ ih => exact W.append (each _ _ r) ih

theorem idents (is : List Ident) : W.Of (is.map .ident) (is.map .ident) := by
  induction is with
  | nil => exact W.nil
  | cons i is ih => exact W.append (W.ident i) ih

end Comparison

section
variable (W : Comparison) (enter enter' : Func → Bool)

/-- Two expressions whose walks compare. -/
def Expr.Compares (e e' : Expr) : Prop := W.Of (e.nodes enter) (e'.nodes enter')

def Statement.Compares (s s' : Statement) : Prop := W.Of (s.nodes enter) (s'.nodes enter')

def Block.Compares (b b' : Block) : Prop := W.Of (b.nodes enter) (b'.nodes enter')

def Func.Compares (f f' : Func) : Prop := W.Of (f.nodes enter) (f'.nodes enter')

variable {W} {enter enter'}

/-- What comes after the expression itself. -/
theorem Expr.Congruent.walk {e e' : Expr}
    (h : e.Congruent (Expr.Compares W enter enter') (Func.Compares W enter enter') e') :
    W.Of (e.nodes enter).tail (e'.nodes enter').tail := by
  cases h with
  | leaf _ operands functions =>
    rw [nodes_parts, nodes_parts, operands, functions, List.tail_cons, List.tail_cons]
    exact W.append (W.append W.nil (W.idents _)) W.nil
  | unary op span operand => exact operand
  | binary op span left right => exact W.append left right
  | call span callee arguments =>
    rw [nodes, nodes, listNodes_eq, listNodes_eq]
    exact W.append callee (W.flatMap arguments fun _ _ h => h)
  | member property span object => exact object
  | func function => exact function

theorem Arm.congruent_walk {as as' : List Arm}
    (h : List.Forall₂
      (Arm.Congruent (Expr.Compares W enter enter') (Block.Compares W enter enter')) as as') :
    W.Of (listNodes enter as) (listNodes enter' as') := by
  induction h with
  | nil => exact W.nil
  | cons first rest ih =>
    obtain ⟨span, test, body⟩ := first
    exact W.append (W.append test body) ih

theorem StatementKind.Congruent.walk {k k' : StatementKind}
    (h : k.Congruent (Expr.Compares W enter enter') (Statement.Compares W enter enter')
      (Block.Compares W enter enter') (Func.Compares W enter enter') k') :
    W.Of (k.nodes enter) (k'.nodes enter') := by
  have optional {α : Type} {R : α → α → Prop} {walk walk' : α → List Node} {o o' : Option α}
      (h : Option.Rel R o o') (each : ∀ a a', R a a' → W.Of (walk a) (walk' a')) :
      W.Of (o.toList.flatMap walk) (o'.toList.flatMap walk') := by
    cases h with
    | none => exact W.nil
    | some r => simpa using each _ _ r
  cases h with
  | declare name init =>
    cases init with
    | none => exact W.ident name
    | some e => exact W.append (W.ident name) e
  | assign target value => exact W.append target value
  | expr value => exact value
  | ret value =>
    cases value with
    | none => exact W.nil
    | some e => exact e
  | block body => exact body
  | branch condition yes no =>
    cases no with
    | none => exact W.append condition yes
    | some no => exact W.append (W.append condition yes) no
  | switch subject arms otherwise =>
    cases otherwise with
    | none => exact W.append subject (Arm.congruent_walk arms)
    | some b => exact W.append (W.append subject (Arm.congruent_walk arms)) b
  | loop label head body =>
    cases head with
    | whileDo condition => exact W.append (W.append condition body) W.nil
    | doWhile condition => exact W.append (W.append W.nil body) condition
    | counting init test update =>
      rw [nodes, nodes, LoopHead.nodesBefore_counting, LoopHead.nodesBefore_counting]
      refine W.append (W.append (W.append (W.append ?_ ?_) ?_) body) W.nil
      · exact optional init fun _ _ h => h
      · exact optional test fun _ _ h => h
      · exact optional update fun _ _ h => h
  | jump kind label => exact W.nil
  | wait body => exact body
  | func function => exact function

end

theorem StatementKind.Congruent.form {E : Expr → Expr → Prop} {S : Statement → Statement → Prop}
    {B : Block → Block → Prop} {F : Func → Func → Prop} {k k' : StatementKind}
    (h : k.Congruent E S B F k') :
    k'.name = k.name ∧ k'.isWait = k.isWait ∧ k'.isLoop = k.isLoop := by
  cases h <;> exact ⟨rfl, rfl, rfl⟩

theorem Expr.Congruent.names {E : Expr → Expr → Prop} {F : Func → Func → Prop} {e e' : Expr}
    (h : e.Congruent E F e') : e'.names = e.names := by
  cases h <;> rfl

/-! ## Code with the same parts -/

theorem Expr.Congruent.eq {e e' : Expr} (h : e.Congruent Eq Eq e') : e = e' := by
  cases h with
  | call span callee arguments =>
    rw [List.forall₂_eq_eq_eq] at arguments
    rw [callee, arguments]
  | _ => simp_all

theorem StatementKind.Congruent.eq {k k' : StatementKind} (h : k.Congruent Eq Eq Eq Eq k') :
    k = k' := by
  have optional {α : Type} {o o' : Option α} (same : Option.Rel Eq o o') : o = o' := by
    cases same <;> simp_all
  cases h with
  | declare name init => rw [optional init]
  | ret value => rw [optional value]
  | branch condition yes no => rw [condition, yes, optional no]
  | switch subject arms otherwise =>
    have same : List.Forall₂ Eq _ _ := arms.imp fun a a' same => by
      cases same
      simp_all
    rw [List.forall₂_eq_eq_eq] at same
    rw [subject, same, optional otherwise]
  | loop label head body =>
    cases head with
    | counting init test update => rw [optional init, optional test, optional update, body]
    | _ => simp_all
  | _ => simp_all

end WaitDefer
