import WaitDefer.Grammar.Statement
import WaitDefer.Proofs.Tree.Whole

/-!
# Trees that have a text

Not every tree can be written down: a name may be a reserved word, an integer negative, a statement
begin like another one. This module says which trees can, and how deep their text nests:

* `Node.isPrintable`, `Node.isLegible`: what is asked of each node;
* `Expr.comesApart`: an expression whose text reads as two statements;
* `Expr.room`, `Func.room`: how many levels of nesting reading the text takes.
-/

namespace WaitDefer

/-! ## Words -/

/-- A name that is no reserved word. -/
def Lexer.isName (name : String) : Bool := isIdentifier name && (Keyword.ofText? name).isNone

/-! ## Nodes -/

namespace Expr

/-- The text begins with a function: the expression is one, or its leftmost operand is one and
stands there without parentheses. -/
def opensWithFunction : Expr → Bool
  | func _ => true
  | binary op left _ _ => !left.isLooserThan op.precedence && left.opensWithFunction
  | _ => false

/-- The function that the text begins with, if it begins with one. -/
def opener : Expr → Option Func
  | func f => some f
  | binary op left _ _ => if left.isLooserThan op.precedence then none else left.opener
  | _ => none

def isNamedFunction : Expr → Bool
  | func f => f.name.isSome
  | _ => false

/-- The text begins with a named function and goes on with a minus: it could also be the declaration
of that function and an expression that begins with the minus. -/
def comesApart : Expr → Bool
  | binary op left _ _ => !left.isLooserThan op.precedence &&
    (left.comesApart || op == .subtract && left.isNamedFunction)
  | _ => false

/-- Integers are not negative and can be represented; after a dot stands a name or a reserved
word. -/
def isPrintable : Expr → Bool
  | int value _ => 0 ≤ value && value < Lexer.intBound
  | member _ property _ => Lexer.isIdentifier property.name
  | _ => true

end Expr

namespace StatementKind

/-- An expression that would be taken for the declaration of a function if it stood where statements
follow each other. -/
def opensWithFunction : StatementKind → Bool
  | expr value => value.opensWithFunction
  | _ => false

/-- An expression that would be taken for the declaration of a function and another expression. -/
def comesApart : StatementKind → Bool
  | expr value => value.comesApart
  | _ => false

/-- A statement without a declaration that can stand in the head of a loop. -/
def isUpdate : StatementKind → Bool
  | assign .. | expr .. => true
  | _ => false

/-- A label is a name, a declared function has one, what is assigned to is assignable, the parts of a
counting loop's head can stand there, and a switch has as many arms as are read. -/
def isPrintable : StatementKind → Bool
  | assign target _ => target.isAssignable
  | switch _ arms otherwise => arms.length + otherwise.toList.length ≤ Limit.rounds
  | loop label (.counting init _ update) _ =>
    label.all (Lexer.isName ·.name) && init.all (·.kind.isSimple) && update.all (·.kind.isUpdate)
  | loop label _ _ | jump _ label => label.all (Lexer.isName ·.name)
  | func f => f.name.isSome
  | _ => true

end StatementKind

/-- A block has as many statements as are read, and none of them is an expression that begins with a
function. -/
def Block.isPrintable (b : Block) : Bool :=
  b.statements.length ≤ Limit.rounds && b.statements.all (!·.kind.opensWithFunction)

/-- What a node has to satisfy if its text is to be read as that node. -/
def Node.isPrintable : Node → Bool
  | .func _ => true
  | .block b => b.isPrintable
  | .statement s => s.kind.isPrintable
  | .expr e => e.isPrintable
  | .ident i => Lexer.isName i.name

/-- What a node has to satisfy if its text is to be cut into its tokens and fit into the limits of
lists. A block's statements may begin like others. -/
def Node.isLegible : Node → Bool
  | .block b => b.statements.length ≤ Limit.rounds
  | n => n.isPrintable

def Expr.Legible (e : Expr) : Prop := e.Every (·.isLegible)

def Func.Legible (f : Func) : Prop := f.Every (·.isLegible)

def Block.Legible (b : Block) : Prop := b.Every (·.isLegible)

def Statement.Legible (s : Statement) : Prop := s.Every (·.isLegible)

theorem Expr.legible_iff {e : Expr} : e.Legible ↔ e.isPrintable ∧ (∀ o ∈ e.operands, o.Legible) ∧
    (∀ i ∈ e.names, Lexer.isName i.name) ∧ ∀ f ∈ e.functions, f.Legible :=
  every_iff

theorem Func.legible_iff {f : Func} : f.Legible ↔ (∀ i ∈ f.name, Lexer.isName i.name) ∧
    (∀ i ∈ f.params, Lexer.isName i.name) ∧ f.body.Legible :=
  every_iff.trans (and_iff_right rfl)

theorem Block.legible_iff {b : Block} :
    b.Legible ↔ b.statements.length ≤ Limit.rounds ∧ ∀ s ∈ b.statements, s.Legible :=
  every_iff.trans (and_congr_left' decide_eq_true_iff)

theorem Statement.legible_iff {s : Statement} : s.Legible ↔ s.kind.isPrintable ∧
    (∀ i ∈ s.kind.declared, Lexer.isName i.name) ∧ (∀ e ∈ s.kind.tests, e.Legible) ∧
    (∀ e ∈ s.kind.operands, e.Legible) ∧ (∀ h ∈ s.kind.headers, h.Legible) ∧
    (∀ b ∈ s.kind.blocks, b.Legible) ∧ ∀ f ∈ s.kind.functions, f.Legible :=
  every_iff

/-- A module that has a text: its functions are named, and so on for everything in them. -/
structure Module.Printable (m : Module) : Prop where
  named : ∀ f ∈ m.functions, f.name.isSome
  nodes : ∀ n ∈ m.allNodes, n.isPrintable

theorem Node.isLegible_of_isPrintable {n : Node} (h : n.isPrintable) : n.isLegible := by
  cases n with
  | block b => exact (Bool.and_eq_true_iff.mp h).1
  | _ => exact h

/-! ## Nesting

A level is entered for a statement, for a whole expression that a statement, a pair of parentheses or
an argument list holds, and for the operand of a unary operator. -/

mutual

/-- The levels below an expression. Parentheses that its layout puts around an operand are one more
level. -/
def Expr.room : Expr → Nat
  | .unary _ operand _ => operand.room + (operand.isLooserThan .unary).toNat + 1
  | .binary op left right _ =>
    max (left.room + (left.isLooserThan op.precedence).toNat)
      (right.room + (right.isLooserThan op.precedence.tighter).toNat)
  | .call callee arguments _ =>
    max (callee.room + callee.needsGrouping.toNat) (Expr.listRoom arguments)
  | .member object _ _ => object.room + object.needsGrouping.toNat
  | .func f => f.room
  | _ => 0

/-- The levels below a list of expressions, each of which is one level deeper. -/
def Expr.listRoom : List Expr → Nat
  | [] => 0
  | e :: es => max (e.room + 1) (Expr.listRoom es)

def Func.room : Func → Nat
  | ⟨_, _, _, body, _⟩ => body.room

def Block.room : Block → Nat
  | ⟨_, ss, _⟩ => Statement.listRoom ss

/-- The levels below a list of statements, each of which is one level deeper. -/
def Statement.listRoom : List Statement → Nat
  | [] => 0
  | s :: ss => max (s.room + 1) (Statement.listRoom ss)

def Statement.room : Statement → Nat
  | ⟨_, kind, _⟩ => kind.room

def StatementKind.room : StatementKind → Nat
  | .declare _ none => 0
  | .declare _ (some init) => init.room + 1
  | .assign target value => max (target.room + 1) (value.room + 1)
  | .expr value => value.room + 1
  | .ret none => 0
  | .ret (some value) => value.room + 1
  | .block body => body.room
  | .branch condition yes none => max (condition.room + 1) yes.room
  | .branch condition yes (some no) => max (condition.room + 1) (max yes.room no.room)
  | .switch subject arms none => max (subject.room + 1) (Arm.listRoom arms)
  | .switch subject arms (some otherwise) =>
    max (subject.room + 1) (max (Arm.listRoom arms) otherwise.room)
  | .loop _ head body => max head.room body.room
  | .jump _ _ => 0
  | .wait body => body.room
  | .func f => f.room

def LoopHead.room : LoopHead → Nat
  | .whileDo condition => condition.room + 1
  | .doWhile condition => condition.room + 1
  | .counting init test update =>
    max (match init with
        | some s => s.room
        | none => 0)
      (max (match test with
          | some e => e.room + 1
          | none => 0)
        (match update with
          | some s => s.room
          | none => 0))

def Arm.listRoom : List Arm → Nat
  | [] => 0
  | ⟨test, body, _⟩ :: arms => max (max (test.room + 1) body.room) (Arm.listRoom arms)

end

/-! ### Room for the parts -/

theorem Expr.room_le_listRoom {es : List Expr} {e : Expr} (h : e ∈ es) :
    e.room + 1 ≤ listRoom es := by
  induction es with
  | nil => cases h
  | cons x es ih =>
    rw [listRoom]
    rcases List.mem_cons.mp h with rfl | h
    · exact Nat.le_max_left _ _
    · exact Nat.le_trans (ih h) (Nat.le_max_right _ _)

theorem Statement.room_le_listRoom {ss : List Statement} {s : Statement} (h : s ∈ ss) :
    s.room + 1 ≤ listRoom ss := by
  induction ss with
  | nil => cases h
  | cons x ss ih =>
    rw [listRoom]
    rcases List.mem_cons.mp h with rfl | h
    · exact Nat.le_max_left _ _
    · exact Nat.le_trans (ih h) (Nat.le_max_right _ _)

theorem Block.room_statement {b : Block} {s : Statement} (h : s ∈ b.statements) :
    s.room + 1 ≤ b.room := by
  obtain ⟨id, ss, span⟩ := b
  rw [room]
  exact Statement.room_le_listRoom h

theorem Arm.room_le_listRoom {arms : List Arm} {a : Arm} (h : a ∈ arms) :
    a.test.room + 1 ≤ listRoom arms ∧ a.body.room ≤ listRoom arms := by
  induction arms with
  | nil => cases h
  | cons x arms ih =>
    obtain ⟨test, body, span⟩ := x
    rw [listRoom]
    rcases List.mem_cons.mp h with rfl | h
    · exact ⟨by dsimp only; omega, by dsimp only; omega⟩
    · have := ih h
      omega

theorem LoopHead.room_counting (init update : Option Statement) (test : Option Expr) :
    (counting init test update).room = max ((init.map Statement.room).getD 0)
      (max ((test.map (·.room + 1)).getD 0) ((update.map Statement.room).getD 0)) := by
  cases init <;> cases test <;> cases update <;> rw [room] <;> rfl

theorem LoopHead.room_test {head : LoopHead} {e : Expr} (h : e ∈ head.test?) :
    e.room + 1 ≤ head.room := by
  cases head with
  | whileDo c | doWhile c =>
    cases h
    exact Nat.le_refl _
  | counting init test update =>
    cases h
    rw [room_counting, Option.map_some, Option.getD_some]
    omega

theorem LoopHead.room_statement {head : LoopHead} {s : Statement} (h : s ∈ head.statements) :
    s.room ≤ head.room := by
  cases head with
  | whileDo c | doWhile c => cases h
  | counting init test update =>
    rw [room_counting]
    rw [statements, List.mem_append, Option.mem_toList, Option.mem_toList] at h
    rcases h with rfl | rfl <;> rw [Option.map_some, Option.getD_some] <;> omega

section
variable {kind : StatementKind}

theorem StatementKind.room_expr {e : Expr} (h : e ∈ kind.tests ++ kind.operands) :
    e.room + 1 ≤ kind.room := by
  cases kind with
  | declare i init => cases init <;> simp_all [tests, operands, room]
  | ret value => cases value <;> simp_all [tests, operands, room]
  | assign target value =>
    simp only [tests, operands, List.nil_append, List.mem_cons, List.not_mem_nil, or_false] at h
    rcases h with rfl | rfl <;> rw [room] <;> omega
  | expr value => simp_all [tests, operands, room]
  | branch condition yes no =>
    simp only [tests, operands, List.append_nil, List.mem_singleton] at h
    subst h
    cases no <;> rw [room] <;> omega
  | switch subject arms otherwise =>
    simp only [tests, operands, List.append_nil, List.mem_cons, List.mem_map] at h
    rcases h with rfl | ⟨a, ha, rfl⟩
    · cases otherwise <;> rw [room] <;> omega
    · have := Arm.room_le_listRoom ha
      cases otherwise <;> rw [room] <;> omega
  | loop label head body =>
    simp only [tests, operands, List.append_nil, Option.mem_toList] at h
    rw [room]
    exact Nat.le_trans (LoopHead.room_test h) (Nat.le_max_left _ _)
  | _ => cases h

theorem StatementKind.room_header {s : Statement} (h : s ∈ kind.headers) : s.room ≤ kind.room := by
  cases kind with
  | loop label head body =>
    rw [room]
    exact Nat.le_trans (LoopHead.room_statement h) (Nat.le_max_left _ _)
  | _ => cases h

theorem StatementKind.room_block {b : Block} (h : b ∈ kind.blocks) : b.room ≤ kind.room := by
  cases kind with
  | block body | wait body =>
    rw [blocks, List.mem_singleton] at h
    exact Nat.le_of_eq (by rw [h, room])
  | branch condition yes no =>
    simp only [blocks, List.mem_cons, Option.mem_toList] at h
    rcases h with rfl | rfl
    · cases no <;> rw [room] <;> omega
    · rw [room]
      omega
  | switch subject arms otherwise =>
    simp only [blocks, List.mem_append, List.mem_map, Option.mem_toList] at h
    rcases h with ⟨a, ha, rfl⟩ | rfl
    · have := Arm.room_le_listRoom ha
      cases otherwise <;> rw [room] <;> omega
    · rw [room]
      omega
  | loop label head body =>
    rw [blocks, List.mem_singleton] at h
    rw [h, room]
    exact Nat.le_max_right _ _
  | _ => cases h

end

end WaitDefer
