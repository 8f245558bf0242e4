import Mathlib.Logic.Relation
import WaitDefer.Proofs.Tree.Whole

/-!
# Spots

Everything in a tree that has a span: besides the nodes of the walk these are the arms of a switch,
labels, and the names after dots.

* `Spot.inside`: what is right inside a spot;
* `Spot.Within`: what is inside at any depth;
* `Spot.Every`: a property of a spot and of everything inside;
* `Module.Has`: the spots of a module.
-/

namespace WaitDefer

/-- Something in a tree that has a span. -/
inductive Spot
  | func (f : Func)
  | block (b : Block)
  | statement (s : Statement)
  | arm (a : Arm)
  | expr (e : Expr)
  | ident (name : Ident)

/-! ## What is right inside -/

/-- The spots right inside an expression. -/
def Expr.spots : Expr → List Spot
  | ident name => [.ident name]
  | unary _ operand _ => [.expr operand]
  | binary _ left right _ => [.expr left, .expr right]
  | call callee arguments _ => .expr callee :: arguments.map .expr
  | member object property _ => [.expr object, .ident property]
  | func f => [.func f]
  | defer bindings _ => bindings.map .ident
  | _ => []

/-- The spots right inside a loop with a body, in the order of the text. -/
def LoopHead.spots (body : Block) : LoopHead → List Spot
  | whileDo condition => [.expr condition, .block body]
  | doWhile condition => [.block body, .expr condition]
  | counting init test update =>
    init.toList.map .statement ++ test.toList.map .expr ++ update.toList.map .statement ++
      [.block body]

/-- The spots right inside a statement. -/
def StatementKind.spots : StatementKind → List Spot
  | declare name init => .ident name :: init.toList.map .expr
  | assign target value => [.expr target, .expr value]
  | expr value => [.expr value]
  | ret value => value.toList.map .expr
  | block body | wait body => [.block body]
  | branch condition yes no => .expr condition :: .block yes :: no.toList.map .block
  | switch subject arms otherwise =>
    .expr subject :: (arms.map .arm ++ otherwise.toList.map .block)
  | loop label head body => label.toList.map .ident ++ head.spots body
  | jump _ label => label.toList.map .ident
  | func f => [.func f]

namespace Spot

def span : Spot → Span
  | func f => f.span
  | block b => b.span
  | statement s => s.span
  | arm a => a.span
  | expr e => e.span
  | ident name => name.span

/-- The id of a spot, for the kinds of spot that carry one. -/
def id? : Spot → Option NodeId
  | func f => some f.id
  | block b => some b.id
  | statement s => some s.id
  | arm _ | expr _ | ident _ => none

/-- The spots right inside a spot. -/
def inside : Spot → List Spot
  | func f => f.name.toList.map ident ++ f.params.map ident ++ [block f.body]
  | block b => b.statements.map statement
  | statement s => s.kind.spots
  | arm a => [expr a.test, block a.body]
  | expr e => e.spots
  | ident _ => []

/-! ## What is inside at any depth -/

/-- The first spot is inside the second, at some depth. -/
def Within (y x : Spot) : Prop := Relation.TransGen (fun x y => y ∈ x.inside) x y

/-- A property of a spot and of everything inside it. -/
def Every (p : Spot → Prop) (x : Spot) : Prop := p x ∧ ∀ y, y.Within x → p y

variable {p q : Spot → Prop} {x y z : Spot}

theorem Within.of_inside (h : y ∈ x.inside) : y.Within x := .single h

theorem Within.trans (h : z.Within y) (h' : y.Within x) : z.Within x :=
  Relation.TransGen.trans h' h

/-- What is inside a spot is one of its parts or inside of one. -/
theorem within_iff : z.Within x ↔ ∃ y ∈ x.inside, z = y ∨ z.Within y := by
  rw [Within, Relation.TransGen.head'_iff]
  exact exists_congr fun y => and_congr_right fun _ => Relation.reflTransGen_iff_eq_or_transGen

theorem every_iff : x.Every p ↔ p x ∧ ∀ y ∈ x.inside, y.Every p := by
  refine and_congr_right fun _ => ⟨fun h y hy => ?_, fun h z hz => ?_⟩
  · exact ⟨h y (.of_inside hy), fun z hz => h z (hz.trans (.of_inside hy))⟩
  · obtain ⟨y, hy, rfl | deep⟩ := within_iff.mp hz
    · exact (h _ hy).1
    · exact (h y hy).2 z deep

theorem Every.mono (h : x.Every p) (imp : ∀ y, p y → q y) : x.Every q :=
  ⟨imp x h.1, fun y hy => imp y (h.2 y hy)⟩

/-- What holds of everything in a spot holds of everything in a spot inside. -/
theorem Every.within (h : x.Every p) (hy : y.Within x) : y.Every p :=
  ⟨h.2 y hy, fun z hz => h.2 z (hz.trans hy)⟩

end Spot

/-! ## Parts -/

namespace Statement

variable {s : Statement}

theorem within_expr {e : Expr} (he : e ∈ s.kind.tests ++ s.kind.operands) :
    (Spot.expr e).Within (.statement s) := by
  obtain ⟨id, kind, span⟩ := s
  cases kind with
  | switch subject arms otherwise =>
    simp only [StatementKind.tests, StatementKind.operands, List.append_nil, List.mem_cons,
      List.mem_map] at he
    obtain rfl | ⟨a, ha, rfl⟩ := he
    · exact .of_inside List.mem_cons_self
    · -- a test is inside its arm
      have arm : (Spot.arm a).Within (.statement ⟨id, .switch subject arms otherwise, span⟩) :=
        .of_inside (List.mem_cons_of_mem _ (List.mem_append_left _ (List.mem_map_of_mem ha)))
      exact (Spot.Within.of_inside List.mem_cons_self).trans arm
  | loop label head body =>
    apply Spot.Within.of_inside
    cases head <;> simp_all [StatementKind.tests, StatementKind.operands, LoopHead.test?,
      Spot.inside, StatementKind.spots, LoopHead.spots]
  | _ =>
    apply Spot.Within.of_inside
    simp_all [StatementKind.tests, StatementKind.operands, Spot.inside, StatementKind.spots]

theorem within_header {h : Statement} (hh : h ∈ s.kind.headers) :
    (Spot.statement h).Within (.statement s) := by
  obtain ⟨id, kind, span⟩ := s
  apply Spot.Within.of_inside
  cases kind with
  | loop label head body =>
    cases head <;>
      simp_all [StatementKind.headers, LoopHead.statements, Spot.inside, StatementKind.spots,
        LoopHead.spots]
  | _ => cases hh

theorem within_block {b : Block} (hb : b ∈ s.kind.blocks) :
    (Spot.block b).Within (.statement s) := by
  obtain ⟨id, kind, span⟩ := s
  cases kind with
  | switch subject arms otherwise =>
    obtain inArm | last := List.mem_append.mp hb
    · obtain ⟨a, ha, rfl⟩ := List.mem_map.mp inArm
      have arm : (Spot.arm a).Within (.statement ⟨id, .switch subject arms otherwise, span⟩) :=
        .of_inside (List.mem_cons_of_mem _ (List.mem_append_left _ (List.mem_map_of_mem ha)))
      have body : Spot.block a.body ∈ (Spot.arm a).inside := by simp [Spot.inside]
      exact (Spot.Within.of_inside body).trans arm
    · exact .of_inside (List.mem_cons_of_mem _ (List.mem_append_right _ (List.mem_map_of_mem last)))
  | loop label head body =>
    apply Spot.Within.of_inside
    cases head <;>
      simp_all [StatementKind.blocks, Spot.inside, StatementKind.spots, LoopHead.spots]
  | _ =>
    apply Spot.Within.of_inside
    simp_all [StatementKind.blocks, Spot.inside, StatementKind.spots]

theorem within_function {f : Func} (hf : f ∈ s.kind.functions) :
    (Spot.func f).Within (.statement s) := by
  obtain ⟨id, kind, span⟩ := s
  apply Spot.Within.of_inside
  cases kind with
  | func g => simp_all [StatementKind.functions, Spot.inside, StatementKind.spots]
  | _ => cases hf

/-- The name that a statement brings in is inside it. -/
theorem within_introduced {x : Ident} (hx : x ∈ s.kind.introduced) :
    (Spot.ident x).Within (.statement s) := by
  obtain ⟨id, kind, span⟩ := s
  cases kind with
  | declare name init =>
    rw [List.mem_singleton.mp hx]
    exact .of_inside List.mem_cons_self
  | func f =>
    have named : Spot.ident x ∈ (Spot.func f).inside :=
      List.mem_append_left _ (List.mem_append_left _ (List.mem_map_of_mem hx))
    have function : (Spot.func f).Within (.statement ⟨id, .func f, span⟩) :=
      .of_inside List.mem_cons_self
    exact (Spot.Within.of_inside named).trans function
  | _ => cases hx

end Statement

namespace Expr

variable {e : Expr}

theorem within_operand {o : Expr} (ho : o ∈ e.operands) : (Spot.expr o).Within (.expr e) := by
  apply Spot.Within.of_inside
  cases e <;> simp_all [operands, Spot.inside, spots]

theorem within_function {f : Func} (hf : f ∈ e.functions) : (Spot.func f).Within (.expr e) := by
  apply Spot.Within.of_inside
  cases e <;> simp_all [functions, Spot.inside, spots]

/-- What holds of everything in an expression holds of the expressions of its own code. -/
theorem every_own {p : Spot → Prop} (h : (Spot.expr e).Every p) {e' : Expr}
    (he' : .expr e' ∈ e.ownNodes) : p (.expr e') := by
  induction e using Expr.inductOn with
  | step e ih =>
    have notEntered : ∀ (f : Func) (n : Node), n ∉ f.nodes fun _ => false := by
      intro f n
      cases f
      simp [Func.nodes]
    rw [ownNodes, nodes_parts] at he'
    simp only [List.mem_cons, List.mem_append, List.mem_flatMap, List.mem_map, notEntered,
      and_false, exists_false, or_false, reduceCtorEq] at he'
    obtain same | ⟨o, ho, inside⟩ := he'
    · cases same
      exact h.1
    · exact ih o ho (h.within (within_operand ho)) inside

end Expr

/-- The spots of a module: its functions and everything inside them. -/
def Module.Has (m : Module) (x : Spot) : Prop :=
  ∃ f ∈ m.functions, x = .func f ∨ x.Within (.func f)

/-- What holds of the functions of a module and of everything inside holds of all its spots. -/
theorem Module.Has.of_every {m : Module} {p : Spot → Prop} {x : Spot} (h : m.Has x)
    (every : ∀ f ∈ m.functions, (Spot.func f).Every p) : p x := by
  obtain ⟨f, hf, rfl | deep⟩ := h
  · exact (every f hf).1
  · exact (every f hf).2 x deep

end WaitDefer
