import WaitDefer.Proofs.Tree.Whole

/-!
# How high a tree is

* `Node.Chain`: nodes of a tree, each right inside the one before;
* `Node.front?`: what stands in front of an operator, a call or a dot;
* `Node.Within`: a bound on all chains that does not count the steps to what stands in front;
* `Node.Within.of_parts`: what is so bounded in its parts is so as a whole;
* `Func.every_of_inside`: what holds of the root and is handed down holds everywhere.
-/

namespace WaitDefer

/-- What stands in front of a binary operator, of a call or of a dot. -/
def Expr.front? : Expr → Option Expr
  | .binary _ left _ _ => some left
  | .call callee _ _ => some callee
  | .member object _ _ => some object
  | _ => none

namespace Node

/-- The functions, blocks, statements and expressions right inside a node. -/
def inside : Node → List Node
  | .func f => [.block f.body]
  | .block b => b.statements.map .statement
  | .statement s => (s.kind.tests ++ s.kind.operands).map .expr ++ s.kind.headers.map .statement ++
      s.kind.blocks.map .block ++ s.kind.functions.map .func
  | .expr e => e.operands.map .expr ++ e.functions.map .func
  | .ident _ => []

def front? : Node → Option Node
  | .expr e => e.front?.map .expr
  | _ => none

/-- What is right inside a node and does not stand in front; what does is the first inside. -/
def others (n : Node) : List Node := n.inside.drop n.front?.toList.length

theorem inside_eq (n : Node) : n.inside = n.front?.toList ++ n.others := by
  cases n with
  | expr e => cases e <;> rfl
  | _ => rfl

/-- A chain of nodes from a node down, each right inside the one before: `length` of them, of which
`fronts` stand in front of the operator, the call or the dot of the one before. -/
inductive Chain : Node → Nat → Nat → Prop
  | last (n : Node) : Chain n 1 0
  | front {n m : Node} {length fronts : Nat} (first : n.front? = some m)
    (rest : Chain m length fronts) : Chain n (length + 1) (fronts + 1)
  | other {n m : Node} {length fronts : Nat} (inside : m ∈ n.others)
    (rest : Chain m length fronts) : Chain n (length + 1) fronts

/-- Each chain from the node down has at most `bound` nodes that do not stand in front. -/
def Within (n : Node) (bound : Nat) : Prop :=
  ∀ length fronts, n.Chain length fronts → length ≤ bound + fronts

namespace Within

variable {n : Node} {bound bound' : Nat}

theorem mono (h : n.Within bound) (le : bound ≤ bound') : n.Within bound' :=
  fun length fronts chain =>
    Nat.le_trans (h length fronts chain) (Nat.add_le_add_right le fronts)

theorem of_parts (front : ∀ m, n.front? = some m → m.Within (bound + 1))
    (others : ∀ m ∈ n.others, m.Within bound) : n.Within (bound + 1) := by
  intro length fronts chain
  cases chain with
  | last => omega
  | front first rest =>
    have := front _ first _ _ rest
    omega
  | other inside rest =>
    have := others _ inside _ _ rest
    omega

/-- A node in which nothing stands in front. -/
theorem of_others (none : n.front? = none) (others : ∀ m ∈ n.others, m.Within bound) :
    n.Within (bound + 1) :=
  of_parts (fun m first => by rw [none] at first; cases first) others

end Within

theorem within_iff_of_others {n : Node} {bound : Nat} (none : n.front? = none) :
    n.Within (bound + 1) ↔ ∀ m ∈ n.others, m.Within bound := by
  refine ⟨fun h m hm length fronts rest => ?_, .of_others none⟩
  have := h _ _ (.other hm rest)
  omega

theorem within_ident (name : Ident) (bound : Nat) : (ident name).Within (bound + 1) :=
  .of_others rfl nofun

/-- A chain inside is a part of a longer one. -/
theorem Within.inside {n m : Node} {bound : Nat} (h : n.Within bound) (hm : m ∈ n.inside) :
    m.Within bound := by
  intro length fronts rest
  rw [n.inside_eq, List.mem_append, Option.mem_toList] at hm
  rcases hm with first | other
  · have := h _ _ (.front first rest)
    omega
  · have := h _ _ (.other other rest)
    omega

end Node

/-! ## Every node of a tree -/

section
variable {p : Node → Prop}

/-- Code has a property everywhere if its root has it and whatever is inside inherits it. -/
theorem every_cases (names : ∀ i, p (.ident i)) (inherits : ∀ n m, m ∈ n.inside → p n → p m) :
    Cases (fun e => p (.expr e) → e.Every p) (fun f => p (.func f) → f.Every p)
      (fun b => p (.block b) → b.Every p) fun s => p (.statement s) → s.Every p where
  expr e operands functions own := by
    have down : ∀ m ∈ (Node.expr e).inside, p m := fun m hm => inherits _ m hm own
    simp only [Node.inside, List.forall_mem_append, List.forall_mem_map] at down
    exact Expr.every_iff.mpr ⟨own, fun o ho => operands o ho (down.1 o ho), fun i _ => names i,
      fun f hf => functions f hf (down.2 f hf)⟩
  func f body own :=
    Func.every_iff.mpr ⟨own, fun i _ => names i, fun i _ => names i,
      body (inherits _ _ (List.mem_singleton_self _) own)⟩
  block b statements own :=
    Block.every_iff.mpr ⟨own, fun s hs =>
      statements s hs (inherits _ _ (List.mem_map.mpr ⟨s, hs, rfl⟩) own)⟩
  statement s exprs headers blocks functions own := by
    have down : ∀ m ∈ (Node.statement s).inside, p m := fun m hm => inherits _ m hm own
    simp only [Node.inside, List.forall_mem_append, List.forall_mem_map] at down
    obtain ⟨⟨⟨⟨inTests, inOperands⟩, inHeaders⟩, inBlocks⟩, inFunctions⟩ := down
    exact Statement.every_iff.mpr ⟨own, fun i _ => names i,
      fun e he => exprs e (List.mem_append_left _ he) (inTests e he),
      fun e he => exprs e (List.mem_append_right _ he) (inOperands e he),
      fun h hh => headers h hh (inHeaders h hh), fun b hb => blocks b hb (inBlocks b hb),
      fun f hf => functions f hf (inFunctions f hf)⟩

theorem Func.every_of_inside (names : ∀ i, p (.ident i))
    (inherits : ∀ n m, m ∈ n.inside → p n → p m) {f : Func} (h : p (.func f)) : f.Every p :=
  Func.whole (every_cases names inherits) f h

end

end WaitDefer
