import WaitDefer.Proofs.Tree.Alike
import WaitDefer.Proofs.Tree.Whole

/-!
# Scopes

Functions open scopes, blocks do not. A name of some kind is well scoped where it is declared by an
enclosing function, or earlier in the same one:

* `Ordered`: references come after what they refer to, in the order of the walk;
* `Func.Scoped`: this for a function and the functions inside it;
* `Arranged`: code that can be put together to a function that is well scoped;
* `Func.Scoped.exists_binder`: in a function that is well scoped, the names are bound.
-/

namespace WaitDefer

/-! ## Names -/

namespace Node

/-- The names that a node of own code declares in the function around it. -/
def declares : Node → List String
  | statement ⟨_, .declare name _, _⟩ => [name.name]
  | statement ⟨_, .func f, _⟩ => f.name.toList.map Ident.name
  | _ => []

/-- The names that a node refers to; a callback refers to the names it binds. -/
def refers : Node → List String
  | expr e => e.names.map Ident.name
  | _ => []

/-- The functions that a node of own code holds. -/
def functions : Node → List Func
  | statement s => s.kind.functions
  | expr e => e.functions
  | _ => []

end Node

/-- The names bound in one activation of a function: its parameters and what its own code
declares. -/
def Func.bindings (f : Func) : List String :=
  f.params.map Ident.name ++ f.body.ownNodes.flatMap Node.declares

section
variable (made : String → Prop)

/-- Some names are known; the others of a kind are only referred to after a declaration. -/
def Ordered : List String → List Node → Prop
  | _, [] => True
  | known, n :: ns => (∀ x ∈ n.refers, made x → x ∈ known) ∧ Ordered (known ++ n.declares) ns

/-- Every reference to a name of some kind is to a name that is declared around the function, or
earlier in its own code; functions inside may also refer to what is declared later. -/
inductive Func.Scoped : List String → Func → Prop
  | intro {outside : List String} {f : Func}
      (ordered : Ordered made (outside ++ f.params.map Ident.name) f.body.ownNodes)
      (inner : ∀ n ∈ f.body.ownNodes, ∀ g ∈ n.functions, Scoped (outside ++ f.bindings) g) :
      Scoped outside f

/-- Code whose references to names of some kind are to known ones or come after a declaration, with
functions that may refer to all of its names. -/
structure Arranged (known : List String) (ns : List Node) : Prop where
  ordered : Ordered made known ns
  inner : ∀ all : List String, (∀ x ∈ known, x ∈ all) → (∀ n ∈ ns, ∀ x ∈ n.declares, x ∈ all) →
    ∀ n ∈ ns, ∀ g ∈ n.functions, g.Scoped made all

/-- Code that only refers to known names of some kind. -/
structure Node.Knows (known : List String) (n : Node) : Prop where
  refers : ∀ x ∈ n.refers, made x → x ∈ known
  functions : ∀ g ∈ n.functions, g.Scoped made known

end

variable {made : String → Prop}

/-! ## More names -/

theorem Ordered.mono {known known' : List String} {ns : List Node} (h : Ordered made known ns)
    (sub : ∀ x ∈ known, x ∈ known') : Ordered made known' ns := by
  induction ns generalizing known known' with
  | nil => trivial
  | cons n ns ih =>
    refine ⟨fun x hx hm => sub x (h.1 x hx hm), ih h.2 fun x hx => ?_⟩
    rcases List.mem_append.mp hx with hx | hx
    · exact List.mem_append_left _ (sub x hx)
    · exact List.mem_append_right _ hx

theorem Func.Scoped.mono {known known' : List String} {f : Func} (h : f.Scoped made known)
    (sub : ∀ x ∈ known, x ∈ known') : f.Scoped made known' := by
  induction h generalizing known' with
  | @intro outside f ordered inner ih =>
    have longer : ∀ more x, x ∈ outside ++ more → x ∈ known' ++ more := by
      intro more x hx
      rcases List.mem_append.mp hx with hx | hx
      · exact List.mem_append_left _ (sub x hx)
      · exact List.mem_append_right _ hx
    exact .intro (ordered.mono (longer _)) fun n hn g hg => ih n hn g hg (longer _)

theorem Node.Knows.mono {known known' : List String} {n : Node} (h : n.Knows made known)
    (sub : ∀ x ∈ known, x ∈ known') : n.Knows made known' :=
  ⟨fun x hx hm => sub x (h.refers x hx hm), fun g hg => (h.functions g hg).mono sub⟩

theorem ordered_append {known : List String} {as bs : List Node} :
    Ordered made known (as ++ bs) ↔
      Ordered made known as ∧ Ordered made (known ++ as.flatMap Node.declares) bs := by
  induction as generalizing known with
  | nil => simp [Ordered]
  | cons a as ih =>
    simp only [List.cons_append, Ordered, ih, List.flatMap_cons, List.append_assoc, and_assoc]

namespace Arranged

variable {known : List String} {as bs : List Node}

theorem nil : Arranged made known [] := ⟨trivial, by simp⟩

theorem mono {known' : List String} (h : Arranged made known as)
    (sub : ∀ x ∈ known, x ∈ known') : Arranged made known' as :=
  ⟨h.ordered.mono sub, fun all all_known => h.inner all fun x hx => all_known x (sub x hx)⟩

/-- One piece after another, which may use what the first declares. -/
theorem append (h : Arranged made known as)
    (h' : Arranged made (known ++ as.flatMap Node.declares) bs) :
    Arranged made known (as ++ bs) := by
  refine ⟨ordered_append.mpr ⟨h.ordered, h'.ordered⟩, fun all inKnown inBoth n hn => ?_⟩
  have inFirst : ∀ n ∈ as, ∀ x ∈ n.declares, x ∈ all :=
    fun n hn => inBoth n (List.mem_append_left _ hn)
  rcases List.mem_append.mp hn with hn | hn
  · exact h.inner all inKnown inFirst n hn
  · refine h'.inner all (fun x hx => ?_) (fun n hn => inBoth n (List.mem_append_right _ hn)) n hn
    rcases List.mem_append.mp hx with hx | hx
    · exact inKnown x hx
    · obtain ⟨n, hn, hx⟩ := List.mem_flatMap.mp hx
      exact inFirst n hn x hx

/-- One piece beside another. -/
theorem beside (h : Arranged made known as) (h' : Arranged made known bs) :
    Arranged made known (as ++ bs) :=
  h.append (h'.mono fun _ hx => List.mem_append_left _ hx)

theorem of_knows (h : ∀ n ∈ as, n.Knows made known) : Arranged made known as := by
  refine ⟨?_, fun all inKnown _ n hn g hg => ((h n hn).functions g hg).mono inKnown⟩
  induction as generalizing known with
  | nil => trivial
  | cons n ns ih =>
    refine ⟨(h n List.mem_cons_self).refers, ih fun m hm => ?_⟩
    exact (h m (List.mem_cons_of_mem _ hm)).mono fun _ hx => List.mem_append_left _ hx

/-- A node that declares something, before code that may use it. -/
theorem cons {n : Node} (refers : n.refers = []) (functions : n.functions = [])
    (h : Arranged made (known ++ n.declares) as) : Arranged made known (n :: as) := by
  have first : Arranged made known [n] := of_knows fun m hm => by
    obtain rfl := List.mem_singleton.mp hm
    exact ⟨by simp [refers], by simp [functions]⟩
  exact first.append (by simpa using h)

/-- A function with a body that is arranged is well scoped. -/
theorem scopes {f : Func} {outside : List String}
    (h : Arranged made (outside ++ f.params.map Ident.name) f.body.ownNodes) :
    f.Scoped made outside := by
  refine .intro h.ordered (h.inner _ (fun x hx => ?_) fun n hn x hx => ?_)
  · rw [Func.bindings, ← List.append_assoc]
    exact List.mem_append_left _ hx
  · refine List.mem_append_right _ (List.mem_append_right _ ?_)
    exact List.mem_flatMap.mpr ⟨n, hn, hx⟩

end Arranged

/-! ## Binders -/

/-- The names that a node binds: the one it declares with `let`, or those of a function and its
parameters. -/
def Node.bound : Node → List Ident
  | func f => f.name.toList ++ f.params
  | statement s => s.kind.declared
  | _ => []

/-- A node of an expression is one of its own or in a function inside. -/
theorem Expr.own_or_inside {enter : Func → Bool} {e : Expr} {n : Node} (hn : n ∈ e.nodes enter) :
    n ∈ e.ownNodes ∨ ∃ m ∈ e.ownNodes, ∃ f ∈ m.functions, n ∈ f.nodes enter := by
  induction e using Expr.inductOn with
  | step e ih =>
    have self : Node.expr e ∈ e.ownNodes := by
      rw [Expr.ownNodes, Expr.nodes_parts]
      exact List.mem_cons_self
    rw [Expr.nodes_parts] at hn
    simp only [List.mem_cons, List.mem_append, List.mem_flatMap, List.mem_map] at hn
    rcases hn with rfl | (⟨o, ho, hn⟩ | ⟨i, hi, rfl⟩) | ⟨f, hf, hn⟩
    · exact .inl self
    · rcases ih o ho hn with own | ⟨m, hm, f, hf, hn⟩
      · exact .inl (Expr.mem_nodes_of_operand ho own)
      · exact .inr ⟨m, Expr.mem_nodes_of_operand ho hm, f, hf, hn⟩
    · refine .inl ?_
      rw [Expr.ownNodes, Expr.nodes_parts]
      exact List.mem_cons_of_mem _ (List.mem_append_left _
        (List.mem_append_right _ (List.mem_map_of_mem hi)))
    · exact .inr ⟨.expr e, self, f, hf, hn⟩

theorem Block.own_or_inside {enter : Func → Bool} {b : Block} {n : Node} (hn : n ∈ b.nodes enter) :
    n ∈ b.ownNodes ∨ ∃ m ∈ b.ownNodes, ∃ f ∈ m.functions, n ∈ f.nodes enter := by
  induction b using Block.inductOn (Q := fun s : Statement => n ∈ s.nodes enter →
      n ∈ s.ownNodes ∨ ∃ m ∈ s.ownNodes, ∃ f ∈ m.functions, n ∈ f.nodes enter) with
  | block b ih =>
    rw [Block.nodes_eq, List.mem_cons, List.mem_flatMap] at hn
    rcases hn with rfl | ⟨s, hs, hn⟩
    · exact .inl (Node.self_mem_ownNodes (.block b))
    · rcases ih s hs hn with own | ⟨m, hm, f, hf, hn⟩
      · exact .inl (Block.mem_nodes_of_statement hs own)
      · exact .inr ⟨m, Block.mem_nodes_of_statement hs hm, f, hf, hn⟩
  | statement s headers blocks =>
    rename_i hn
    have self : Node.statement s ∈ s.ownNodes := Node.self_mem_ownNodes (.statement s)
    rcases Statement.mem_nodes_iff.mp hn with rfl | ⟨i, hi, rfl⟩ | ⟨e, he, hn⟩ | ⟨h, hh, hn⟩ |
      ⟨b, hb, hn⟩ | ⟨f, hf, hn⟩
    · exact .inl self
    · exact .inl (Statement.mem_nodes_iff.mpr (.inr (.inl ⟨i, hi, rfl⟩)))
    · rcases Expr.own_or_inside hn with own | ⟨m, hm, f, hf, hn⟩
      · exact .inl (Statement.mem_nodes_of_expr he own)
      · exact .inr ⟨m, Statement.mem_nodes_of_expr he hm, f, hf, hn⟩
    · rcases headers h hh hn with own | ⟨m, hm, f, hf, hn⟩
      · exact .inl (Statement.mem_nodes_of_header hh own)
      · exact .inr ⟨m, Statement.mem_nodes_of_header hh hm, f, hf, hn⟩
    · rcases blocks b hb hn with own | ⟨m, hm, f, hf, hn⟩
      · exact .inl (Statement.mem_nodes_of_block hb own)
      · exact .inr ⟨m, Statement.mem_nodes_of_block hb hm, f, hf, hn⟩
    · exact .inr ⟨.statement s, self, f, hf, hn⟩

theorem Func.not_mem_nodes (n : Node) (f : Func) : n ∉ f.nodes fun _ => false := by
  obtain ⟨id, name, params, body, span⟩ := f
  simp [Func.nodes]

section
variable {enter : Func → Bool} {m n : Node} {f : Func}

theorem Expr.mem_nodes_of_inside {e : Expr} (hm : m ∈ e.ownNodes) (hf : f ∈ m.functions)
    (hn : n ∈ f.nodes enter) : n ∈ e.nodes enter := by
  induction e using Expr.inductOn with
  | step e ih =>
    rw [Expr.ownNodes, Expr.nodes_parts, List.mem_cons, List.mem_append, List.mem_append,
      List.mem_flatMap] at hm
    rcases hm with rfl | (⟨o, ho, hm⟩ | hm) | hm
    · exact Expr.mem_nodes_of_function hf hn
    · exact Expr.mem_nodes_of_operand ho (ih o ho hm)
    · obtain ⟨i, -, rfl⟩ := List.mem_map.mp hm
      cases hf
    · obtain ⟨g, -, hm⟩ := List.mem_flatMap.mp hm
      exact absurd hm (Func.not_mem_nodes m g)

/-- The functions that own code holds are in the walk with all their nodes. -/
theorem Block.mem_nodes_of_inside {b : Block} (hm : m ∈ b.ownNodes) (hf : f ∈ m.functions)
    (hn : n ∈ f.nodes enter) : n ∈ b.nodes enter := by
  induction b using Block.inductOn (Q := fun s : Statement => m ∈ s.ownNodes → n ∈ s.nodes enter) with
  | block b ih =>
    rw [Block.ownNodes, Block.nodes_eq, List.mem_cons, List.mem_flatMap] at hm
    rcases hm with rfl | ⟨s, hs, hm⟩
    · cases hf
    · exact Block.mem_nodes_of_statement hs (ih s hs hm)
  | statement s headers blocks =>
    rename_i hm
    rcases Statement.mem_nodes_iff.mp hm with rfl | ⟨i, -, rfl⟩ | ⟨e, he, hm⟩ | ⟨h, hh, hm⟩ |
      ⟨b, hb, hm⟩ | ⟨g, hg, hm⟩
    · exact Statement.mem_nodes_of_function hf hn
    · cases hf
    · exact Statement.mem_nodes_of_expr he (Expr.mem_nodes_of_inside hm hf hn)
    · exact Statement.mem_nodes_of_header hh (headers h hh hm)
    · exact Statement.mem_nodes_of_block hb (blocks b hb hm)
    · exact absurd hm (Func.not_mem_nodes m g)

end

theorem Func.mem_allNodes_of_body {f : Func} {n : Node} (hn : n ∈ f.body.nodes fun _ => true) :
    n ∈ f.allNodes := by
  rw [f.allNodes_eq]
  exact List.mem_cons_of_mem _ (List.mem_append_right _ hn)

/-- What a function binds in one activation is bound by one of its nodes. -/
theorem Func.exists_binder {f : Func} {x : String} (hx : x ∈ f.bindings) :
    ∃ n ∈ f.allNodes, x ∈ n.bound.map Ident.name := by
  rcases List.mem_append.mp hx with hx | hx
  · refine ⟨.func f, by simp [f.allNodes_eq], ?_⟩
    rw [Node.bound, List.map_append]
    exact List.mem_append_right _ hx
  · obtain ⟨n, hn, hx⟩ := List.mem_flatMap.mp hx
    cases n with
    | statement s =>
      have own := f.mem_allNodes_of_body ((f.body.ownNodes_subperm _).subset hn)
      obtain ⟨id, kind, span⟩ := s
      cases kind with
      | declare name init => exact ⟨_, own, hx⟩
      | func g =>
        refine ⟨.func g, f.mem_allNodes_of_body (Block.mem_nodes_of_inside hn
          (List.mem_singleton_self g) (show .func g ∈ g.allNodes by simp [g.allNodes_eq])), ?_⟩
        rw [Node.bound, List.map_append]
        exact List.mem_append_left _ hx
      | _ => cases hx
    | _ => cases hx

theorem Ordered.exists_declares {known : List String} {ns : List Node} (h : Ordered made known ns)
    {n : Node} (hn : n ∈ ns) {x : String} (hx : x ∈ n.refers) (hm : made x) :
    x ∈ known ∨ ∃ m ∈ ns, x ∈ m.declares := by
  induction ns generalizing known with
  | nil => cases hn
  | cons m ns ih =>
    rcases List.mem_cons.mp hn with rfl | hn
    · exact .inl (h.1 x hx hm)
    · rcases ih h.2 hn with hx | ⟨k, hk, hx⟩
      · rcases List.mem_append.mp hx with hx | hx
        · exact .inl hx
        · exact .inr ⟨m, List.mem_cons_self, hx⟩
      · exact .inr ⟨k, List.mem_cons_of_mem _ hk, hx⟩

/-- In a function that is well scoped, a name that is referred to is bound, if not outside. -/
theorem Func.Scoped.exists_binder {f : Func} {outside : List String} (h : f.Scoped made outside)
    {n : Node} (hn : n ∈ f.allNodes) {x : String} (hx : x ∈ n.refers) (hm : made x) :
    x ∈ outside ∨ ∃ m ∈ f.allNodes, x ∈ m.bound.map Ident.name := by
  induction h with
  | @intro outside f ordered inner ih =>
    have here (h : x ∈ f.bindings) : ∃ m ∈ f.allNodes, x ∈ m.bound.map Ident.name := f.exists_binder h
    rw [f.allNodes_eq] at hn
    simp only [List.mem_cons, List.mem_append, List.mem_map] at hn
    rcases hn with rfl | (⟨i, -, rfl⟩ | ⟨i, -, rfl⟩) | hn
    · cases hx
    · cases hx
    · cases hx
    · rcases Block.own_or_inside hn with own | ⟨m, hm', g, hg, hn⟩
      · rcases ordered.exists_declares own hx hm with hx | ⟨m, hm', hx⟩
        · rcases List.mem_append.mp hx with hx | hx
          · exact .inl hx
          · exact .inr (here (List.mem_append_left _ hx))
        · exact .inr (here (List.mem_append_right _ (List.mem_flatMap.mpr ⟨m, hm', hx⟩)))
      · rcases ih m hm' g hg hn with hx | ⟨k, hk, hx⟩
        · rcases List.mem_append.mp hx with hx | hx
          · exact .inl hx
          · exact .inr (here hx)
        · exact .inr ⟨k, f.mem_allNodes_of_body (Block.mem_nodes_of_inside hm' hg hk), hx⟩

end WaitDefer
