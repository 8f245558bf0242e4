import WaitDefer.Proofs.Compile.Weighed
import WaitDefer.Proofs.Rotation.Scoped

/-!
# Compiled code is well scoped

Units are transformed one after the other. If the code mentions no name of a kind that is reserved,
the names of that kind in the result are those that rotation put there:

* `Func.scoped_transform`: one unit;
* `Module.scoped_of_compile`: every function of a compiled module.
-/

namespace WaitDefer

open Build Rotation Session

/-- What was used is left out of account. -/
def Spending.triples {σ β : Type} (T : Spending σ β) : Triples σ Unit where
  Of x P := T.Of x fun _ a => P () a
  pure h := T.pure (h ())
  bind hx hf := T.bind hx fun a => T.weaken (hf a) fun _ _ q _ p => q p

/-- None of some nodes refers to a name of some kind. -/
def Unmentioned (made : String → Prop) (ns : List Node) : Prop := ∀ n ∈ ns, ∀ x ∈ n.refers, ¬ made x

theorem Unmentioned.mono {made : String → Prop} {l l' : List Node} (h : Unmentioned made l)
    (sub : ∀ n ∈ l', n ∈ l) : Unmentioned made l' := fun n hn => h n (sub n hn)

section
variable {config : Config} {max : NodeId} {made : String → Prop}

/-- Nothing is charged for: only what holds of the result counts. -/
def Session.sound (config : Config) (max : NodeId) : Triples Session Unit :=
  (spending (β := Unit) config max (fun _ => 0) fun _ => 0).triples

theorem Session.sound_of {α : Type} {x : StateM Session α} {P : Unit → α → Prop} :
    (Session.sound config max).Of x P ↔
      (spending (β := Unit) config max (fun _ => 0) fun _ => 0).Of x fun _ a => P () a := Iff.rfl

/-- What is so whatever the state may be added to what a step is known to make. -/
theorem Session.sound_and {α : Type} {y : StateM Session α} {P : Unit → α → Prop} {Q : α → Prop}
    (h : (Session.sound config max).Of y P) (q : ∀ s, Q (y s).1) :
    (Session.sound config max).Of y fun _ a => P () a ∧ Q a := by
  refine spending_of.mpr fun s => ?_
  obtain ⟨errors, went⟩ := spending_of.mp (sound_of.mp h) s
  refine ⟨errors, fun stocked none => ?_⟩
  obtain ⟨stocked, later, names, numbered, p⟩ := went stocked none
  exact ⟨stocked, later, names, numbered, p, q s⟩

theorem Func.scoped_transform (reserved : ∀ x, made x → config.isReserved x = true)
    (runtime : ¬ made config.runtime.newCounter) (f : Func) :
    (Session.sound config max).Of (f.transform config max) fun _ g =>
      f.body.Knows made [] → g.Scoped made [] := by
  refine makes_transform (fun _ _ _ knows => Arranged.scopes (.of_knows fun n hn => ?_)) ?_
  · exact (knows n hn).mono (by simp)
  · intro marking ds out given rest names fs ok declares turned isNew _ knows
    refine scoped_lower knows (fun n hn x hx hm => ?_) runtime declares rfl turned
    simpa [not_reserved_of_marking ok hn hx] using reserved x.name hm

theorem Func.scoped_units (reserved : ∀ x, made x → config.isReserved x = true)
    (runtime : ¬ made config.runtime.newCounter) :
    let T := Session.sound config max
    let r := Rewriting.transformUnits config max
    Cases (fun e => Unmentioned made (e.nodes fun _ => true) →
        T.Of (e.rewrite r) fun _ e' => e'.Knows made [])
      (fun f => Unmentioned made f.allNodes → T.Of (f.rewrite r) fun _ f' => f'.Scoped made [])
      (fun b => Unmentioned made (b.nodes fun _ => true) →
        T.Of (b.rewrite r) fun _ b' => b'.Knows made [])
      fun s => Unmentioned made (s.nodes fun _ => true) →
        T.Of (s.rewrite r) fun _ s' => s'.Knows made [] where
  expr e operands functions := by
    intro plain
    have self : Node.expr e ∈ e.nodes fun _ => true := by
      rw [Expr.nodes_parts]
      exact List.mem_cons_self
    refine Triples.weaken _ (Expr.alike_rewrite _ (fun _ => rfl) (fun o ho => operands o ho ?_)
      fun f hf => functions f hf ?_) fun _ e' alike => ?_
    · exact plain.mono fun n hn => Expr.mem_nodes_of_operand ho hn
    · exact plain.mono fun n hn => Expr.mem_nodes_of_function hf hn
    · rw [Expr.knows_iff, alike.names]
      refine ⟨fun x hx hm => ?_, fun o ho => ?_, fun f hf => ?_⟩
      · exact absurd hm (plain _ self x.name (List.mem_map_of_mem hx))
      · obtain ⟨-, -, knows⟩ := exists_left_of_forall₂ alike.operands ho
        exact knows
      · obtain ⟨-, -, inside⟩ := exists_left_of_forall₂ alike.functions hf
        exact inside
  func f body := by
    intro plain
    have inBody := body (plain.mono fun n hn => by
      rw [f.allNodes_eq]
      exact List.mem_cons_of_mem _ (List.mem_append_right _ hn))
    refine spending_of.mpr fun s => ?_
    rw [Func.rewrite_transformUnits]
    split
    · exact ⟨fun none => absurd none (fail_errors _ _), fun _ none => absurd none (fail_errors _ _)⟩
    · exact Triples.bind (Session.sound config max) (sound_of.mpr (spending_deeper (sound_of.mp inBody)))
        (fun b => Func.scoped_transform reserved runtime { f with body := b }) s
  block b statements := by
    intro plain
    obtain ⟨id, ss, span⟩ := b
    refine Triples.bind _ (Statement.alike_listRewrite _ fun s hs => statements s hs ?_)
      fun ss' => Triples.pure _ fun _ inside => ?_
    · exact plain.mono fun n hn => Block.mem_nodes_of_statement hs hn
    · rw [Block.knows_iff]
      intro s hs
      obtain ⟨-, -, knows⟩ := exists_left_of_forall₂ inside hs
      exact knows
  statement s exprs headers blocks functions := by
    intro plain
    obtain ⟨id, kind, span⟩ := s
    refine Triples.bind _ (StatementKind.alike_rewrite _ (fun e he => exprs e he ?_)
      (fun h hh => headers h hh ?_) (fun b hb => blocks b hb ?_) fun f hf => functions f hf ?_)
      fun k' => Triples.pure _ fun _ alike => ?_
    · exact plain.mono fun n hn => Statement.mem_nodes_of_expr he hn
    · exact plain.mono fun n hn => Statement.mem_nodes_of_header hh hn
    · exact plain.mono fun n hn => Statement.mem_nodes_of_block hb hn
    · exact plain.mono fun n hn => Statement.mem_nodes_of_function hf hn
    · rw [Statement.knows_iff]
      refine ⟨fun e he => ?_, fun h hh => ?_, fun b hb => ?_, fun f hf => ?_⟩
      · obtain ⟨-, -, knows⟩ := exists_left_of_forall₂
          (List.rel_append alike.tests alike.operands) he
        exact knows
      · obtain ⟨-, -, knows⟩ := exists_left_of_forall₂ alike.headers hh
        exact knows
      · obtain ⟨-, -, knows⟩ := exists_left_of_forall₂ alike.blocks hb
        exact knows
      · obtain ⟨-, -, inside⟩ := exists_left_of_forall₂ alike.functions hf
        exact inside

/-- What units are made into without an error is what the functions of a module are compiled to. -/
theorem Module.functions_of_compile {m out : Module} {ws : List EmptyWait} {P : Func → Func → Prop}
    (units : ∀ f ∈ m.functions, (Session.sound config m.lastId).Of
      (f.rewrite (.transformUnits config m.lastId)) fun _ g => P f g)
    (ok : m.compile config = .ok (out, ws)) : List.Forall₂ P m.functions out.functions := by
  have functions : ∀ fs : List Func, (∀ f ∈ fs, f ∈ m.functions) →
      (Session.sound config m.lastId).Of
        (fs.mapM (Func.rewrite (.transformUnits config m.lastId))) fun _ gs =>
          List.Forall₂ P fs gs := by
    intro fs
    induction fs with
    | nil => exact fun _ => Triples.pure _ fun _ => .nil
    | cons f fs ih =>
      intro all
      rw [List.mapM_cons]
      exact Triples.bind _ (units f (all f List.mem_cons_self)) fun g =>
        Triples.bind _ (ih fun f hf => all f (List.mem_cons_of_mem _ hf)) fun gs =>
          Triples.pure _ fun _ rest first => .cons first rest
  have whole : (Session.sound config m.lastId).Of (m.rewrite (.transformUnits config m.lastId))
      fun _ out => List.Forall₂ P m.functions out.functions :=
    Triples.bind _ (functions m.functions fun _ hf => hf) fun gs => Triples.pure _ fun _ h => h
  obtain ⟨_, _, _, -, -, -, inside⟩ := made_of_compile (sound_of.mp whole) ok
  exact inside

/-- **Every function of a compiled module is well scoped**, if the module and the runtime mention no
name of the kind. -/
theorem Module.scoped_of_compile {m out : Module} {ws : List EmptyWait}
    (reserved : ∀ x, made x → config.isReserved x = true) (runtime : ¬ made config.runtime.newCounter)
    (plain : Unmentioned made m.allNodes) (ok : m.compile config = .ok (out, ws)) :
    ∀ f ∈ out.functions, f.Scoped made [] := by
  have units := functions_of_compile (P := fun _ g => g.Scoped made []) (fun f hf =>
    Func.whole (Func.scoped_units reserved runtime) f (plain.mono fun n hn =>
      List.mem_flatMap.mpr ⟨f, hf, hn⟩)) ok
  intro g hg
  obtain ⟨-, -, inside⟩ := exists_left_of_forall₂ units hg
  exact inside

end

end WaitDefer
