import WaitDefer.Proofs.Compile.Unit
import WaitDefer.Proofs.Tree.Stepwise
import WaitDefer.Proofs.Tree.Whole

/-!
# A session

Units are transformed one after the other, functions inside first, on one supply:

* `Node.Kept`: what transforming the functions inside leaves as it is;
* `Session.Sound`: the supply is as it should be, and nothing but running out of ids went wrong;
* `Module.sound_of_fit`: a session keeps this if every function it meets is fit.
-/

namespace WaitDefer

/-! ## What stays of a unit -/

/-- Code in which functions inside were replaced. -/
structure Node.Kept (n n' : Node) : Prop where
  ids : n'.ownIds.Perm n.ownIds
  simple : (∀ x ∈ n.ownNodes, x.HasSimpleHead) → ∀ x ∈ n'.ownNodes, x.HasSimpleHead
  raw : ∀ max, n.Raw max → n'.Raw max

theorem Node.simple_iff {n : Node} :
    (∀ x ∈ n.ownNodes, x.HasSimpleHead) ↔
      n.HasSimpleHead ∧ ∀ c ∈ n.children, ∀ x ∈ c.ownNodes, x.HasSimpleHead := by
  constructor
  · exact fun h => ⟨h n n.self_mem_ownNodes, fun c hc x hx => h x (ownNodes_of_child hc hx)⟩
  · rintro ⟨own, inside⟩ x hx
    cases hi : x.id? with
    | none => cases x <;> trivial
    | some i =>
      rcases (mem_ownNodes hi).mp hx with rfl | ⟨c, hc, hx⟩
      · exact own
      · exact inside c hc x hx

/-- An expression in which functions inside were replaced. -/
def Expr.Kept (e e' : Expr) : Prop :=
  ∀ max, (∀ f, .expr (.func f) ∈ e.ownNodes → f.id ≤ max) →
    ∀ f, .expr (.func f) ∈ e'.ownNodes → f.id ≤ max

theorem Expr.mem_ownNodes {e : Expr} {f : Func} :
    .expr (.func f) ∈ e.ownNodes ↔
      f ∈ e.functions ∨ ∃ o ∈ e.operands, .expr (.func f) ∈ o.ownNodes := by
  rw [ownNodes, nodes_parts]
  have noFunc : ∀ n (f : Func), n ∉ f.nodes fun _ => false := by
    rintro n ⟨id, name, params, body, span⟩
    simp [Func.nodes]
  simp only [List.mem_cons, List.mem_append, List.mem_flatMap, List.mem_map, noFunc, and_false,
    exists_false, or_false]
  cases e <;> simp [functions, ownNodes, eq_comm]

theorem Expr.Alike.kept {e e' : Expr} (h : e.Alike Expr.Kept (fun f f' => f'.id = f.id) e') :
    e.Kept e' := by
  intro max raw f hf
  rcases mem_ownNodes.mp hf with hf | ⟨o, ho, hf⟩
  · obtain ⟨g, hg, same⟩ := exists_left_of_forall₂ h.functions hf
    rw [same]
    exact raw g (mem_ownNodes.mpr (.inl hg))
  · obtain ⟨o₀, ho₀, kept⟩ := exists_left_of_forall₂ h.operands ho
    exact kept max (fun g hg => raw g (mem_ownNodes.mpr (.inr ⟨o₀, ho₀, hg⟩))) f hf

theorem StatementKind.Alike.kept {id : NodeId} {span : Span} {k k' : StatementKind}
    (h : k.Alike Expr.Kept (fun s s' => (Node.statement s).Kept (.statement s') ∧
      s'.kind.isSimple = s.kind.isSimple)
      (fun b b' => (Node.block b).Kept (.block b')) (fun f f' => f'.id = f.id) k') :
    (Node.statement ⟨id, k, span⟩).Kept (.statement ⟨id, k', span⟩) := by
  refine ⟨?_, ?_, ?_⟩
  · refine (Node.ownIds_statement _).trans
      (List.Perm.trans ?_ (Node.ownIds_statement ⟨id, k, span⟩).symm)
    refine .cons id ?_
    simp only [Node.children, List.flatMap_append, List.flatMap_map]
    refine .append ?_ ?_
    · exact flatMap_perm h.headers fun a b l => l.1.ids
    · exact flatMap_perm h.blocks fun a b l => l.ids
  · intro simple
    obtain ⟨head, inside⟩ := Node.simple_iff.mp simple
    refine Node.simple_iff.mpr ⟨fun x hx => ?_, fun c hc => ?_⟩
    · obtain ⟨x₀, hx₀, -, same⟩ := exists_left_of_forall₂ h.headers hx
      rw [same]
      exact head x₀ hx₀
    · rcases List.mem_append.mp hc with hc | hc
      · obtain ⟨x, hx, rfl⟩ := List.mem_map.mp hc
        obtain ⟨x₀, hx₀, kept, -⟩ := exists_left_of_forall₂ h.headers hx
        exact kept.simple (inside _ (List.mem_append_left _ (List.mem_map_of_mem hx₀)))
      · obtain ⟨b, hb, rfl⟩ := List.mem_map.mp hc
        obtain ⟨b₀, hb₀, kept⟩ := exists_left_of_forall₂ h.blocks hb
        exact kept.simple (inside _ (List.mem_append_right _ (List.mem_map_of_mem hb₀)))
  · intro max raw
    rw [Node.raw_statement] at raw ⊢
    refine ⟨fun e he f hf => ?_, fun f hf => ?_, fun x hx => ?_, fun b hb => ?_⟩
    · obtain ⟨e₀, he₀, kept⟩ := exists_left_of_forall₂ (List.rel_append h.tests h.operands) he
      exact kept max (raw.exprs e₀ he₀) f hf
    · obtain ⟨g, hg, same⟩ := exists_left_of_forall₂ h.functions hf
      rw [same]
      exact raw.functions g hg
    · obtain ⟨x₀, hx₀, kept⟩ := exists_left_of_forall₂ h.headers hx
      exact kept.1.raw max (raw.headers x₀ hx₀)
    · obtain ⟨b₀, hb₀, kept⟩ := exists_left_of_forall₂ h.blocks hb
      exact kept.raw max (raw.blocks b₀ hb₀)

theorem Node.Kept.block {id : NodeId} {span : Span} {ss ss' : List Statement}
    (h : List.Forall₂ (fun s s' => (Node.statement s).Kept (.statement s') ∧
      s'.kind.isSimple = s.kind.isSimple) ss ss') :
    (Node.block ⟨id, ss, span⟩).Kept (.block ⟨id, ss', span⟩) := by
  refine ⟨?_, ?_, ?_⟩
  · rw [ownIds_block, ownIds_block]
    simp only [children, List.flatMap_map]
    exact .cons id (flatMap_perm h fun a b l => l.1.ids)
  · intro simple
    obtain ⟨-, inside⟩ := simple_iff.mp simple
    refine simple_iff.mpr ⟨trivial, fun c hc => ?_⟩
    obtain ⟨x, hx, rfl⟩ := List.mem_map.mp hc
    obtain ⟨x₀, hx₀, kept, -⟩ := exists_left_of_forall₂ h hx
    exact kept.simple (inside _ (List.mem_map_of_mem hx₀))
  · intro max raw
    rw [raw_block] at raw ⊢
    intro x hx
    obtain ⟨x₀, hx₀, kept, -⟩ := exists_left_of_forall₂ h hx
    exact kept.raw max (raw x₀ hx₀)

/-- A unit stays fit when functions inside it are replaced. -/
theorem Func.Fit.of_kept {max : NodeId} {f : Func} {body : Block} (h : f.Fit max)
    (kept : (Node.block f.body).Kept (.block body)) : { f with body }.Fit max where
  distinct := kept.ids.nodup_iff.mpr h.distinct
  simple := kept.simple h.simple
  old i hi := h.old i (kept.ids.mem_iff.mp hi)
  raw := kept.raw max h.raw

/-! ## A session -/

/-- The supply of a session makes up reserved names and ids above the old ones. -/
structure Session.Supplied (config : Config) (max : NodeId) (s : Session) : Prop where
  reserved : s.supply.names.reserved = config.reservedPrefix
  promises : s.supply.ids.Promises (max < ·)

/-- A session with its supply, in which nothing but running out of ids went wrong inside the
transform since there were the errors `before`. -/
structure Session.Sound (config : Config) (max : NodeId) (before : List CompileError)
    (s : Session) : Prop extends s.Supplied config max where
  errors : ∀ name e, .internal name e ∈ s.errors → .internal name e ∈ before ∨
    s.supply.ids.exhausted = true ∧ ∃ n, e.flaw = .idsExhausted n

section
variable {config : Config} {max : NodeId} {before : List CompileError} {s : Session}

theorem Session.supplied_new : (Session.new config max).Supplied config max :=
  ⟨rfl, IdSupply.promises_above max⟩

theorem Session.Supplied.sound (h : s.Supplied config max) : s.Sound config max s.errors :=
  ⟨h, fun _ _ mem => .inl mem⟩

theorem Session.Sound.fail (h : s.Sound config max before) {e : CompileError}
    (notInternal : ∀ name e', e ≠ .internal name e') : (s.fail e).Sound config max before := by
  refine ⟨⟨h.reserved, h.promises⟩, fun name e' mem => ?_⟩
  rcases List.mem_append.mp mem with mem | mem
  · exact h.errors name e' mem
  · exact absurd (List.mem_singleton.mp mem).symm (notInternal name e')

theorem Session.Sound.warn (h : s.Sound config max before) (ws : List EmptyWait) :
    (s.warn ws).Sound config max before :=
  ⟨⟨h.reserved, h.promises⟩, h.errors⟩

/-- One unit. -/
theorem Func.sound_transform {f : Func} (fit : f.Fit max) (room : max < NodeId.last)
    (h : s.Sound config max before) :
    (f.transform config max s).2.Sound config max before ∧ (f.transform config max s).1.id = f.id := by
  unfold transform
  split
  · exact ⟨h.fail (by simp), rfl⟩
  · rename_i marking ok
    have warned : Session.Sound config max before
        (if config.severity EmptyWait.name EmptyWait.severity = .warn then s.warn marking.warnings
          else s) := by
      split
      · exact h.warn _
      · exact h
    dsimp only
    split
    · exact ⟨warned.fail (by simp), rfl⟩
    · split
      · obtain ⟨r, s', run, reserved, promises, keeps, ⟨g, rfl, sameId⟩ | ⟨exhausted, rfl⟩⟩ :=
          lowerChecked_error fit ok room warned.reserved warned.promises
        · rw [run]
          refine ⟨⟨⟨reserved, promises⟩, fun name e mem => ?_⟩, sameId⟩
          exact (warned.errors name e mem).imp_right fun ⟨exhausted, flaw⟩ =>
            ⟨keeps exhausted, flaw⟩
        · rw [run]
          refine ⟨⟨⟨reserved, promises⟩, fun name e mem => ?_⟩, rfl⟩
          rcases List.mem_append.mp mem with mem | mem
          · exact (warned.errors name e mem).imp_right fun ⟨_, flaw⟩ => ⟨exhausted, flaw⟩
          · cases List.mem_singleton.mp mem
            exact .inr ⟨exhausted, max, rfl⟩
      · exact ⟨warned, rfl⟩

/-- Every function among some nodes is fit. -/
def AllFit (max : NodeId) (ns : List Node) : Prop := ∀ f, .func f ∈ ns → f.Fit max

theorem AllFit.mono {l l' : List Node} (h : AllFit max l) (sub : ∀ n ∈ l', n ∈ l) :
    AllFit max l' := fun f hf => h f (sub _ hf)

theorem Session.Sound.at_depth (h : s.Sound config max before) (depth : Nat) :
    { s with depth }.Sound config max before :=
  ⟨⟨h.reserved, h.promises⟩, h.errors⟩

theorem Func.rewrite_transformUnits (f : Func) :
    f.rewrite (.transformUnits config max) s =
      if config.maxDepth ≤ s.depth then
        (f, s.fail (.rules f.displayName [⟨.nestingTooDeep config.maxDepth, f.span⟩]))
      else
        let r := f.body.rewrite (.transformUnits config max) { s with depth := s.depth + 1 }
        Func.transform config max { f with body := r.1 } { r.2 with depth := s.depth } := by
  obtain ⟨id, name, params, body, span⟩ := f
  have asked : (get : StateM Session Session) s = (s, s) := rfl
  rw [Func.rewrite]
  generalize body.rewrite (.transformUnits config max) = inner
  simp only [Rewriting.transformUnits, StateM.bind_apply, asked]
  split <;> rfl

/-- Functions after the functions inside them. -/
theorem sound_cases (room : max < NodeId.last) :
    let T := Triples.keeping (Session.Sound config max before)
    let r := Rewriting.transformUnits config max
    Cases (fun e => AllFit max (e.nodes fun _ => true) → T.Of (e.rewrite r) fun _ => e.Kept)
      (fun f => AllFit max f.allNodes → T.Of (f.rewrite r) fun _ f' => f'.id = f.id)
      (fun b => AllFit max (b.nodes fun _ => true) →
        T.Of (b.rewrite r) fun _ b' => (Node.block b).Kept (.block b'))
      fun s => AllFit max (s.nodes fun _ => true) → T.Of (s.rewrite r) fun _ s' =>
        (Node.statement s).Kept (.statement s') ∧ s'.kind.isSimple = s.kind.isSimple where
  expr e operands functions := by
    intro fit
    refine Triples.weaken _ (Expr.alike_rewrite _ (fun _ => rfl) (fun o ho => operands o ho ?_)
      fun f hf => functions f hf ?_) fun _ _ h => h.kept
    · exact fit.mono fun n hn => Expr.mem_nodes_of_operand ho hn
    · exact fit.mono fun n hn => Expr.mem_nodes_of_function hf hn
  func f body := by
    intro fit s sound
    have inBody := body (fit.mono fun n hn => by
      rw [f.allNodes_eq]
      exact List.mem_cons_of_mem _ (List.mem_append_right _ hn))
    have own : f.Fit max := fit f (by simp [f.allNodes_eq])
    rw [Func.rewrite_transformUnits]
    split
    · exact ⟨sound.fail (by simp), rfl⟩
    · obtain ⟨sound, kept⟩ := inBody _ (sound.at_depth (s.depth + 1))
      exact Func.sound_transform (own.of_kept kept) room (sound.at_depth s.depth)
  block b statements := by
    intro fit
    obtain ⟨id, ss, span⟩ := b
    have inside := Statement.alike_listRewrite (Triples.keeping (Session.Sound config max before))
      (r := .transformUnits config max) 
      fun s hs => statements s hs (fit.mono fun n hn => Block.mem_nodes_of_statement hs hn)
    exact Triples.bind _ inside fun ss' => Triples.pure _ fun _ h => .block h
  statement s exprs headers blocks functions := by
    intro fit
    obtain ⟨id, kind, span⟩ := s
    refine Triples.bind _ (StatementKind.alike_rewrite _ (fun e he => exprs e he ?_)
      (fun h hh => headers h hh ?_) (fun b hb => blocks b hb ?_) fun f hf => functions f hf ?_)
      fun k' => Triples.pure _ fun _ h => ⟨h.kept, h.isSimple⟩
    · exact fit.mono fun n hn => Statement.mem_nodes_of_expr he hn
    · exact fit.mono fun n hn => Statement.mem_nodes_of_header hh hn
    · exact fit.mono fun n hn => Statement.mem_nodes_of_block hb hn
    · exact fit.mono fun n hn => Statement.mem_nodes_of_function hf hn

/-- **In a session over fit functions only running out of ids goes wrong.** -/
theorem Module.sound_of_fit {m : Module} (room : max < NodeId.last) (fit : AllFit max m.allNodes)
    (sound : s.Sound config max before) :
    ((m.rewrite (.transformUnits config max)) s).2.Sound config max before := by
  have functions : ∀ fs : List Func, (∀ f ∈ fs, AllFit max f.allNodes) →
      (Triples.keeping (Session.Sound config max before)).Of
        (fs.mapM (Func.rewrite (.transformUnits config max))) fun _ _ => True := by
    intro fs
    induction fs with
    | nil => exact fun _ => Triples.pure _ fun _ => trivial
    | cons f fs ih =>
      intro all
      rw [List.mapM_cons]
      refine Triples.bind _ (Func.whole (sound_cases room) f (all f List.mem_cons_self)) fun f' =>
        Triples.bind _ (ih fun g hg => all g (List.mem_cons_of_mem _ hg)) fun fs' => ?_
      exact Triples.pure _ fun _ _ _ => trivial
  refine (functions m.functions (fun f hf => ?_) s sound).1
  exact fit.mono fun n hn => List.mem_flatMap.mpr ⟨f, hf, hn⟩

/-- In a module with distinct ids and simple heads every function is fit. -/
theorem Module.allFit {m : Module} (distinct : m.ids.Nodup)
    (simple : ∀ n ∈ m.allNodes, n.HasSimpleHead) (bound : ∀ i ∈ m.ids, i ≤ max) :
    AllFit max m.allNodes := by
  intro f hf
  have part : f.allNodes.Subperm m.allNodes := m.whole _ hf
  refine Func.fit ?_ (fun n hn => simple n (part.subset ?_)) fun i hi => ?_
  · obtain ⟨l, perm, sub⟩ := part
    exact (perm.filterMap Node.id?).nodup_iff.mp (distinct.sublist (sub.filterMap Node.id?))
  · rw [f.allNodes_eq]
    exact List.mem_cons_of_mem _ (List.mem_append_right _ ((f.body.ownNodes_subperm _).subset hn))
  · obtain ⟨n, hn, hi⟩ := List.mem_filterMap.mp hi
    exact bound i (List.mem_filterMap.mpr ⟨n, part.subset hn, hi⟩)

end

end WaitDefer
