import WaitDefer.Proofs.Compile.Desugared
import WaitDefer.Proofs.Tree.Congruent
import WaitDefer.Proofs.Tree.Placed

/-!
# Units that are left alone

A session compiles functions one after the other, those inside a function before it. This module
says what it leaves alone:

* `Session.compileEach`, `Module.Visits`: the functions that the session of a module comes to, and
  the state in which it does;
* `Func.rewrite_eq`: compiling a function is compiling those inside and then the unit;
* `Func.transform_quiet`: a unit that does not wait stays as it is;
* `Func.keeps_transform`: a unit that waits holds no old functions but those that were in it;
* `Module.units_of_compile`: both for every function that a session comes to.
-/

namespace WaitDefer

open Session

/-! ## What is compiled when -/

/-- Functions are compiled one after the other. -/
def Session.compileEach (config : Config) (max : NodeId) (fs : List Func) :
    StateM Session (List Func) :=
  fs.mapM (Func.rewrite (.transformUnits config max))

/-- The session of a module comes to a function: to those of the module one after the other, and
before it is done with one to those inside it. -/
inductive Module.Visits (config : Config) (m : Module) : Session → Func → Prop
  | top {before after : List Func} {f : Func} (listed : m.functions = before ++ f :: after) :
    Visits config m (compileEach config m.lastId before (.new config m.lastId)).2 f
  | inside {s : Session} {before after : List Func} {f g : Func} (visited : Visits config m s f)
    (listed : f.nested = before ++ g :: after) :
    Visits config m (compileEach config m.lastId before { s with depth := s.depth + 1 }).2 g

section
variable {config : Config} {max : NodeId}

/-- What a block becomes when the functions inside are compiled. -/
theorem Block.rewrite_units (b : Block) (s : Session) :
    b.rewrite (.transformUnits config max) s =
      (b.place (compileEach config max b.nested s).1, (compileEach config max b.nested s).2) :=
  b.rewrite_functions s

/-- The functions inside are then those that were compiled. -/
theorem Block.nested_place_units (b : Block) (s : Session) :
    (b.place (compileEach config max b.nested s).1).nested = (compileEach config max b.nested s).1 := by
  have nested : (b.rewrite (.transformUnits config max) s).1.nested = _ := b.nested_rewrite s
  rwa [rewrite_units] at nested

/-- Compiling a function is compiling the functions inside and then the unit with these in their
places. -/
theorem Func.rewrite_eq (f : Func) (s : Session) :
    f.rewrite (.transformUnits config max) s =
      if config.maxDepth ≤ s.depth then
        (f, s.fail (.rules f.displayName [⟨.nestingTooDeep config.maxDepth, f.span⟩]))
      else
        let r := compileEach config max f.nested { s with depth := s.depth + 1 }
        Func.transform config max { f with body := f.body.place r.1 } { r.2 with depth := s.depth } := by
  rw [rewrite_transformUnits, Block.rewrite_units]
  rfl

/-! ## Units that do not wait -/

/-- What does not wait is not found to wait. -/
theorem Block.survey_of_quiet {b : Block} (quiet : ¬ (Node.block b).Waits) (room : Nat)
    (inWait : Bool) : (b.survey config room inWait).waits ≠ true ∧
      ∀ i, i ∉ (b.survey config room inWait).awaiting := by
  induction b using Block.inductOn (Q := fun s : Statement => ¬ (Node.statement s).Waits →
      ∀ (room : Nat) (inWait : Bool), (s.survey config room inWait).waits ≠ true ∧
        ∀ i, i ∉ (s.survey config room inWait).awaiting) generalizing room inWait with
  | block b ih =>
    have inside (s : Statement) (hs : s ∈ b.statements) := ih s hs fun waits => quiet
      ((Node.waits_iff _).mpr (.inr ⟨.statement s, List.mem_map_of_mem hs, waits⟩))
    have waits : ¬ (Statement.listSurvey config room inWait b.statements).waits = true := by
      rw [Statement.listSurvey_waits]
      exact fun ⟨s, hs, waits⟩ => (inside s hs room inWait).1 waits
    rw [Block.survey_eq, Survey.within_waits]
    refine ⟨waits, fun i hi => ?_⟩
    rw [Survey.mem_within_awaiting, Statement.mem_listSurvey_awaiting] at hi
    rcases hi with ⟨-, hi⟩ | ⟨s, hs, hi⟩
    · exact waits hi
    · exact (inside s hs room inWait).2 i hi
  | statement s headers blocks =>
    rename_i quiet room inWait
    have notWait : s.kind.isWait ≠ true := fun isWait => quiet ((Node.waits_iff _).mpr (.inl isWait))
    have inHeader (h : Statement) (hh : h ∈ s.kind.headers) := headers h hh fun waits => quiet
      ((Node.waits_iff _).mpr (.inr ⟨.statement h, List.mem_append_left _ (List.mem_map_of_mem hh), waits⟩))
    have inBlock (b : Block) (hb : b ∈ s.kind.blocks) (room : Nat) (inWait : Bool) :=
      blocks b hb (fun waits => quiet ((Node.waits_iff _).mpr
        (.inr ⟨.block b, List.mem_append_right _ (List.mem_map_of_mem hb), waits⟩))) room inWait
    cases room with
    | zero =>
      obtain ⟨id, kind, span⟩ := s
      simp [Statement.survey, Survey.violation, Survey.nothing]
    | succ room =>
      have waits : ¬ (s.kind.survey config room inWait s.span).waits = true := by
        rw [StatementKind.survey_waits]
        rintro (isWait | ⟨b, hb, waits⟩)
        · exact notWait isWait
        · exact (inBlock b hb _ _).1 waits
      rw [Statement.survey_succ, Survey.within_waits]
      refine ⟨waits, fun i hi => ?_⟩
      rw [Survey.mem_within_awaiting, StatementKind.mem_survey_awaiting] at hi
      rcases hi with ⟨-, hi⟩ | ⟨h, hh, hi⟩ | ⟨b, hb, hi⟩
      · exact waits hi
      · exact (inHeader h hh _ _).2 i hi
      · exact (inBlock b hb _ _).2 i hi

/-- A unit that does not wait stays as it is, whatever is wrong with it. -/
theorem Func.transform_quiet {f : Func} (quiet : ¬ (Node.block f.body).Waits) (s : Session) :
    (f.transform config max s).1 = f := by
  unfold transform
  cases ok : f.marking config with
  | error violations => rfl
  | ok marking =>
    have unmarked : marking.hasWait f = false := by
      rw [Marking.hasWait, MarkTable.has_await, ← Bool.not_eq_true, awaits_iff ok]
      exact (Block.survey_of_quiet quiet _ _).2 _
    dsimp only
    split
    · rfl
    · rw [if_neg (by simp [unmarked])]

/-- Nothing waits, in functions inside neither. -/
def QuietThroughout (ns : List Node) : Prop := ∀ n ∈ ns, n.isWait = false

/-- Where nothing waits, nothing is changed. -/
theorem quiet_cases (config : Config) (max : NodeId) :
    let T : Triples Session Unit := .keeping fun _ => True
    let r := Rewriting.transformUnits config max
    Cases (fun e => QuietThroughout (e.nodes fun _ => true) → T.Of (e.rewrite r) fun _ => Eq e)
      (fun f => QuietThroughout f.allNodes → T.Of (f.rewrite r) fun _ => Eq f)
      (fun b => QuietThroughout (b.nodes fun _ => true) → T.Of (b.rewrite r) fun _ => Eq b)
      fun s => QuietThroughout (s.nodes fun _ => true) → T.Of (s.rewrite r) fun _ => Eq s where
  expr e operands functions := by
    intro quiet
    refine Triples.weaken _ (Expr.congruent_rewrite _ (fun _ => rfl) (fun o ho => operands o ho ?_)
      fun f hf => functions f hf ?_) fun _ _ congruent => congruent.eq
    · exact fun n hn => quiet n (Expr.mem_nodes_of_operand ho hn)
    · exact fun n hn => quiet n (Expr.mem_nodes_of_function hf hn)
  func f body := by
    intro quiet s _
    refine ⟨trivial, ?_⟩
    rw [Func.rewrite_transformUnits]
    split
    · rfl
    · have same := (body (fun n hn => quiet n (f.mem_allNodes_of_body hn))
        { s with depth := s.depth + 1 } trivial).2
      have whole : { f with body := (f.body.rewrite (.transformUnits config max)
          { s with depth := s.depth + 1 }).1 } = f := by
        rw [← same]
        cases f
        rfl
      dsimp only
      rw [whole]
      refine (Func.transform_quiet ?_ _).symm
      rintro ⟨n, hn, isWait⟩
      have inside := f.mem_allNodes_of_body ((f.body.ownNodes_subperm _).subset hn)
      rw [quiet n inside] at isWait
      cases isWait
  block b statements := by
    intro quiet
    obtain ⟨id, ss, span⟩ := b
    refine Triples.bind _ (Statement.alike_listRewrite _ fun s hs => statements s hs ?_) fun ss' =>
      Triples.pure _ fun _ same => ?_
    · exact fun n hn => quiet n (Block.mem_nodes_of_statement hs hn)
    · rw [List.forall₂_eq_eq_eq] at same
      rw [same]
  statement s exprs headers blocks functions := by
    intro quiet
    obtain ⟨id, kind, span⟩ := s
    refine Triples.bind _ (StatementKind.congruent_rewrite _ (fun e he => exprs e he ?_)
      (fun h hh => headers h hh ?_) (fun b hb => blocks b hb ?_) fun f hf => functions f hf ?_)
      fun k' => Triples.pure _ fun _ congruent => by rw [congruent.eq]
    · exact fun n hn => quiet n (Statement.mem_nodes_of_expr he hn)
    · exact fun n hn => quiet n (Statement.mem_nodes_of_header hh hn)
    · exact fun n hn => quiet n (Statement.mem_nodes_of_block hb hn)
    · exact fun n hn => quiet n (Statement.mem_nodes_of_function hf hn)

/-! ## Units that wait -/

/-- A function that is among the given ones if it is old; if it is new, the old functions inside
are. -/
structure Func.Keeps (max : NodeId) (given : List Func) (h : Func) : Prop where
  old : h.id ≤ max → h ∈ given
  inside : max < h.id → ∀ n ∈ h.unitNodes max, ∀ k ∈ n.functions, k.id ≤ max → k ∈ given

theorem Func.keeps_unit {given : List Func} {b : Block}
    (carries : Carries (.only (Func.Keeps max given)) b.ownNodes) :
    ∀ n ∈ b.nodes (fun g => max < g.id), ∀ k ∈ n.functions, k.id ≤ max → k ∈ given := by
  intro n hn k hk old
  rcases Block.own_or_inside hn with own | ⟨m, hm, g, hg, hn⟩
  · exact ((carries n own).functions k hk).old old
  · -- only new functions are entered, and their names hold no functions
    obtain ⟨id, name, params, body, span⟩ := g
    rw [Func.nodes] at hn
    split at hn
    · rename_i isNew
      simp only [List.mem_cons, List.mem_append, List.mem_map] at hn
      rcases hn with rfl | (⟨i, -, rfl⟩ | ⟨i, -, rfl⟩) | hn
      · cases hk
      · cases hk
      · cases hk
      · exact ((carries m hm).functions _ hg).inside (by simpa using isNew) n hn k hk old
    · cases hn

theorem Func.keeps_made {given : List Func} {g : Func} (isNew : max < g.id)
    (inside : Carries (.only (Func.Keeps max given)) g.body.ownNodes) : g.Keeps max given :=
  ⟨fun old => absurd isNew (Nat.not_lt.mpr old), fun _ => keeps_unit inside⟩

theorem Func.extends_keeps (given : List Func) (reserved : String) :
    (Traits.only (Func.Keeps max given)).Extends (.new max) reserved where
  routine _ _ _ _ _ isNew _ inside := keeps_made isNew (Carries.block_iff.mpr inside)
  continuation _ isNew _ _ _ inside := keeps_made isNew inside
  callback _ _ params bindings ids _ isNew _ _ _ := keeps_made isNew
    (Carries.block_iff.mpr (Callbacks.carries_assignments bindings params ids))
  counter _ _ _ := trivial

/-- Without an error, a unit is made into one that holds no old functions but those that were in
it. -/
theorem Func.keeps_transform (given : List Func) (f : Func) :
    (Session.sound config max).Of (f.transform config max) fun _ g =>
      Carries (.only (Func.Keeps max given)) f.body.ownNodes →
        Carries (.only (Func.Keeps max given)) g.body.ownNodes := by
  refine makes_transform (fun _ _ _ carries => carries) ?_
  intro marking ds out given' rest names made ok declares turned isNew _ carries
  exact carries_lower (extends_keeps given _) carries declares turned (.new isNew)

/-! ## A whole session -/

/-- The functions that a session compiles keep their ids, and a session without an error at its end
had none before. -/
theorem Func.sound_units (f : Func) :
    (Session.sound config max).Of (f.rewrite (.transformUnits config max)) fun _ g => g.id = f.id := by
  let T := Session.sound config max
  let r := Rewriting.transformUnits config max
  have cases : Cases (fun e => T.Of (e.rewrite r) fun _ _ => True)
      (fun f => T.Of (f.rewrite r) fun _ g => g.id = f.id)
      (fun b => T.Of (b.rewrite r) fun _ _ => True)
      (fun s => T.Of (s.rewrite r) fun _ _ => True) := by
    constructor
    case expr =>
      intro e operands functions
      exact Triples.weaken _ (Expr.alike_rewrite T (E := fun _ _ _ => True)
        (F := fun _ (f g : Func) => g.id = f.id) (fun _ => rfl) operands functions) fun _ _ _ => trivial
    case func =>
      intro f body
      refine spending_of.mpr fun s => ?_
      rw [Func.rewrite_transformUnits]
      split
      · exact ⟨fun none => absurd none (fail_errors _ _), fun _ none => absurd none (fail_errors _ _)⟩
      · refine Triples.bind T (Q := fun _ (g : Func) => g.id = f.id)
          (sound_of.mpr (spending_deeper (sound_of.mp body)))
          (fun b => Triples.weaken _ (sound_of.mpr (makes_transform (f := { f with body := b })
            (P := fun _ (g : Func) => g.id = f.id) (fun _ _ _ => rfl) ?_)) fun _ _ same _ => same) s
        intros
        rfl
    case block =>
      intro b statements
      obtain ⟨id, ss, span⟩ := b
      exact Triples.bind T (Statement.alike_listRewrite T statements) fun _ =>
        Triples.pure _ fun _ _ => trivial
    case statement =>
      intro s exprs headers blocks functions
      obtain ⟨id, kind, span⟩ := s
      exact Triples.bind T (StatementKind.alike_rewrite T exprs headers blocks functions) fun _ =>
        Triples.pure _ fun _ _ => trivial
  exact Func.whole cases f

theorem Session.sound_compileEach (fs : List Func) : (Session.sound config max).Of
    (compileEach config max fs) fun _ gs => List.Forall₂ (fun f g => g.id = f.id) fs gs := by
  unfold compileEach
  induction fs with
  | nil => exact Triples.pure _ fun _ => .nil
  | cons f fs ih =>
    rw [List.mapM_cons]
    exact Triples.bind _ f.sound_units fun g => Triples.bind _ ih fun gs =>
      Triples.pure _ fun _ rest first => .cons first rest

theorem Session.compileEach_append (fs gs : List Func) (s : Session) :
    compileEach config max (fs ++ gs) s =
      ((compileEach config max fs s).1 ++
          (compileEach config max gs (compileEach config max fs s).2).1,
        (compileEach config max gs (compileEach config max fs s).2).2) := by
  unfold compileEach
  rw [List.mapM_append]
  rfl

theorem Session.compileEach_cons (f : Func) (fs : List Func) (s : Session) :
    compileEach config max (f :: fs) s =
      let r := f.rewrite (.transformUnits config max) s
      (r.1 :: (compileEach config max fs r.2).1, (compileEach config max fs r.2).2) := by
  unfold compileEach
  rw [List.mapM_cons]
  rfl

theorem Session.Stocked.deeper {s : Session} {depth : Nat} (h : s.Stocked config max) :
    { s with depth }.Stocked config max := ⟨h.reserved, h.proper, h.above, h.enough⟩

/-- If functions are compiled without an error, each is, on a supply as it should be. -/
theorem Session.compileEach_split {before after : List Func} {f : Func} {s : Session}
    (stocked : s.Stocked config max)
    (none : (compileEach config max (before ++ f :: after) s).2.errors = []) :
    (compileEach config max before s).2.Stocked config max ∧
      (f.rewrite (.transformUnits config max) (compileEach config max before s).2).2.errors = [] := by
  obtain ⟨-, first⟩ := sound_of.mp (sound_compileEach before) s
  rw [compileEach_append, compileEach_cons] at none
  have rest : (f.rewrite (.transformUnits config max) (compileEach config max before s).2).2.errors =
      [] := (sound_of.mp (sound_compileEach after) _).1 none
  exact ⟨(first stocked ((sound_of.mp f.sound_units _).1 rest)).stocked, rest⟩

theorem Module.session_of_compile {m out : Module} {ws : List EmptyWait}
    (ok : m.compile config = .ok (out, ws)) :
    (compileEach config m.lastId m.functions (.new config m.lastId)).2.errors = [] ∧
      out = { m with functions :=
        (compileEach config m.lastId m.functions (.new config m.lastId)).1 } := by
  change Session.finish (compileEach config m.lastId m.functions (.new config m.lastId)).2
    ({ m with functions := (compileEach config m.lastId m.functions (.new config m.lastId)).1 }) =
      _ at ok
  unfold Session.finish at ok
  split at ok
  · rename_i empty
    cases ok
    exact ⟨List.isEmpty_iff.mp empty, rfl⟩
  · cases ok

/-- What a function is compiled to without an error. -/
theorem Func.rewrite_of_errors {f : Func} {s : Session}
    (none : (f.rewrite (.transformUnits config max) s).2.errors = []) :
    let r := compileEach config max f.nested { s with depth := s.depth + 1 }
    r.2.errors = [] ∧ f.rewrite (.transformUnits config max) s =
      Func.transform config max { f with body := f.body.place r.1 } { r.2 with depth := s.depth } := by
  rw [rewrite_eq] at none ⊢
  split at none
  · exact absurd none (fail_errors _ _)
  · rename_i room
    rw [if_neg room]
    have noneInside := (transform_cases config max _ _).1 none
    exact ⟨noneInside, rfl⟩

theorem Func.mem_allNodes_of_nested {f g : Func} (hg : g ∈ f.nested) : .func g ∈ f.allNodes := by
  obtain ⟨n, hn, hg⟩ := List.mem_flatMap.mp hg
  have self : .func g ∈ g.nodes fun _ => true := by
    rw [← Func.allNodes, g.allNodes_eq]
    exact List.mem_cons_self
  exact f.mem_allNodes_of_body (Block.mem_nodes_of_inside hn hg self)

/-- Whatever function a session comes to that ends without an error: it is one of the module's, and
it is compiled without an error, on a supply as it should be. -/
theorem Module.Visits.went {m : Module}
    (none : (compileEach config m.lastId m.functions (.new config m.lastId)).2.errors = [])
    {s : Session} {f : Func} (h : m.Visits config s f) :
    .func f ∈ m.allNodes ∧ s.Stocked config m.lastId ∧
      (f.rewrite (.transformUnits config m.lastId) s).2.errors = [] := by
  induction h with
  | @top before after f listed =>
    rw [listed] at none
    refine ⟨List.mem_flatMap.mpr ⟨f, ?_, ?_⟩, compileEach_split (stocked_new config _) none⟩
    · rw [listed]
      simp
    · rw [f.allNodes_eq]
      exact List.mem_cons_self
  | @inside s before after f g visited listed ih =>
    obtain ⟨mem, stocked, none⟩ := ih
    obtain ⟨none, -⟩ := Func.rewrite_of_errors none
    rw [listed] at none
    refine ⟨(m.whole _ mem).subset (Func.mem_allNodes_of_nested ?_),
      compileEach_split stocked.deeper none⟩
    rw [listed]
    simp

/-- **Units that do not wait are left alone**, in a module that compiles. A unit without a
wait-block of its own stays as it is but for the functions inside, which are compiled; if those have
none either, nothing changes at all. Whatever old function is right inside a unit, be it in
routines made up for it, is one that was compiled inside it, as it was compiled. -/
theorem Module.units_of_compile {m out : Module} {ws : List EmptyWait}
    (ok : m.compile config = .ok (out, ws)) :
    out = { m with functions :=
        (compileEach config m.lastId m.functions (.new config m.lastId)).1 } ∧
      ∀ s f, m.Visits config s f →
        let inside := (compileEach config m.lastId f.nested { s with depth := s.depth + 1 }).1
        let g := (f.rewrite (.transformUnits config m.lastId) s).1
        (¬ (Node.block f.body).Waits → g = { f with body := f.body.place inside }) ∧
          (QuietThroughout f.allNodes → g = f) ∧
          ∀ n ∈ g.unitNodes m.lastId, ∀ h ∈ n.functions, h.id ≤ m.lastId → h ∈ inside := by
  obtain ⟨none, result⟩ := session_of_compile ok
  refine ⟨result, fun s f visited => ?_⟩
  obtain ⟨mem, stocked, none⟩ := visited.went none
  obtain ⟨noneInside, unit⟩ := Func.rewrite_of_errors none
  refine ⟨fun quiet => ?own, fun quiet => ?throughout, ?kept⟩
  case own =>
    rw [unit]
    refine Func.transform_quiet (fun waits => quiet ?_) _
    have same : (Node.block (f.body.rewrite (.transformUnits config m.lastId)
        { s with depth := s.depth + 1 }).1).Waits → _ := (f.body.waits_rewrite _).1
    rw [Block.rewrite_units] at same
    exact same waits
  case throughout => exact ((Func.whole (quiet_cases config m.lastId) f quiet s trivial).2).symm
  case kept =>
    obtain ⟨stocked, -, -, -, ids⟩ := (sound_of.mp (sound_compileEach f.nested) _).2
      stocked.deeper noneInside
    rw [unit] at none ⊢
    generalize given : compileEach config m.lastId f.nested { s with depth := s.depth + 1 } = r at *
    obtain ⟨-, -, -, -, kept⟩ := (sound_of.mp (Func.keeps_transform r.1 _) _).2 stocked.deeper none
    refine Func.keeps_unit (kept (Carries.only_iff.mpr fun n hn k hk => ?_))
    have isGiven : k ∈ r.1 := by
      have nested : (f.body.place r.1).nested = r.1 := by
        rw [← given]
        exact f.body.nested_place_units _
      rw [← nested]
      exact List.mem_flatMap.mpr ⟨n, hn, hk⟩
    obtain ⟨k₀, hk₀, same⟩ := exists_left_of_forall₂ ids isGiven
    have old : k.id ≤ m.lastId := by
      rw [same]
      exact m.le_lastId (List.mem_filterMap.mpr ⟨.func k₀,
        (m.whole _ mem).subset (Func.mem_allNodes_of_nested hk₀), rfl⟩)
    exact ⟨fun _ => isGiven, fun isNew => absurd isNew (Nat.not_lt.mpr old)⟩

end

/-- A function that does not wait, with one inside that does. -/
def Func.aroundWait : Func :=
  let name (n : String) : Ident := ⟨n, default⟩
  let call : Expr := .call (.ident (name "a")) [.defer [] default] default
  let wait : Statement := ⟨5, .wait ⟨6, [⟨7, .expr call, default⟩], default⟩, default⟩
  let inner : Func := ⟨3, some (name "g"), [], ⟨4, [wait], default⟩, default⟩
  ⟨0, some (name "f"), [], ⟨1, [⟨2, .func inner, default⟩], default⟩, default⟩

/-- The outer function is the same with the inner one compiled. -/
theorem Module.units_of_compile_aroundWait : ∃ out ws,
    Module.compile {} ⟨[.aroundWait], default⟩ = .ok (out, ws) ∧
      out.functions = [{ Func.aroundWait with
        body := Func.aroundWait.body.place
          (compileEach {} 7 Func.aroundWait.nested { Session.new {} 7 with depth := 1 }).1 }] := by
  have ran : (match Module.compile {} ⟨[.aroundWait], default⟩ with
      | .ok _ => true
      | .error _ => false) = true := by decide +kernel
  have quiet : ¬ (Node.block Func.aroundWait.body).Waits := by
    have own : Func.aroundWait.body.ownNodes.all (fun n => !n.isWait) = true := by decide
    rintro ⟨w, hw, isWait⟩
    simpa [isWait] using List.all_eq_true.mp own w hw
  cases ok : Module.compile {} ⟨[.aroundWait], default⟩ with
  | error errors =>
    rw [ok] at ran
    cases ran
  | ok r =>
    obtain ⟨result, units⟩ := Module.units_of_compile ok
    have alone := (units _ .aroundWait (@Visits.top _ _ [] [] _ rfl)).1 quiet
    refine ⟨r.1, r.2, rfl, ?_⟩
    rw [result]
    exact congrArg (fun g => [g]) alone

end WaitDefer
