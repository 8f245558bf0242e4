import WaitDefer.Proofs.Compile.Weighed
import WaitDefer.Proofs.Rotation.Continuations

/-!
# Distinct ids

Every node that is made up gets a fresh id. But what runs after a wait-block is copied to every
place where the block may end, and a function among it is copied with its ids:

* `Module.DistinctButCopies`: the ids of a module are distinct, but for copies of continuations;
* `Module.distinct_of_compile`: this of compiled code;
* `twoEnds_repeats_ids`: there may be such copies.
-/

namespace WaitDefer

open Build Rotation

/-- The ids of a module, without those inside of continuations. -/
def Module.idsOutside (max : NodeId) (m : Module) : List NodeId :=
  (m.functions.flatMap (Func.nodes fun f => !f.isContinuation max)).filterMap Node.id?

/-- The ids of a module are distinct, but for copies of continuations. -/
structure Module.DistinctButCopies (max : NodeId) (m : Module) : Prop where
  outside : (m.idsOutside max).Nodup
  /-- The ids of a continuation are distinct, with those of the continuations inside of it. -/
  inside : ∀ g ∈ continuations max m.allNodes, g.ids.Nodup
  apart : ∀ g ∈ continuations max m.allNodes, ∀ i ∈ g.ids, i ∉ m.idsOutside max
  /-- Continuations that share an id of their own code are copies of each other. -/
  copies : ∀ g ∈ continuations max m.allNodes, ∀ h ∈ continuations max m.allNodes,
    ∀ i ∈ g.unitIds, i ∈ h.unitIds → g = h
  /-- If none is copied, all ids are distinct. -/
  once : (continuations max m.allNodes).Nodup → m.ids.Nodup

/-! ## Ids as weights -/

namespace Weighing

/-- Every node counts for its id; continuations are not entered. -/
def ids (max : NodeId) : Weighing NodeId where
  enter i name params := !(decide (max < i) && name.isNone && params.isEmpty)
  func i _ _ := {i}
  block i := {i}
  statement i _ _ _ := {i}
  binding _ := 0

variable {max : NodeId}

theorem bagOf_ids (max : NodeId) (ns : List Node) : bagOf (ids max).node ns = ↑(ns.filterMap Node.id?) := by
  induction ns with
  | nil => rfl
  | cons n ns ih =>
    rw [bagOf_cons, ih]
    cases n with
    | expr e =>
      have : bagOf (ids max).binding e.bound = 0 := bagOf_eq_zero fun _ _ => rfl
      simp only [node, this, zero_add, List.filterMap_cons, Node.id?]
    | ident x => simp only [node, zero_add, List.filterMap_cons, Node.id?]
    | _ => rfl

theorem ids_ofModule (m : Module) : (ids max).ofModule m = ↑(m.idsOutside max) := by
  rw [Module.idsOutside, ← bagOf_ids max, bagOf_flatMap]
  rfl

theorem ids_ofModule_le (m : Module) : (ids max).ofModule m ≤ ↑m.ids := by
  rw [Module.ids, Module.allNodes, ← bagOf_ids max, bagOf_flatMap]
  exact bagOf_le fun f _ => Func.whole (ids max).le_everywhere f

theorem charges_ids (reserved : String) :
    (ids max).Charges reserved (max < ·) (fun i => {i}) fun _ => 0 where
  block _ := le_refl _
  statement _ := le_refl _
  assignment _ _ := Multiset.le_add_right _ _
  callback _ _ _ := le_refl _
  routine _ _ _ _ := Multiset.le_add_right _ _
  counter _ _ _ := Multiset.le_add_right _ _
  continuation i j body span new _ := by
    have outside : (ids max).enters ⟨i, none, [], ⟨j, body, span⟩, span⟩ = false := by
      simpa [enters, ids] using new
    simp [expr_eq, Expr.bound, Expr.operands, Expr.functions, func_eq, outside]

theorem hoists_ids (P : Ident → Prop) : (ids max).Hoists (fun i => {i}) P :=
  ⟨fun _ _ _ => le_refl _, fun _ _ _ => le_refl _⟩

theorem ids_enters (f : Func) : (ids max).enters f = !f.isContinuation max := rfl

end Weighing

/-! ## What is inside and outside -/

theorem unitIdsOf_bagOf {α : Type} (h : α → Multiset Func) (as : List α) :
    unitIdsOf (bagOf h as) = bagOf (fun a => unitIdsOf (h a)) as := by
  induction as with
  | nil => exact unitIdsOf_zero
  | cons a as ih => rw [bagOf_cons, bagOf_cons, unitIdsOf_add, ih]

theorem bagOf_eq_add {α β : Type} {f g h : α → Multiset β} {as : List α}
    (each : ∀ a ∈ as, f a = g a + h a) : bagOf f as = bagOf g as + bagOf h as := by
  induction as with
  | nil => rfl
  | cons a as ih =>
    rw [bagOf_cons, bagOf_cons, bagOf_cons, each a List.mem_cons_self,
      ih fun b hb => each b (List.mem_cons_of_mem _ hb)]
    abel

/-- All ids of a part are those outside of continuations, and those of its continuations. -/
def Node.SplitsIds (max : NodeId) (n : Node) : Prop :=
  (∀ g ∈ continuations max n.allNodes, Linked max g.allNodes) →
    (Weighing.ids max).everywhere.ofPart n =
      (Weighing.ids max).ofPart n + unitIdsOf (continuations max n.allNodes)

section
variable {max : NodeId}

theorem Node.splitsIds_parts {ns : List Node} (each : ∀ n ∈ ns, n.SplitsIds max)
    (linked : ∀ g ∈ bagOf (fun n => continuations max n.allNodes) ns, Linked max g.allNodes) :
    bagOf (Weighing.ids max).everywhere.ofPart ns = bagOf (Weighing.ids max).ofPart ns +
      unitIdsOf (bagOf (fun n => continuations max n.allNodes) ns) := by
  rw [unitIdsOf_bagOf]
  exact bagOf_eq_add fun n hn => each n hn fun g hg => linked g (mem_bagOf.mpr ⟨n, hn, hg⟩)

/-- A function is a continuation, all of whose ids are ids of continuations, or its ids are its own
and those of its body. -/
theorem Func.splitsIds {f : Func} (body : (Node.block f.body).SplitsIds max) :
    (Node.func f).SplitsIds max := by
  intro linked
  change (Weighing.ids max).everywhere.ofFunc f =
    (Weighing.ids max).ofFunc f + unitIdsOf (continuations max f.allNodes)
  cases known : f.isContinuation max with
  | true =>
    have self : f ∈ continuations max f.allNodes := by
      refine mem_continuations.mpr ⟨?_, known⟩
      rw [f.allNodes_eq]
      exact List.mem_cons_self
    have outside : (Weighing.ids max).ofFunc f = 0 := by
      rw [Weighing.func_eq, Weighing.ids_enters, known]
      rfl
    rw [outside, zero_add, ← (linked f self).ids]
    exact Weighing.bagOf_ids max f.allNodes
  | false =>
    have none : (Node.func f).continuation? max = none := by simp [Node.continuation?, known]
    have same := f.continuations_eq max
    rw [none, Option.toList_none, Multiset.coe_nil, zero_add] at same
    rw [Node.allNodes, same] at linked
    have inBody := body linked
    have outside : (Weighing.ids max).ofFunc f = {f.id} + (Weighing.ids max).ofBlock f.body := by
      rw [Weighing.func_eq, Weighing.ids_enters, known]
      rfl
    have all : (Weighing.ids max).everywhere.ofFunc f =
        {f.id} + (Weighing.ids max).everywhere.ofBlock f.body := Weighing.func_eq _ f
    rw [all, outside, same, add_assoc]
    exact congrArg _ inBody

theorem splitsIds_cases (max : NodeId) : Cases (fun e => (Node.expr e).SplitsIds max)
    (fun f => (Node.func f).SplitsIds max) (fun b => (Node.block b).SplitsIds max)
    fun s => (Node.statement s).SplitsIds max where
  expr e operands functions linked := by
    have parts : ∀ n ∈ e.components, n.SplitsIds max := by
      intro n hn
      rcases List.mem_append.mp hn with hn | hn
      · obtain ⟨o, ho, rfl⟩ := List.mem_map.mp hn
        exact operands o ho
      · obtain ⟨f, hf, rfl⟩ := List.mem_map.mp hn
        exact functions f hf
    rw [Node.allNodes, e.continuations_eq] at linked ⊢
    change (Weighing.ids max).everywhere.ofExpr e = (Weighing.ids max).ofExpr e + _
    rw [Weighing.expr_components, Weighing.expr_components, Node.splitsIds_parts parts linked,
      add_assoc]
    rfl
  func f body := f.splitsIds body
  block b statements linked := by
    rw [Node.allNodes, b.continuations_eq] at linked ⊢
    have each : ∀ s ∈ b.statements, (Weighing.ids max).everywhere.ofStatement s =
        (Weighing.ids max).ofStatement s + unitIdsOf (continuations max (s.nodes fun _ => true)) :=
      fun s hs => statements s hs fun g hg => linked g (mem_bagOf.mpr ⟨s, hs, hg⟩)
    change (Weighing.ids max).everywhere.ofBlock b = (Weighing.ids max).ofBlock b + _
    rw [Weighing.block_eq, Weighing.block_eq, unitIdsOf_bagOf, add_assoc, bagOf_eq_add each]
    rfl
  statement s exprs headers blocks functions linked := by
    have parts : ∀ n ∈ s.kind.components, n.SplitsIds max := by
      intro n hn
      have sorted := s.kind.components_perm.mem_iff.mp hn
      simp only [List.mem_append, List.mem_map] at sorted
      rcases sorted with ((⟨e, he, rfl⟩ | ⟨h, hh, rfl⟩) | ⟨b, hb, rfl⟩) | ⟨f, hf, rfl⟩
      · exact exprs e (List.mem_append.mpr he)
      · exact headers h hh
      · exact blocks b hb
      · exact functions f hf
    rw [Node.allNodes, s.continuations_eq] at linked ⊢
    change (Weighing.ids max).everywhere.ofStatement s = (Weighing.ids max).ofStatement s + _
    rw [Weighing.statement_eq, Weighing.statement_eq, Weighing.ofKind_components,
      Weighing.ofKind_components, Node.splitsIds_parts parts linked, add_assoc]
    rfl

/-- **All ids of a module are those outside of continuations, and those of its continuations.** -/
theorem Module.ids_eq {m : Module}
    (linked : ∀ g ∈ continuations max m.allNodes, Linked max g.allNodes) :
    (↑m.ids : Multiset NodeId) =
      ↑(m.idsOutside max) + unitIdsOf (continuations max m.allNodes) := by
  rw [allNodes, continuations_flatMap] at linked ⊢
  rw [← Weighing.ids_ofModule, ids, allNodes, ← Weighing.bagOf_ids max, bagOf_flatMap,
    unitIdsOf_bagOf]
  exact bagOf_eq_add fun f hf => Func.whole (splitsIds_cases max) f fun g hg =>
    linked g (mem_bagOf.mpr ⟨f, hf, hg⟩)

end

/-! ## A session -/

/-- Code that weighs `before` was made into code that weighs `after` and has continuations `gs`. The
ids used pay for this, if copies of a continuation are counted once. -/
def Accounts (max : NodeId) (used before after : Multiset NodeId) (gs : Multiset Func) : Prop :=
  ∃ made, gs ⊆ made ∧ after + unitIdsOf made ≤ before + used ∧ ∀ g ∈ made, Linked max g.allNodes

section
variable {max : NodeId} {used more before before' after after' : Multiset NodeId}
  {gs hs : Multiset Func}

theorem Accounts.nothing : Accounts max 0 after after 0 :=
  ⟨0, Multiset.Subset.refl _, by simp, by simp⟩

theorem Accounts.add (h : Accounts max used before after gs)
    (h' : Accounts max more before' after' hs) :
    Accounts max (used + more) (before + before') (after + after') (gs + hs) := by
  obtain ⟨made, sub, weight, linked⟩ := h
  obtain ⟨made', sub', weight', linked'⟩ := h'
  refine ⟨made + made', fun g hg => ?_, ?_, fun g hg => ?_⟩
  · exact Multiset.mem_add.mpr ((Multiset.mem_add.mp hg).imp (fun h => sub h) fun h => sub' h)
  · rw [unitIdsOf_add]
    calc after + after' + (unitIdsOf made + unitIdsOf made')
        = after + unitIdsOf made + (after' + unitIdsOf made') := by abel
      _ ≤ before + used + (before' + more) := add_le_add weight weight'
      _ = before + before' + (used + more) := by abel
  · exact (Multiset.mem_add.mp hg).elim (linked g) (linked' g)

/-- What stays beside the code pays for itself. -/
theorem Accounts.beside (own : Multiset NodeId) (h : Accounts max used before after gs) :
    Accounts max used (own + before) (own + after) gs := by
  have stays : Accounts max 0 own own 0 := .nothing
  have both := stays.add h
  rwa [zero_add, zero_add] at both

/-- This of a part of the code. -/
def Node.Paid (max : NodeId) (used : Multiset NodeId) (n n' : Node) : Prop :=
  Accounts max used ((Weighing.ids max).ofPart n) ((Weighing.ids max).ofPart n')
    (continuations max n'.allNodes)

theorem accounts_of_tallied {ps ps' : List Node}
    (h : Tallied (fun m e e' => (Node.expr e).Paid max m (.expr e'))
      (fun m s s' => (Node.statement s).Paid max m (.statement s'))
      (fun m b b' => (Node.block b).Paid max m (.block b'))
      (fun m f f' => (Node.func f).Paid max m (.func f')) used ps ps') :
    Accounts max used (bagOf (Weighing.ids max).ofPart ps) (bagOf (Weighing.ids max).ofPart ps')
      (bagOf (fun n => continuations max n.allNodes) ps') := by
  induction h with
  | nil => exact .nothing
  | expr first _ ih | statement first _ ih | block first _ ih | func first _ ih => exact first.add ih

open Session

variable {config : Config}

/-- A session that is charged for the ids it uses. -/
abbrev Session.drawing (config : Config) (max : NodeId) : Spending Session NodeId :=
  spending config max (fun i => {i}) fun _ => 0

/-- All functions among some nodes were there before. -/
def Old (max : NodeId) (ns : List Node) : Prop := ∀ g, .func g ∈ ns → g.id ≤ max

theorem Func.not_isContinuation {f : Func} (old : f.id ≤ max) : f.isContinuation max = false := by
  simp [isContinuation, Nat.not_lt.mpr old]

/-- A function that was there before counts for its id and its body. -/
theorem Func.accounts {f g : Func} (old : f.id ≤ max) (same : g.id = f.id)
    (body : Accounts max used before ((Weighing.ids max).ofBlock g.body)
      (continuations max (g.body.nodes fun _ => true))) :
    Accounts max used ({f.id} + before) ((Weighing.ids max).ofFunc g)
      (continuations max g.allNodes) := by
  have outside : g.isContinuation max = false := not_isContinuation (same ▸ old)
  have none : (Node.func g).continuation? max = none := by simp [Node.continuation?, outside]
  have weight : (Weighing.ids max).ofFunc g = {f.id} + (Weighing.ids max).ofBlock g.body := by
    rw [Weighing.func_eq, Weighing.ids_enters, outside, ← same]
    rfl
  rw [weight, g.continuations_eq max, none, Option.toList_none, Multiset.coe_nil, zero_add]
  exact body.beside _

/-- What a session makes of a unit is paid for, if what it made of the units inside is. -/
theorem Func.accounts_transform {f : Func} (old : f.id ≤ max) :
    (drawing config max).Of (f.transform config max) fun more g => ∀ used before,
      Accounts max used before ((Weighing.ids max).ofBlock f.body)
          (continuations max (f.body.nodes fun _ => true)) →
        Accounts max (used + more) ({f.id} + before) ((Weighing.ids max).ofFunc g)
          (continuations max g.allNodes) := by
  refine makes_transform (fun _ _ _ used before inside => ?_) ?_
  · rw [add_zero]
    exact accounts old rfl inside
  · rintro marking ds out given rest names made ok declares turned isNew - used before
      ⟨there, sub, weight, linked⟩
    refine accounts old rfl ⟨there + made, ?_, ?_, fun g hg => ?_⟩
    · refine continuations_lower (fun g hg => Multiset.mem_add.mpr (.inl (sub hg)))
        (fun g hg => Multiset.mem_add.mpr (.inr hg)) declares turned isNew
    · have lowered := weighs_body (Weighing.charges_ids config.reservedPrefix)
        (Weighing.hoists_ids fun _ => True) (fun _ _ _ _ => trivial) declares turned isNew
      have taken (is : Multiset NodeId) : (is.bind fun i => ({i} : Multiset NodeId)) = is := by
        rw [Multiset.bind_singleton, Multiset.map_id']
      have free : (names.bind fun _ => (0 : Multiset NodeId)) = 0 := by simp
      rw [taken, taken, free, add_zero] at lowered
      rw [taken, free, add_zero, unitIdsOf_add]
      calc _ = (Weighing.ids max).ofBlock { f.body with statements := out } + unitIdsOf made +
              unitIdsOf there := by abel
        _ ≤ (Weighing.ids max).ofBlock f.body + (given + rest) + unitIdsOf there :=
          add_le_add_left lowered _
        _ = (Weighing.ids max).ofBlock f.body + unitIdsOf there + (given + rest) := by abel
        _ ≤ before + used + (given + rest) := add_le_add_left weight _
        _ = _ := add_assoc _ _ _
    · exact (Multiset.mem_add.mp hg).elim (linked g)
        (turned.linked isNew (by simp [Weaving.goesOn]) g)

/-- What a session makes of a function that was there before is paid for, if what it makes of the
body is. -/
theorem Func.accounts_rewrite {f : Func} (old : f.id ≤ max)
    (body : (drawing config max).Of (f.body.rewrite (.transformUnits config max)) fun used b' =>
      (Node.block f.body).Paid max used (.block b')) :
    (drawing config max).Of (f.rewrite (.transformUnits config max)) fun used g =>
      (Node.func f).Paid max used (.func g) := by
  have weight : (Weighing.ids max).ofFunc f = {f.id} + (Weighing.ids max).ofBlock f.body := by
    rw [Weighing.func_eq, Weighing.ids_enters, not_isContinuation old]
    rfl
  refine spending_of.mpr fun s => ?_
  rw [Func.rewrite_transformUnits]
  split
  · exact ⟨fun none => absurd none (fail_errors _ _), fun _ none => absurd none (fail_errors _ _)⟩
  · refine Spending.bind _ (spending_deeper body) (fun b => Spending.weaken _
      (Func.accounts_transform (f := { f with body := b }) old) ?_) s
    intro more g accounts used inside
    have whole : Accounts max (used + more) ((Weighing.ids max).ofFunc f)
        ((Weighing.ids max).ofFunc g) (continuations max g.allNodes) :=
      weight ▸ accounts used _ inside
    exact whole

/-- What a session makes of code is paid for, if all functions inside were there before. -/
theorem Func.accounts_units (config : Config) (max : NodeId) :
    let T := drawing config max
    let r := Rewriting.transformUnits config max
    Cases (fun e => Old max (e.nodes fun _ => true) → T.Of (e.rewrite r) fun used e' =>
        (Node.expr e).Paid max used (.expr e'))
      (fun f => Old max f.allNodes → T.Of (f.rewrite r) fun used g =>
        (Node.func f).Paid max used (.func g))
      (fun b => Old max (b.nodes fun _ => true) → T.Of (b.rewrite r) fun used b' =>
        (Node.block b).Paid max used (.block b'))
      fun s => Old max (s.nodes fun _ => true) → T.Of (s.rewrite r) fun used s' =>
        (Node.statement s).Paid max used (.statement s') where
  expr e operands functions old := by
    have parts := Expr.tally_rewrite (drawing config max).tally (.transformUnits config max)
      (.transformUnits config max)
      (E := fun _ m e e' => (Node.expr e).Paid max m (.expr e'))
      (S := fun _ m s s' => (Node.statement s).Paid max m (.statement s'))
      (B := fun _ m b b' => (Node.block b).Paid max m (.block b'))
      (F := fun _ m f f' => (Node.func f).Paid max m (.func f')) (fun _ => rfl) (fun _ => rfl)
      (fun o ho => operands o ho fun g hg => old g (Expr.mem_nodes_of_operand ho hg))
      fun f hf => functions f hf fun g hg => old g (Expr.mem_nodes_of_function hf hg)
    refine Spending.weaken _ parts fun used e' ⟨congruent, parts⟩ => ?_
    change Accounts max used ((Weighing.ids max).ofExpr e) ((Weighing.ids max).ofExpr e')
      (continuations max (e'.nodes fun _ => true))
    rw [e'.continuations_eq, Weighing.expr_components, Weighing.expr_components, congruent.bound]
    exact (accounts_of_tallied parts).beside _
  func f body old := by
    refine accounts_rewrite (old f ?_) (body fun g hg => old g (f.mem_allNodes_of_body hg))
    rw [f.allNodes_eq]
    exact List.mem_cons_self
  block b statements old := by
    obtain ⟨id, ss, span⟩ := b
    have parts := Statement.tally_listRewrite (drawing config max).tally (.transformUnits config max)
      (.transformUnits config max)
      (E := fun _ m e e' => (Node.expr e).Paid max m (.expr e'))
      (S := fun _ m s s' => (Node.statement s).Paid max m (.statement s'))
      (B := fun _ m b b' => (Node.block b).Paid max m (.block b'))
      (F := fun _ m f f' => (Node.func f).Paid max m (.func f'))
      fun s hs => statements s hs fun g hg => old g (Block.mem_nodes_of_statement hs hg)
    refine Spending.andReturn _ parts fun used ss' ⟨_, parts⟩ => ?_
    have inside := accounts_of_tallied parts
    rw [bagOf_map, bagOf_map, bagOf_map] at inside
    change Accounts max used ((Weighing.ids max).ofBlock ⟨id, ss, span⟩)
      ((Weighing.ids max).ofBlock ⟨id, ss', span⟩)
      (continuations max (Block.nodes (fun _ => true) ⟨id, ss', span⟩))
    rw [Block.continuations_eq, Weighing.block_eq, Weighing.block_eq]
    exact inside.beside _
  statement s exprs headers blocks functions old := by
    obtain ⟨id, kind, span⟩ := s
    have parts := StatementKind.tally_rewrite (drawing config max).tally (.transformUnits config max)
      (.transformUnits config max)
      (E := fun _ m e e' => (Node.expr e).Paid max m (.expr e'))
      (S := fun _ m s s' => (Node.statement s).Paid max m (.statement s'))
      (B := fun _ m b b' => (Node.block b).Paid max m (.block b'))
      (F := fun _ m f f' => (Node.func f).Paid max m (.func f'))
      (fun e he => exprs e he fun g hg => old g (Statement.mem_nodes_of_expr he hg))
      (fun h hh => headers h hh fun g hg => old g (Statement.mem_nodes_of_header hh hg))
      (fun b hb => blocks b hb fun g hg => old g (Statement.mem_nodes_of_block hb hg))
      fun f hf => functions f hf fun g hg => old g (Statement.mem_nodes_of_function hf hg)
    refine Spending.andReturn _ parts fun used kind' ⟨_, parts⟩ => ?_
    change Accounts max used ((Weighing.ids max).ofStatement ⟨id, kind, span⟩)
      ((Weighing.ids max).ofStatement ⟨id, kind', span⟩)
      (continuations max (Statement.nodes (fun _ => true) ⟨id, kind', span⟩))
    rw [Statement.continuations_eq, Weighing.statement_eq, Weighing.statement_eq,
      Weighing.ofKind_components, Weighing.ofKind_components]
    exact (accounts_of_tallied parts).beside _

end

/-! ## Whole modules -/

/-- What compilation makes of a module is paid for with fresh ids. -/
theorem Module.accounts_of_compile {config : Config} {m out : Module} {ws : List EmptyWait}
    (ok : m.compile config = .ok (out, ws)) : ∃ ids : Multiset NodeId, ids.Nodup ∧
      (∀ i ∈ ids, m.lastId < i) ∧ Accounts m.lastId ids (↑(m.idsOutside m.lastId))
        (↑(out.idsOutside m.lastId)) (continuations m.lastId out.allNodes) := by
  let T := Session.drawing config m.lastId
  let r := Rewriting.transformUnits config m.lastId
  have old : Old m.lastId m.allNodes := fun g hg =>
    le_lastId (List.mem_filterMap.mpr ⟨.func g, hg, rfl⟩)
  have functions : ∀ fs : List Func, (∀ f ∈ fs, Old m.lastId f.allNodes) →
      T.Of (fs.mapM (Func.rewrite r)) fun used gs =>
        Accounts m.lastId used (bagOf (Weighing.ids m.lastId).ofFunc fs)
          (bagOf (Weighing.ids m.lastId).ofFunc gs)
          (bagOf (fun g => continuations m.lastId g.allNodes) gs) := by
    intro fs
    induction fs with
    | nil => exact fun _ => Spending.pure _ .nothing
    | cons f fs ih =>
      intro old
      rw [List.mapM_cons]
      refine Spending.bind _ (Func.whole (Func.accounts_units config m.lastId) f
        (old f List.mem_cons_self)) fun g =>
        Spending.bind _ (ih fun f hf => old f (List.mem_cons_of_mem _ hf)) fun gs =>
          Spending.pure _ fun more rest used first => ?_
      rw [add_zero, bagOf_cons, bagOf_cons, bagOf_cons]
      exact first.add rest
  obtain ⟨ids, names, last, nodup, new, -, accounts⟩ := made_of_compile
    (P := fun used (out : Module) => Accounts m.lastId used ((Weighing.ids m.lastId).ofModule m)
      ((Weighing.ids m.lastId).ofModule out) (continuations m.lastId out.allNodes))
    (Spending.andReturn T (functions m.functions fun f hf g hg =>
      old g (List.mem_flatMap.mpr ⟨f, hf, hg⟩)) fun used gs accounts => by
        rw [Module.allNodes, continuations_flatMap]
        exact accounts) ok
  have taken : (ids.bind fun i => ({i} : Multiset NodeId)) = ids := by
    rw [Multiset.bind_singleton, Multiset.map_id']
  have free : (names.bind fun _ => (0 : Multiset NodeId)) = 0 := by simp
  rw [taken, free, add_zero, Weighing.ids_ofModule, Weighing.ids_ofModule] at accounts
  exact ⟨ids, nodup, new, accounts⟩

/-- **The ids of compiled code are distinct, but for copies of continuations**: outside of them, in
each of them, and between those that are no copies of each other. So they are distinct if none is
copied. -/
theorem Module.distinct_of_compile {config : Config} {m out : Module} {ws : List EmptyWait}
    (distinct : m.ids.Nodup) (ok : m.compile config = .ok (out, ws)) :
    out.DistinctButCopies m.lastId := by
  obtain ⟨ids, nodup, new, made, sub, weight, linked⟩ := accounts_of_compile ok
  have together : ((m.ids : Multiset NodeId) + ids).Nodup := by
    rw [Multiset.nodup_add]
    refine ⟨Multiset.coe_nodup.mpr distinct, nodup, Multiset.disjoint_left.mpr ?_⟩
    intro i old taken
    exact absurd (new i taken) (Nat.not_lt.mpr (le_lastId (Multiset.mem_coe.mp old)))
  have all : ((out.idsOutside m.lastId : Multiset NodeId) + unitIdsOf made).Nodup := by
    refine Multiset.nodup_of_le (weight.trans (add_le_add_left ?_ ids)) together
    rw [← Weighing.ids_ofModule]
    exact Weighing.ids_ofModule_le m
  obtain ⟨outside, own, apart⟩ := Multiset.nodup_add.mp all
  -- distinct continuations were all made, each for ids of its own
  have fewer {gs : Multiset Func} (nodup : gs.Nodup) (sub : gs ⊆ made) :
      unitIdsOf gs ≤ unitIdsOf made := by
    obtain ⟨more, rfl⟩ := Multiset.le_iff_exists_add.mp ((Multiset.le_iff_subset nodup).mpr sub)
    rw [unitIdsOf_add]
    exact Multiset.le_add_right _ _
  have made_of_mem {g : Func} (hg : g ∈ continuations m.lastId out.allNodes) :
      (↑g.ids : Multiset NodeId) ≤ unitIdsOf made := by
    obtain ⟨ids, nodup⟩ := linked g (sub hg)
    have within : continuations m.lastId g.allNodes ≤ continuations m.lastId out.allNodes :=
      continuations_le _ (out.whole _ (mem_continuations.mp hg).1)
    rw [Func.ids, ids]
    exact fewer nodup fun h hh => sub (Multiset.mem_of_le within hh)
  refine ⟨Multiset.coe_nodup.mp outside, fun g hg => ?_, fun g hg i hi there => ?_,
    fun g hg h hh i hi hi' => ?_, fun nodup => ?_⟩
  · exact Multiset.coe_nodup.mp (Multiset.nodup_of_le (made_of_mem hg) own)
  · exact Multiset.disjoint_left.mp apart (Multiset.mem_coe.mpr there)
      (Multiset.mem_of_le (made_of_mem hg) (Multiset.mem_coe.mpr hi))
  · by_contra other
    have two : (g ::ₘ {h}).Nodup := by simpa using other
    have both := Multiset.nodup_of_le (fewer two (by
      intro k hk
      rcases Multiset.mem_cons.mp hk with rfl | hk
      · exact sub hg
      · rw [Multiset.mem_singleton.mp hk]
        exact sub hh)) own
    rw [← Multiset.singleton_add, unitIdsOf_add, unitIdsOf_singleton, unitIdsOf_singleton] at both
    exact Multiset.disjoint_left.mp (Multiset.nodup_add.mp both).2.2 (Multiset.mem_coe.mpr hi)
      (Multiset.mem_coe.mpr hi')
  · have ids := ids_eq fun g hg => linked g (sub hg)
    refine Multiset.coe_nodup.mp (ids ▸ Multiset.nodup_of_le (add_le_add_right ?_ _) all)
    exact fewer nodup sub

/-- A wait-block whose body may end in two places. -/
def twoEnds : Module :=
  let name (n : String) : Ident := ⟨n, default⟩
  let call : Expr := .call (.ident (name "a")) [.defer [] default] default
  let inner : Statement := ⟨6, .wait ⟨7, [⟨8, .expr call, default⟩], default⟩, default⟩
  let branch : Statement := ⟨4, .branch (.ident (name "c")) ⟨5, [inner], default⟩ none, default⟩
  let outer : Statement := ⟨2, .wait ⟨3, [branch], default⟩, default⟩
  ⟨[⟨0, some (name "f"), [name "c"], ⟨1, [outer], default⟩, default⟩], default⟩

theorem twoEnds_compiles : ∃ out ws, twoEnds.compile {} = .ok (out, ws) ∧ ¬ out.ids.Nodup ∧
    (continuations twoEnds.lastId out.allNodes).card = 3 := by
  have ran : (match twoEnds.compile {} with
      | .ok (out, _) => decide (¬ out.ids.Nodup ∧
          (continuations twoEnds.lastId out.allNodes).card = 3)
      | .error _ => false) = true := by decide +kernel
  cases ok : twoEnds.compile {} with
  | error errors =>
    rw [ok] at ran
    cases ran
  | ok r =>
    rw [ok] at ran
    exact ⟨r.1, r.2, rfl, of_decide_eq_true ran⟩

theorem distinct_of_compile_twoEnds : ∃ out ws, twoEnds.compile {} = .ok (out, ws) ∧
    (continuations twoEnds.lastId out.allNodes).card = 3 ∧
    out.DistinctButCopies twoEnds.lastId := by
  obtain ⟨out, ws, ok, -, three⟩ := twoEnds_compiles
  exact ⟨out, ws, ok, three, Module.distinct_of_compile (by decide) ok⟩

/-- The function that goes on after the outer wait-block is in the result twice. -/
theorem twoEnds_repeats_ids : twoEnds.ids.Nodup ∧
    ∃ out ws, twoEnds.compile {} = .ok (out, ws) ∧ ¬ out.ids.Nodup := by
  obtain ⟨out, ws, ok, repeats, -⟩ := twoEnds_compiles
  exact ⟨by decide, out, ws, ok, repeats⟩

end WaitDefer
