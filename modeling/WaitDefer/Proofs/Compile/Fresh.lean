import WaitDefer.Proofs.Compile.Independent
import WaitDefer.Proofs.Grammar.Laying

/-!
# Fresh ids

Ids that are made up are above all that were there before, up to the last id there is:

* `Spot.Largest`, `Func.largest_maxId`, `Module.maxId?_eq_some_iff`: the largest id of a tree;
* `IdSupply.HandsOutAbove`: a supply hands out every id above a largest one, then it says that it ran
  out;
* `Func.ids_units`: a function is compiled into one with ids it had and ids above;
* `Module.fresh_ids`: these together, and compiled modules.
-/

namespace WaitDefer

open Session

/-! ## The largest id -/

/-- The function itself and everything inside it. -/
def Func.Has (f : Func) (x : Spot) : Prop := x = .func f ∨ x.Within (.func f)

namespace Spot

/-- The largest id of some spots: one of them has it, and none has a larger one. -/
structure Largest (among : Spot → Prop) (i : NodeId) : Prop where
  attained : ∃ x, among x ∧ x.id? = some i
  bound : ∀ x, among x → ∀ j, x.id? = some j → j ≤ i

/-- The id is that of the spot or of something inside it. -/
def HoldsId (i : NodeId) (x : Spot) : Prop := ∃ y, (y = x ∨ y.Within x) ∧ y.id? = some i

variable {i : NodeId} {x y : Spot}

theorem HoldsId.of_inside (hy : y ∈ x.inside) (h : y.HoldsId i) : x.HoldsId i := by
  obtain ⟨z, same | deep, id⟩ := h
  · subst same
    exact ⟨z, .inr (.of_inside hy), id⟩
  · exact ⟨z, .inr (deep.trans (.of_inside hy)), id⟩

/-- An id of a spot is its own or one of its parts'. -/
theorem holdsId_of_parts (parts : ∀ y ∈ x.inside, i ∈ y.bag → y.HoldsId i) (h : i ∈ x.bag) :
    x.HoldsId i := by
  rw [bag_eq, Multiset.mem_add, mem_bagOf] at h
  rcases h with own | ⟨y, hy, h⟩
  · have id : x.id? = some i := by simpa using own
    exact ⟨x, .inl rfl, id⟩
  · exact (parts y hy h).of_inside hy

theorem holdsId_ident {name : Ident} (h : i ∈ (ident name).bag) : (ident name).HoldsId i :=
  holdsId_of_parts nofun h

end Spot

theorem Expr.of_mem_spots {e : Expr} {y : Spot} (h : y ∈ e.spots) :
    (∃ o ∈ e.operands, y = .expr o) ∨ (∃ f ∈ e.functions, y = .func f) ∨ ∃ name, y = .ident name := by
  cases e with
  | call callee arguments span =>
    rcases List.mem_cons.mp h with rfl | h
    · exact .inl ⟨callee, List.mem_cons_self, rfl⟩
    · obtain ⟨a, ha, rfl⟩ := List.mem_map.mp h
      exact .inl ⟨a, List.mem_cons_of_mem _ ha, rfl⟩
  | defer bindings span =>
    obtain ⟨name, -, rfl⟩ := List.mem_map.mp h
    exact .inr (.inr ⟨name, rfl⟩)
  | member object property span =>
    rcases List.mem_pair.mp h with rfl | rfl
    · exact .inl ⟨object, List.mem_cons_self, rfl⟩
    · exact .inr (.inr ⟨property, rfl⟩)
  | _ => simp_all [spots, operands, functions]

theorem StatementKind.of_mem_spots {k : StatementKind} {y : Spot} (h : y ∈ k.spots) :
    (∃ e ∈ k.tests ++ k.operands, y = .expr e) ∨ (∃ s ∈ k.headers, y = .statement s) ∨
      (∃ b ∈ k.blocks, y = .block b) ∨ (∃ f ∈ k.functions, y = .func f) ∨
      (∃ a : Arm, a.test ∈ k.tests ∧ a.body ∈ k.blocks ∧ y = .arm a) ∨
      ∃ name, y = .ident name := by
  cases k with
  | switch subject arms otherwise =>
    simp only [spots, List.mem_cons, List.mem_append, List.mem_map, Option.mem_toList] at h
    rcases h with rfl | ⟨a, ha, rfl⟩ | ⟨b, hb, rfl⟩
    · exact .inl ⟨subject, by simp [tests], rfl⟩
    · have test : a.test ∈ (StatementKind.switch subject arms otherwise).tests :=
        List.mem_cons_of_mem _ (List.mem_map_of_mem ha)
      have body : a.body ∈ (StatementKind.switch subject arms otherwise).blocks :=
        List.mem_append_left _ (List.mem_map_of_mem ha)
      exact .inr (.inr (.inr (.inr (.inl ⟨a, test, body, rfl⟩))))
    · have last : b ∈ (StatementKind.switch subject arms otherwise).blocks :=
        List.mem_append_right _ (Option.mem_toList.mpr hb)
      exact .inr (.inr (.inl ⟨b, last, rfl⟩))
  | loop label head body =>
    cases head <;>
      simp [spots, LoopHead.spots, tests, operands, headers, blocks, LoopHead.test?,
        LoopHead.statements] at h ⊢ <;>
      grind
  | _ =>
    simp [spots, tests, operands, headers, blocks, functions] at h ⊢
    grind

theorem holdsId_cases (i : NodeId) :
    Cases (fun e => i ∈ (Spot.expr e).bag → (Spot.expr e).HoldsId i)
      (fun f => i ∈ (Spot.func f).bag → (Spot.func f).HoldsId i)
      (fun b => i ∈ (Spot.block b).bag → (Spot.block b).HoldsId i)
      fun s => i ∈ (Spot.statement s).bag → (Spot.statement s).HoldsId i where
  expr e operands functions := by
    apply Spot.holdsId_of_parts
    intro y hy
    rcases e.of_mem_spots hy with ⟨o, ho, rfl⟩ | ⟨f, hf, rfl⟩ | ⟨name, rfl⟩
    · exact operands o ho
    · exact functions f hf
    · exact Spot.holdsId_ident
  func f body := by
    apply Spot.holdsId_of_parts
    intro y hy
    simp only [Spot.inside, List.mem_append, List.mem_map, List.mem_singleton] at hy
    rcases hy with (⟨name, -, rfl⟩ | ⟨name, -, rfl⟩) | rfl
    · exact Spot.holdsId_ident
    · exact Spot.holdsId_ident
    · exact body
  block b statements := by
    apply Spot.holdsId_of_parts
    intro y hy
    obtain ⟨s, hs, rfl⟩ := List.mem_map.mp hy
    exact statements s hs
  statement s exprs headers blocks functions := by
    apply Spot.holdsId_of_parts
    intro y hy
    have test {e : Expr} (he : e ∈ s.kind.tests) : e ∈ s.kind.tests ++ s.kind.operands :=
      List.mem_append_left _ he
    rcases StatementKind.of_mem_spots hy with ⟨e, he, rfl⟩ | ⟨h, hh, rfl⟩ | ⟨b, hb, rfl⟩ |
      ⟨f, hf, rfl⟩ | ⟨a, ht, hb, rfl⟩ | ⟨name, rfl⟩
    · exact exprs e he
    · exact headers h hh
    · exact blocks b hb
    · exact functions f hf
    · apply Spot.holdsId_of_parts
      intro y hy
      rcases List.mem_pair.mp hy with rfl | rfl
      · exact exprs a.test (test ht)
      · exact blocks a.body hb
    · exact Spot.holdsId_ident

/-- **The ids of the walk are those of the spots.** -/
theorem Func.mem_ids_iff {f : Func} {i : NodeId} : i ∈ f.ids ↔ ∃ x, f.Has x ∧ x.id? = some i := by
  have bag : i ∈ f.ids ↔ i ∈ (Spot.func f).bag := Iff.rfl
  rw [bag]
  constructor
  · exact Func.whole (holdsId_cases i) f
  · rintro ⟨x, rfl | deep, id⟩
    · rw [Spot.bag_eq, id]
      simp
    · rw [Spot.bag_eq]
      exact Multiset.mem_add.mpr (.inr (Spot.mem_bag_of_within deep id))

theorem Module.mem_ids_iff {m : Module} {i : NodeId} :
    i ∈ m.ids ↔ ∃ x, m.Has x ∧ x.id? = some i := by
  have each : m.ids = m.functions.flatMap Func.ids := List.filterMap_flatMap
  rw [each, List.mem_flatMap]
  constructor
  · rintro ⟨f, hf, h⟩
    obtain ⟨x, hx, id⟩ := Func.mem_ids_iff.mp h
    exact ⟨x, ⟨f, hf, hx⟩, id⟩
  · rintro ⟨x, ⟨f, hf, hx⟩, id⟩
    exact ⟨f, hf, Func.mem_ids_iff.mpr ⟨x, hx, id⟩⟩

theorem Func.largest_maxId (f : Func) : Spot.Largest f.Has f.maxId := by
  constructor
  · exact mem_ids_iff.mp f.maxId_mem
  · intro x hx i id
    exact le_maxId (mem_ids_iff.mpr ⟨x, hx, id⟩)

theorem Module.maxId?_eq_some_iff {m : Module} {i : NodeId} :
    m.maxId? = some i ↔ Spot.Largest m.Has i := by
  rw [maxId?, List.max?_eq_some_iff]
  constructor
  · rintro ⟨mem, le⟩
    exact ⟨mem_ids_iff.mp mem, fun x hx j id => le j (mem_ids_iff.mpr ⟨x, hx, id⟩)⟩
  · rintro ⟨attained, bound⟩
    refine ⟨mem_ids_iff.mpr attained, fun j hj => ?_⟩
    obtain ⟨x, hx, id⟩ := mem_ids_iff.mp hj
    exact bound x hx j id

/-! ## The supply -/

namespace IdSupply

/-- The next `n` ids, and the supply after them. -/
def draws : Nat → IdSupply → List NodeId × IdSupply
  | 0, s => ([], s)
  | n + 1, s =>
    let r := s.draws n
    (r.1 ++ [r.2.fresh.1], r.2.fresh.2)

variable {max : Nat}

theorem above_eq_since (proper : max ≤ NodeId.last) : above max = since (max + 1) := by
  have enough : decide (¬ max + 1 ≤ NodeId.last + 1) = false := decide_eq_false (by omega)
  rw [since, enough]
  rfl

theorem draws_since (k n : Nat) : (since k).draws n = ((List.range' k n).map nth, since (k + n)) := by
  induction n with
  | zero => rfl
  | succ n ih =>
    rw [draws, ih, fresh_since, List.range'_concat, List.map_append, Nat.one_mul]
    rfl

/-- Above `max`, as many ids are handed out as there are, each once and in order, before the supply
says that it ran out. It does so when an id is asked for and none is left. -/
structure HandsOutAbove (max : Nat) : Prop where
  increasing : ∀ n, ((above max).draws n).2.exhausted = false →
    ((above max).draws n).1.Pairwise (· < ·)
  between : ∀ n, ((above max).draws n).2.exhausted = false →
    ∀ i : Nat, i ∈ ((above max).draws n).1 → max < i ∧ i ≤ NodeId.last
  exhausted_iff : ∀ n, ((above max).draws (n + 1)).2.exhausted = true ↔
    ∀ i : Nat, max < i → i ≤ NodeId.last → i ∈ ((above max).draws n).1

theorem exhausted_draws (proper : max ≤ NodeId.last) (n : Nat) :
    ((above max).draws n).2.exhausted = true ↔ ¬ max + n ≤ NodeId.last := by
  rw [above_eq_since proper, draws_since, since, decide_eq_true_iff]
  omega

/-- As long as there are ids, they come one after the other. -/
theorem draws_above {n : Nat} (room : max + n ≤ NodeId.last) :
    ((above max).draws n).1 = List.range' (max + 1) n := by
  rw [above_eq_since (by omega), draws_since]
  have all : ∀ i : Nat, i ∈ List.range' (max + 1) n → nth i = i := by
    intro i hi
    have inside := List.mem_range'_1.mp hi
    exact Nat.min_eq_left (by omega)
  exact (List.map_congr_left all).trans (List.map_id' _)

theorem handsOutAbove (proper : max ≤ NodeId.last) : HandsOutAbove max := by
  have room {n : Nat} (enough : ((above max).draws n).2.exhausted = false) :
      max + n ≤ NodeId.last := by
    have spent := exhausted_draws proper n
    rw [enough] at spent
    simpa using spent
  constructor
  · intro n enough
    rw [draws_above (room enough)]
    exact List.pairwise_lt_range'
  · intro n enough i hi
    have last := room enough
    rw [draws_above last] at hi
    have inside := List.mem_range'_1.mp hi
    omega
  · intro n
    rw [exhausted_draws proper]
    constructor
    · intro spent i new old
      -- the first ids are enough to have them all
      rw [above_eq_since proper, draws_since]
      exact List.mem_map.mpr ⟨i, List.mem_range'_1.mpr (by omega), Nat.min_eq_left old⟩
    · intro all
      by_contra enough
      have last : max + n ≤ NodeId.last := by omega
      have next : max + n + 1 ∈ ((above max).draws n).1 := all _ (by omega) (by omega)
      rw [draws_above last] at next
      have inside : max + n + 1 < max + 1 + n := (List.mem_range'_1.mp next).2
      omega

end IdSupply

/-! ## Compiled code -/

/-- Code that stays as it is, with ids of some kind. -/
def Variation.with (P : NodeId → Prop) : Variation where
  id i i' := i' = i ∧ P i
  declares x x' := x' = x
  refers x x' := x' = x

/-- All ids of code that varies from other code vary. -/
theorem Func.Variant.id_of_mem {v : Variation} {f f' : Func} (h : f.Variant v f') {i : NodeId}
    (hi : i ∈ f.ids) : ∃ i', v.id i i' := by
  let W : Comparison := {
    Of := fun l _ => ∀ n ∈ l, ∀ i, n.id? = some i → ∃ i', v.id i i'
    nil := by simp
    append := fun h h' n hn => (List.mem_append.mp hn).elim (h n) (h' n)
    ident := by simp [Node.id?] }
  have compares : ∀ F, v.Compares F W := fun F => {
    ident := by simp [W, Node.id?]
    expr := by simp [W, Node.id?]
    statement := fun h => by
      cases h with
      | declare span id | parts span id => simpa [W, Node.id?] using ⟨_, id⟩
    block := fun h => by
      cases h with
      | block span id => simpa [W, Node.id?] using ⟨_, id⟩ }
  have functions : ∀ {g g' : Func}, g.Variant v g' → W.Of [.func g] [.func g'] := by
    intro g g' h
    cases h with
    | func params span F inside id => simpa [W, Node.id?] using ⟨_, id⟩
  obtain ⟨n, hn, id⟩ := List.mem_filterMap.mp hi
  exact h.compares compares functions (fun _ => rfl) n hn i id

section
variable {config : Config} {old : NodeId → Prop} {max : NodeId}

theorem IdSupply.Promises.fresh {s : IdSupply} (h : s.Promises (max < ·)) :
    s.fresh.2.Promises (max < ·) ∧ (s.fresh.1 = NodeId.last ∨ max < s.fresh.1) := by
  obtain ⟨next, exhausted⟩ := s
  cases next with
  | none => exact ⟨nofun, .inl rfl⟩
  | some n =>
    constructor
    · intro k given i le
      change successor n = some k at given
      unfold successor at given
      split at given
      · cases given
        exact h n rfl i (Nat.le_of_succ_le le)
      · cases given
    · exact .inr (h n rfl n (Nat.le_refl n))

/-- One supply twice, with ids above the old ones. -/
def Lockstep.drawing (last : old NodeId.last ∨ max < NodeId.last) :
    Lockstep (.with fun i => old i ∨ max < i) where
  counts := False
  ids s s' := s' = s ∧ s.Promises (max < ·)
  names n n' := n' = n
  fresh := by
    rintro s s' ⟨rfl, promises⟩
    obtain ⟨later, drawn⟩ := promises.fresh
    refine .inr ⟨⟨rfl, later⟩, rfl, ?_⟩
    rcases drawn with ran | new
    · rwa [ran]
    · exact .inr new
  advance same := congrArg NameSupply.advance same
  made := by
    rintro n n' rfl stem -
    exact ⟨rfl, rfl⟩
  argument := by
    rintro n n' rfl index
    exact ⟨rfl, rfl⟩

theorem Lockstep.transforms_drawing (last : old NodeId.last ∨ max < NodeId.last) :
    (Variation.with old).Transforms (.with fun i => old i ∨ max < i) (drawing last) max max where
  le := ⟨fun ⟨same, given⟩ => ⟨same, .inl given⟩, fun same => same, fun same => same⟩
  declares same := ⟨same, same⟩
  given h := h.1
  varying h other := absurd h.1 other
  new h := h.1 ▸ Iff.rfl
  ends h := h.1 ▸ ⟨rfl, fun _ => rfl⟩

/-- Code whose ids are all of some kind. -/
theorem Func.variant_with {f : Func} (ids : ∀ i ∈ f.ids, old i) : f.Variant (.with old) f := by
  have renamed := Func.whole (Variation.variant_renamed (v := .with old) (g := fun x => x)) f {
    id := fun n hn i id => ⟨rfl, ids i (List.mem_filterMap.mpr ⟨n, hn, id⟩)⟩
    bound := fun _ _ _ _ => rfl
    refers := fun _ _ _ _ => rfl }
  rwa [f.renamed_id] at renamed

variable (config) in
/-- What a function comes to in a session has ids that it had and ids above. -/
theorem Func.ids_units {f : Func} (last : old NodeId.last ∨ max < NodeId.last)
    (given : ∀ i ∈ f.ids, old i) {s : Session} (promises : s.supply.ids.Promises (max < ·)) :
    let r := f.rewrite (.transformUnits config max) s
    r.2.supply.ids.Promises (max < ·) ∧ ∀ i ∈ r.1.ids, old i ∨ max < i := by
  have calls : (Variation.with fun i => old i ∨ max < i).refers config.runtime.newCounter
      config.runtime.newCounter := rfl
  have units := paired_units config [] [] (Lockstep.transforms_drawing last) calls
    (variant_with given) s s ⟨⟨⟨rfl, promises⟩, rfl⟩, rfl, rfl, rfl⟩
  rw [show config.calling config.runtime.newCounter = config from rfl] at units
  rcases units with spent | ⟨⟨⟨⟨-, promises⟩, -⟩, -⟩, same, -⟩
  · exact spent.1.elim
  · constructor
    · exact promises
    · intro i hi
      obtain ⟨-, -, kind⟩ := same.id_of_mem hi
      exact kind

/-- The same for functions one after the other. -/
theorem Session.ids_compileEach {fs : List Func} (last : old NodeId.last ∨ max < NodeId.last)
    (given : ∀ f ∈ fs, ∀ i ∈ f.ids, old i) {s : Session}
    (promises : s.supply.ids.Promises (max < ·)) :
    ∀ g ∈ (compileEach config max fs s).1, ∀ i ∈ g.ids, old i ∨ max < i := by
  induction fs generalizing s with
  | nil => exact nofun
  | cons f fs ih =>
    obtain ⟨first, given⟩ := List.forall_mem_cons.mp given
    obtain ⟨promises, ids⟩ := Func.ids_units config last first promises
    rw [compileEach_cons]
    exact List.forall_mem_cons.mpr ⟨ids, ih given promises⟩

end

/-! ## Modules -/

namespace Module

section
variable {config : Config} {m out : Module} {ws : List EmptyWait}

theorem maxId?_eq_none_iff : m.maxId? = none ↔ m.functions = [] := by
  rw [maxId?, List.max?_eq_none_iff]
  constructor
  · intro none
    by_contra some
    obtain ⟨f, hf⟩ := List.exists_mem_of_ne_nil _ some
    have own : f.id ∈ m.ids := mem_ids_iff.mpr ⟨.func f, ⟨f, hf, .inl rfl⟩, rfl⟩
    rw [none] at own
    cases own
  · intro none
    simp [ids, allNodes, none]

/-- The ids of a compiled module are those it had and ids above. -/
theorem ids_of_compile (proper : ∀ i ∈ m.ids, i ≤ NodeId.last)
    (ok : m.compile config = .ok (out, ws)) {i : NodeId} (hi : i ∈ out.ids) :
    i ∈ m.ids ∨ m.lastId < i := by
  obtain ⟨-, rfl⟩ := session_of_compile ok
  have last : NodeId.last ∈ m.ids ∨ m.lastId < NodeId.last := by
    unfold lastId
    cases largest : m.maxId? with
    | none => exact .inr (by decide)
    | some k =>
      have mem : k ∈ m.ids := (List.max?_eq_some_iff.mp largest).1
      rcases Nat.lt_or_eq_of_le (proper k mem) with below | same
      · exact .inr below
      · exact .inl (same ▸ mem)
  have each : ∀ m' : Module, m'.ids = m'.functions.flatMap Func.ids :=
    fun m' => List.filterMap_flatMap
  have given : ∀ f ∈ m.functions, ∀ j ∈ f.ids, j ∈ m.ids := by
    intro f hf j hj
    rw [each]
    exact List.mem_flatMap.mpr ⟨f, hf, hj⟩
  rw [each] at hi
  obtain ⟨g, hg, hi⟩ := List.mem_flatMap.mp hi
  exact ids_compileEach last given (IdSupply.promises_above m.lastId) g hg i hi

/-- While a module is compiled without an error, ids do not run out. -/
theorem enough_of_compile (ok : m.compile config = .ok (out, ws)) :
    (m.session config).supply.ids.exhausted = false := by
  obtain ⟨none, -⟩ := session_of_compile ok
  obtain ⟨-, went⟩ := sound_of.mp (sound_compileEach m.functions) (.new config m.lastId)
  exact (went (stocked_new config m.lastId) none).stocked.enough

end

/-- **Fresh ids are fresh, up to the last id there is.** The largest id of a function or a module is
that of something in it, and nothing in it has a larger one; a supply above it hands out the ids
there are, each once and in order, and says that it ran out when it is asked for one more; and if a
module compiles, ids did not run out and each that was not there before is above the largest. -/
theorem fresh_ids :
    (∀ f : Func, Spot.Largest f.Has f.maxId) ∧
    (∀ m : Module, m.functions = [] ∧ m.maxId? = none ∨
      ∃ i, m.maxId? = some i ∧ Spot.Largest m.Has i) ∧
    (∀ max ≤ NodeId.last, IdSupply.HandsOutAbove max) ∧
    ∀ (config : Config) (m out : Module) (ws : List EmptyWait), (∀ i ∈ m.ids, i ≤ NodeId.last) →
      m.compile config = .ok (out, ws) →
        (m.session config).supply.ids.exhausted = false ∧
        ∀ x, out.Has x → ∀ i, x.id? = some i →
          (∃ y, m.Has y ∧ y.id? = some i) ∨ ∃ last, m.maxId? = some last ∧ last < i := by
  refine ⟨Func.largest_maxId, fun m => ?_, fun max proper => IdSupply.handsOutAbove proper, ?_⟩
  · cases largest : m.maxId? with
    | none => exact .inl ⟨maxId?_eq_none_iff.mp largest, rfl⟩
    | some i => exact .inr ⟨i, rfl, maxId?_eq_some_iff.mp largest⟩
  · intro config m out ws proper ok
    constructor
    · exact enough_of_compile ok
    · intro x hx i id
      rcases ids_of_compile proper ok (mem_ids_iff.mpr ⟨x, hx, id⟩) with given | new
      · exact .inl (mem_ids_iff.mp given)
      · cases largest : m.maxId? with
        | none =>
          -- nothing is compiled
          obtain ⟨-, rfl⟩ := session_of_compile ok
          obtain ⟨f, hf, -⟩ := hx
          rw [maxId?_eq_none_iff.mp largest] at hf
          cases hf
        | some last =>
          rw [lastId, largest] at new
          exact .inr ⟨last, rfl, new⟩

/-- A wait-block whose body may end in two places, with just as many ids left as it takes. -/
def nearTheEnd : Module :=
  let name (n : String) : Ident := ⟨n, default⟩
  let first : NodeId := NodeId.last - 18
  let call : Expr := .call (.ident (name "a")) [.defer [] default] default
  let inner : Statement :=
    ⟨first + 6, .wait ⟨first + 7, [⟨first + 8, .expr call, default⟩], default⟩, default⟩
  let branch : Statement :=
    ⟨first + 4, .branch (.ident (name "c")) ⟨first + 5, [inner], default⟩ none, default⟩
  let outer : Statement := ⟨first + 2, .wait ⟨first + 3, [branch], default⟩, default⟩
  ⟨[⟨first, some (name "f"), [name "c"], ⟨first + 1, [outer], default⟩, default⟩], default⟩

/-- The last id there is comes to be used. -/
theorem fresh_ids_nearTheEnd : (∀ i ∈ nearTheEnd.ids, i ≤ NodeId.last) ∧
    ∃ out ws, nearTheEnd.compile {} = .ok (out, ws) ∧
      (nearTheEnd.session {}).supply.ids.exhausted = false ∧
      (∃ x, out.Has x ∧ x.id? = some NodeId.last) ∧
      ∀ x, out.Has x → ∀ i, x.id? = some i → (∃ y, nearTheEnd.Has y ∧ y.id? = some i) ∨
        ∃ last, nearTheEnd.maxId? = some last ∧ last < i := by
  have proper : ∀ i ∈ nearTheEnd.ids, i ≤ NodeId.last := by decide +kernel
  have ran : (match nearTheEnd.compile {} with
      | .ok (out, _) => decide (NodeId.last ∈ out.ids)
      | .error _ => false) = true := by decide +kernel
  cases ok : nearTheEnd.compile {} with
  | error errors =>
    rw [ok] at ran
    cases ran
  | ok r =>
    obtain ⟨out, ws⟩ := r
    rw [ok] at ran
    obtain ⟨enough, fresh⟩ := fresh_ids.2.2.2 {} nearTheEnd out ws proper ok
    exact ⟨proper, out, ws, rfl, enough, mem_ids_iff.mp (of_decide_eq_true ran), fresh⟩

end Module

end WaitDefer
