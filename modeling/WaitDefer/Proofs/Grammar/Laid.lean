import Mathlib.Order.Interval.Multiset
import Mathlib.Order.Interval.Finset.Nat
import WaitDefer.Proofs.Grammar.Ids
import WaitDefer.Proofs.Source.Places
import WaitDefer.Proofs.Tree.Spots

/-!
# Trees laid out over tokens

A tree that is read off some tokens lies over them. Each spot covers a stretch of tokens with those
of its parts inside, and ids are handed out spot by spot, each before those inside:

* `Laid`: spots over a stretch of tokens, with the ids handed out meanwhile;
* `Laid.bag`: these are the ids of the spots, each once;
* `Laid.ordered`: ids grow inwards and from one spot to the next;
* `Laid.framed`: spans stand in the text, each inside the span around it.
-/

namespace WaitDefer

/-! ## Stretches of tokens -/

/-- The span of the token at place `i`. -/
def spanAt (ts : Array Located) (i : Nat) : Span := (ts[i]?.getD default).span

/-- The span of the tokens from place `i` up to place `j`. -/
def stretch (ts : Array Located) (i j : Nat) : Span := (spanAt ts i).through (spanAt ts (j - 1))

/-- The id that is handed out after `n` others. -/
def IdSupply.nth (n : Nat) : NodeId := min n NodeId.last

/-- Tokens that come one after the other in a text. -/
structure Spread (text : List Char) (ts : Array Located) : Prop where
  placed : ∀ w ∈ ts.toList, w.span.Placed text
  apart : ts.toList.Pairwise fun a b => a.span.stop ≤ b.span.start

namespace Spread

variable {text : List Char} {ts : Array Located} {i j k l : Nat}

theorem spanAt_eq (inside : i < ts.size) : spanAt ts i = ts[i].span := by
  rw [spanAt, Array.getElem?_eq_getElem inside]
  rfl

theorem placed_at (spread : Spread text ts) (inside : i < ts.size) :
    (spanAt ts i).Placed text := by
  rw [spanAt_eq inside]
  exact spread.placed _ (Array.getElem_mem_toList inside)

theorem apart_at (spread : Spread text ts) (before : i < j) (inside : j < ts.size) :
    (spanAt ts i).stop ≤ (spanAt ts j).start := by
  rw [spanAt_eq inside, spanAt_eq (before.trans inside)]
  have apart := List.pairwise_iff_getElem.mp spread.apart i j
    (by simpa using before.trans inside) (by simpa using inside) before
  simpa using apart

theorem start_le (spread : Spread text ts) (le : i ≤ j) (inside : j < ts.size) :
    (spanAt ts i).start ≤ (spanAt ts j).start := by
  obtain rfl | before := Nat.eq_or_lt_of_le le
  · exact le_rfl
  · have first := (spread.placed_at (before.trans inside)).ordered
    exact first.trans (spread.apart_at before inside)

theorem stop_le (spread : Spread text ts) (le : i ≤ j) (inside : j < ts.size) :
    (spanAt ts i).stop ≤ (spanAt ts j).stop := by
  obtain rfl | before := Nat.eq_or_lt_of_le le
  · exact le_rfl
  · exact (spread.apart_at before inside).trans (spread.placed_at inside).ordered

theorem placed_stretch (spread : Spread text ts) (some : i < j) (inside : j ≤ ts.size) :
    (stretch ts i j).Placed text := by
  refine (spread.placed_at (by omega)).through (spread.placed_at (by omega)) ?_
  exact (spread.start_le (by omega) (by omega)).trans (spread.placed_at (by omega)).ordered

theorem encloses_stretch (spread : Spread text ts) (first : i ≤ k) (some : k < l) (last : l ≤ j)
    (inside : j ≤ ts.size) : (stretch ts i j).Encloses (stretch ts k l) :=
  ⟨spread.start_le first (by omega), spread.stop_le (by omega) (by omega)⟩

theorem apart_stretch (spread : Spread text ts) (some : i < j) (le : j ≤ k) (more : k < l)
    (inside : l ≤ ts.size) : (stretch ts i j).stop ≤ (stretch ts k l).start :=
  spread.apart_at (by omega) (by omega)

end Spread

/-! ## Ids of spots -/

namespace Spot

/-- The ids of a spot and of everything inside. -/
def bag : Spot → Multiset NodeId
  | func f => f.bag
  | block b => b.bag
  | statement s => s.bag
  | arm a => a.test.bag + a.body.bag
  | expr e => e.bag
  | ident _ => 0

theorem bag_eq (x : Spot) : x.bag = ↑x.id?.toList + bagOf bag x.inside := by
  cases x with
  | func f =>
    rw [bag, Func.bag_eq]
    simp [inside, id?, bag]
  | block b =>
    rw [bag, Block.bag_eq]
    simp [inside, id?, bag]
  | statement s =>
    obtain ⟨id, kind, span⟩ := s
    rw [bag, Statement.bag_eq]
    cases kind with
    | switch subject arms otherwise =>
      have all : bagOf (fun a : Arm => a.test.bag + a.body.bag) arms =
          bagOf (fun a => a.test.bag) arms + bagOf (fun a => a.body.bag) arms := by
        induction arms with
        | nil => rfl
        | cons a arms ih => simp [ih]; abel
      simp [inside, id?, bag, StatementKind.spots, StatementKind.tests, StatementKind.operands,
        StatementKind.headers, StatementKind.blocks, StatementKind.functions, all]
      abel
    | loop label head body =>
      cases head <;> simp [inside, id?, bag, StatementKind.spots, LoopHead.spots,
        StatementKind.tests, StatementKind.operands, StatementKind.headers, StatementKind.blocks,
        StatementKind.functions, LoopHead.test?, LoopHead.statements] <;> abel
    | _ =>
      simp [inside, id?, bag, StatementKind.spots, StatementKind.tests, StatementKind.operands,
        StatementKind.headers, StatementKind.blocks, StatementKind.functions]
  | arm a => simp [inside, id?, bag]
  | expr e =>
    rw [bag, Expr.bag_eq]
    cases e <;> simp [inside, id?, bag, Expr.spots, Expr.operands, Expr.functions]
  | ident name => rfl

/-- The ids of what is inside a spot are counted with it. -/
theorem mem_bag_of_within {x y : Spot} {i : NodeId} (h : y.Within x) (id : y.id? = some i) :
    i ∈ bagOf bag x.inside := by
  induction h using Relation.TransGen.head_induction_on with
  | single first =>
    refine mem_bagOf.mpr ⟨y, first, ?_⟩
    rw [bag_eq, id]
    exact Multiset.mem_add.mpr (.inl List.mem_cons_self)
  | head first _ ih =>
    refine mem_bagOf.mpr ⟨_, first, ?_⟩
    rw [bag_eq]
    exact Multiset.mem_add.mpr (.inr ih)

/-- The parts of a spot in some order, those of a block in theirs. -/
def Holds (x : Spot) (parts : List Spot) : Prop :=
  match x with
  | block b => parts = b.statements.map statement
  | x => parts.Perm x.inside

theorem Holds.perm {x : Spot} {parts : List Spot} (h : x.Holds parts) : parts.Perm x.inside := by
  cases x with
  | block b => exact h ▸ .refl _
  | _ => exact h

theorem holds_inside (x : Spot) : x.Holds x.inside := by
  cases x with
  | block b => rfl
  | _ => exact .refl _

end Spot

/-! ## Spots over tokens -/

/-- Some spots, one after the other, over the tokens from place `i` up to place `j`, with the ids
from the `n`-th up to the `m`-th. Tokens may be left out around a spot, but no ids. The block of an
arm starts where the arm does, before the test. -/
inductive Laid (ts : Array Located) : Nat → Nat → Nat → Nat → List Spot → Prop
  | nil {i j n : Nat} (le : i ≤ j) : Laid ts i n j n []
  | cons {i i' j' j n n' k m : Nat} {x : Spot} {parts xs : List Spot} (le : i ≤ i')
    (some : i' < j') (span : x.span = stretch ts i' j')
    (own : x.id? = none ∧ n' = n ∨ x.id? = .some (IdSupply.nth n) ∧ n' = n + 1)
    (inside : Laid ts i' n' j' k parts) (holds : x.Holds parts) (more : Laid ts j' k j m xs) :
    Laid ts i n j m (x :: xs)
  | arm {i i' j' j n n' k m : Nat} {a : Arm} {xs : List Spot} (le : i ≤ i') (some : i' < j')
    (span : a.span = stretch ts i' j') (test : Laid ts i' n j' n' [.expr a.test])
    (body : Laid ts i' n' j' k [.block a.body]) (more : Laid ts j' k j m xs) :
    Laid ts i n j m (.arm a :: xs)

namespace Laid

variable {ts : Array Located} {text : List Char} {i i' j j' n n' k m : Nat} {x : Spot}
  {parts xs ys : List Spot}

/-! ### Putting together -/

theorem le (h : Laid ts i n j m xs) : i ≤ j ∧ n ≤ m := by
  induction h with
  | nil le => exact ⟨le, le_rfl⟩
  | cons _ _ _ own _ _ _ inside more => omega
  | arm _ _ _ _ _ _ test body more => omega

theorem widen (h : Laid ts i n j m xs) (left : i' ≤ i) (right : j ≤ j') :
    Laid ts i' n j' m xs := by
  induction h generalizing i' with
  | nil le => exact .nil (by omega)
  | cons le some span own inside holds _ _ more =>
    exact .cons (left.trans le) some span own inside holds (more le_rfl right)
  | arm le some span test body _ _ _ more =>
    exact .arm (left.trans le) some span test body (more le_rfl right)

theorem append (h : Laid ts i n j m xs) (h' : Laid ts j m j' k ys) :
    Laid ts i n j' k (xs ++ ys) := by
  induction h with
  | nil le => exact h'.widen le le_rfl
  | cons le some span own inside holds _ _ more =>
    exact .cons le some span own inside holds (more h')
  | arm le some span test body _ _ _ more => exact .arm le some span test body (more h')

/-- A spot that carries no id. -/
theorem plain (some : i < j) (span : x.span = stretch ts i j) (none : x.id? = none)
    (inside : Laid ts i n j m parts) (holds : x.Holds parts) : Laid ts i n j m [x] :=
  .cons le_rfl some span (.inl ⟨none, rfl⟩) inside holds (.nil le_rfl)

/-- A spot that carries the next id. -/
theorem numbered (some : i < j) (span : x.span = stretch ts i j)
    (own : x.id? = .some (IdSupply.nth n)) (inside : Laid ts i (n + 1) j m parts)
    (holds : x.Holds parts) : Laid ts i n j m [x] :=
  .cons le_rfl some span (.inr ⟨own, rfl⟩) inside holds (.nil le_rfl)

/-- The first spot, over just the tokens it covers, and the others. -/
theorem uncons (h : Laid ts i n j m (x :: xs)) : ∃ i' j' k, i ≤ i' ∧ i' < j' ∧
    x.span = stretch ts i' j' ∧ Laid ts i' n j' k [x] ∧ Laid ts j' k j m xs := by
  cases h with
  | cons le some span own inside holds more =>
    exact ⟨_, _, _, le, some, span, .cons le_rfl some span own inside holds (.nil le_rfl), more⟩
  | arm le some span test body more =>
    exact ⟨_, _, _, le, some, span, .arm le_rfl some span test body (.nil le_rfl), more⟩

/-- A spot, over just the tokens it covers. -/
theorem tight (h : Laid ts i n j m [x]) : ∃ i' j', i ≤ i' ∧ i' < j' ∧ j' ≤ j ∧
    x.span = stretch ts i' j' ∧ Laid ts i' n j' m [x] := by
  obtain ⟨i', j', k, first, some, span, one, rest⟩ := h.uncons
  cases rest with
  | nil le => exact ⟨i', j', first, some, le, span, one⟩

/-! ### Ids -/

/-- The ids handed out meanwhile are those of the spots. -/
theorem bag (h : Laid ts i n j m xs) :
    bagOf Spot.bag xs = (Multiset.Ico n m).map IdSupply.nth := by
  induction h with
  | nil => simp
  | @cons i i' j' j n n' k m x parts xs le some span own inside holds more ihi ihm =>
    have first : (↑x.id?.toList : Multiset NodeId) = (Multiset.Ico n n').map IdSupply.nth := by
      obtain ⟨none, rfl⟩ | ⟨is, rfl⟩ := own
      · simp [none]
      · have one : Multiset.Ico n (n + 1) = {n} := congrArg Finset.val (Nat.Ico_succ_singleton n)
        simp [is, one]
    have within := inside.le
    have later := more.le
    have before : n ≤ n' := by omega
    rw [bagOf_cons, x.bag_eq, first, ← bagOf_perm holds.perm, ihi, ihm, ← Multiset.map_add,
      ← Multiset.map_add, Multiset.Ico_add_Ico_eq_Ico before within.2,
      Multiset.Ico_add_Ico_eq_Ico (by omega) later.2]
  | @arm i i' j' j n n' k m a xs le some span test body more iht ihb ihm =>
    have first := test.le
    have second := body.le
    have later := more.le
    rw [bagOf_cons, bagOf_nil, add_zero] at iht ihb
    have both : (Spot.arm a).bag = (Spot.expr a.test).bag + (Spot.block a.body).bag := rfl
    rw [bagOf_cons, both, iht, ihb, ihm, ← Multiset.map_add, ← Multiset.map_add,
      Multiset.Ico_add_Ico_eq_Ico first.2 second.2,
      Multiset.Ico_add_Ico_eq_Ico (by omega) later.2]

/-- The ids of the spots lie between the first and the last that were handed out. -/
theorem exists_of_mem (h : Laid ts i n j m xs) {x : Spot} (hx : x ∈ xs) {id : NodeId}
    (is : x.id? = some id) : ∃ a, n ≤ a ∧ a < m ∧ id = IdSupply.nth a := by
  have own : id ∈ bagOf Spot.bag xs := by
    refine mem_bagOf.mpr ⟨x, hx, ?_⟩
    rw [x.bag_eq, is]
    exact Multiset.mem_add.mpr (.inl List.mem_cons_self)
  rw [h.bag] at own
  obtain ⟨a, among, rfl⟩ := Multiset.mem_map.mp own
  exact ⟨a, (Multiset.mem_Ico.mp among).1, (Multiset.mem_Ico.mp among).2, rfl⟩

end Laid

theorem IdSupply.nth_lt {a b : Nat} (lt : a < b) (room : b ≤ NodeId.last) : nth a < nth b := by
  rw [nth, nth, Nat.min_eq_left (lt.le.trans room), Nat.min_eq_left room]
  exact lt

/-- The first spot comes before the second also by its id. -/
def Spot.Before (x y : Spot) : Prop := ∀ a ∈ x.id?, ∀ b ∈ y.id?, a < b

/-- The id of a spot is smaller than all inside; the statements of a block have growing ids. -/
structure Spot.Ordered (x : Spot) : Prop where
  inside : ∀ a ∈ x.id?, ∀ b ∈ bagOf bag x.inside, a < b
  statements : ∀ b, x = .block b → b.statements.Pairwise fun s t => s.id < t.id

/-- The span of a spot stands in a text, with the spans of its parts inside; the statements of a
block come one after the other. -/
structure Spot.Framed (text : List Char) (x : Spot) : Prop where
  placed : x.span.Placed text
  inside : ∀ y ∈ x.inside, x.span.Encloses y.span
  statements : ∀ b, x = .block b → b.statements.Pairwise fun s t => s.span.stop ≤ t.span.start

namespace Laid

variable {ts : Array Located} {text : List Char} {i i' j j' n n' k m : Nat} {x : Spot}
  {parts xs ys : List Spot}

theorem pairwise_before (h : Laid ts i n j m xs) (room : m ≤ NodeId.last + 1) :
    xs.Pairwise Spot.Before := by
  have later : ∀ {x : Spot} {xs : List Spot} {i n j k m j' : Nat}, Laid ts i n j k [x] →
      Laid ts j k j' m xs → m ≤ NodeId.last + 1 → ∀ y ∈ xs, x.Before y := by
    intro x xs i n j k m j' first more room y hy a ha b hb
    obtain ⟨a', -, before, rfl⟩ := first.exists_of_mem List.mem_cons_self ha
    obtain ⟨b', after, last, rfl⟩ := more.exists_of_mem hy hb
    exact IdSupply.nth_lt (by omega) (by omega)
  induction h with
  | nil => exact .nil
  | cons le some span own inside holds more _ ih =>
    exact .cons (later (.cons le_rfl some span own inside holds (.nil le_rfl)) more room) (ih room)
  | arm le some span test body more _ _ ih =>
    exact .cons (later (.arm le_rfl some span test body (.nil le_rfl)) more room) (ih room)

/-- Ids grow inwards and along each block, as long as they do not run out. -/
theorem ordered (h : Laid ts i n j m xs) (room : m ≤ NodeId.last + 1) :
    ∀ x ∈ xs, x.Every Spot.Ordered := by
  induction h with
  | nil => simp
  | @cons i i' j' j n n' k m x parts xs le some span own inside holds more ihi ihm =>
    have later := more.le
    have all := ihi (by omega)
    refine List.forall_mem_cons.mpr ⟨Spot.every_iff.mpr ⟨⟨?_, ?_⟩, fun y hy => ?_⟩, ihm room⟩
    · intro a ha b hb
      obtain ⟨none, -⟩ | ⟨is, rfl⟩ := own
      · rw [none] at ha
        cases ha
      · rw [is] at ha
        cases ha
        rw [← bagOf_perm holds.perm, inside.bag] at hb
        obtain ⟨c, among, rfl⟩ := Multiset.mem_map.mp hb
        obtain ⟨first, last⟩ := Multiset.mem_Ico.mp among
        exact IdSupply.nth_lt (by omega) (by omega)
    · rintro b rfl
      have before := inside.pairwise_before (by omega)
      rw [show parts = b.statements.map .statement from holds, List.pairwise_map] at before
      exact before.imp fun h => h _ rfl _ rfl
    · exact all y (holds.perm.mem_iff.mpr hy)
  | arm le some span test body more iht ihb ihm =>
    have second := body.le
    have later := more.le
    have inTest := iht (by omega)
    have inBody := ihb (by omega)
    refine List.forall_mem_cons.mpr ⟨Spot.every_iff.mpr ⟨⟨nofun, nofun⟩, ?_⟩, ihm room⟩
    exact List.forall_mem_cons.mpr ⟨inTest _ List.mem_cons_self, inBody⟩

/-! ### Spans -/

theorem covers (h : Laid ts i n j m xs) :
    ∀ x ∈ xs, ∃ a b, i ≤ a ∧ a < b ∧ b ≤ j ∧ x.span = stretch ts a b := by
  induction h with
  | nil => simp
  | cons le some span own inside holds more _ ih =>
    have later := more.le
    refine List.forall_mem_cons.mpr ⟨⟨_, _, le, some, later.1, span⟩, fun y hy => ?_⟩
    obtain ⟨a, b, first, lt, last, is⟩ := ih y hy
    exact ⟨a, b, by omega, lt, last, is⟩
  | arm le some span test body more _ _ ih =>
    have later := more.le
    refine List.forall_mem_cons.mpr ⟨⟨_, _, le, some, later.1, span⟩, fun y hy => ?_⟩
    obtain ⟨a, b, first, lt, last, is⟩ := ih y hy
    exact ⟨a, b, by omega, lt, last, is⟩

section
variable (spread : Spread text ts)
include spread

theorem encloses (h : Laid ts i n j m xs) (inside : j ≤ ts.size) :
    ∀ x ∈ xs, (stretch ts i j).Encloses x.span := by
  intro x hx
  obtain ⟨a, b, first, lt, last, is⟩ := h.covers x hx
  rw [is]
  exact spread.encloses_stretch first lt last inside

theorem pairwise_apart (h : Laid ts i n j m xs) (within : j ≤ ts.size) :
    xs.Pairwise fun x y => x.span.stop ≤ y.span.start := by
  have later : ∀ {x : Spot} {xs : List Spot} {i j k m j' : Nat}, i < j →
      x.span = stretch ts i j → Laid ts j k j' m xs → j' ≤ ts.size →
      ∀ y ∈ xs, x.span.stop ≤ y.span.start := by
    intro x xs i j k m j' some span more within y hy
    obtain ⟨a, b, first, lt, last, is⟩ := more.covers y hy
    rw [span, is]
    exact spread.apart_stretch some first lt (last.trans within)
  induction h with
  | nil => exact .nil
  | cons le some span own inside holds more _ ih =>
    exact .cons (later some span more within) (ih within)
  | arm le some span test body more _ _ ih => exact .cons (later some span more within) (ih within)

/-- Spans stand in the text, each inside the span around it. -/
theorem framed (h : Laid ts i n j m xs) (within : j ≤ ts.size) :
    ∀ x ∈ xs, x.Every (Spot.Framed text) := by
  induction h with
  | nil => simp
  | @cons i i' j' j n n' k m x parts xs le some span own inside holds more ihi ihm =>
    have short := more.le.1.trans within
    have all := ihi short
    refine List.forall_mem_cons.mpr ⟨Spot.every_iff.mpr ⟨⟨?_, ?_, ?_⟩, fun y hy => ?_⟩, ihm within⟩
    · rw [span]
      exact spread.placed_stretch some short
    · intro y hy
      rw [span]
      exact inside.encloses spread short y (holds.perm.mem_iff.mpr hy)
    · rintro b rfl
      have apart := inside.pairwise_apart spread short
      rwa [show parts = b.statements.map .statement from holds, List.pairwise_map] at apart
    · exact all y (holds.perm.mem_iff.mpr hy)
  | @arm i i' j' j n n' k m a xs le some span test body more iht ihb ihm =>
    have short := more.le.1.trans within
    have inTest := iht short
    have inBody := ihb short
    refine List.forall_mem_cons.mpr ⟨Spot.every_iff.mpr ⟨⟨?_, ?_, nofun⟩, ?_⟩, ihm within⟩
    · rw [Spot.span, span]
      exact spread.placed_stretch some short
    · have inner := test.encloses spread short
      have inner' := body.encloses spread short
      rw [Spot.span, span]
      exact List.forall_mem_cons.mpr ⟨inner _ List.mem_cons_self, inner'⟩
    · exact List.forall_mem_cons.mpr ⟨inTest _ List.mem_cons_self, inBody⟩

end

end Laid
end WaitDefer
