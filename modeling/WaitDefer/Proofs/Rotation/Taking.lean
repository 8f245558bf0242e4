import WaitDefer.Config
import WaitDefer.Proofs.Rotation.Drawing
import WaitDefer.Proofs.Tree.Weights

/-!
# What is taken from the supply

The ids and names that a step draws, counted. Nothing is said of steps that fail:

* `Numbered.add`: things with numbers in ranges that follow each other all differ;
* `IdSupply.between`: the ids handed out between two states of a supply;
* `Build.Takes`, `Rotation.Gives`: what a step makes, together with what it took;
* `Gives.bind`: a whole takes what its steps take.
-/

namespace WaitDefer

/-! ## Numbered things -/

/-- Things with numbers from `lo` up to `hi`, no two alike. -/
structure Numbered {α : Type} (number : α → Nat → Prop) (lo hi : Nat) (xs : Multiset α) :
    Prop where
  le : lo ≤ hi
  nodup : xs.Nodup
  between : ∀ x ∈ xs, ∃ n, lo ≤ n ∧ n < hi ∧ number x n

namespace Numbered

variable {α : Type} {number : α → Nat → Prop} {lo mid hi : Nat} {xs ys : Multiset α}

theorem nothing (le : lo ≤ hi) : Numbered number lo hi 0 := ⟨le, Multiset.nodup_zero, by simp⟩

theorem one {x : α} (h : number x lo) : Numbered number lo (lo + 1) {x} := by
  refine ⟨by omega, Multiset.nodup_singleton x, fun y hy => ⟨lo, by omega, by omega, ?_⟩⟩
  rwa [Multiset.mem_singleton.mp hy]

theorem add (unique : ∀ x n n', number x n → number x n' → n = n')
    (h : Numbered number lo mid xs) (h' : Numbered number mid hi ys) :
    Numbered number lo hi (xs + ys) := by
  have := h.le
  have := h'.le
  refine ⟨by omega, Multiset.nodup_add.mpr ⟨h.nodup, h'.nodup, ?_⟩, fun x hx => ?_⟩
  · rw [Multiset.disjoint_left]
    intro x hx hy
    obtain ⟨n, -, below, hn⟩ := h.between x hx
    obtain ⟨n', above, -, hn'⟩ := h'.between x hy
    have := unique x n n' hn hn'
    omega
  · rcases Multiset.mem_add.mp hx with hx | hx
    · obtain ⟨n, above, below, hn⟩ := h.between x hx
      exact ⟨n, above, by omega, hn⟩
    · obtain ⟨n, above, below, hn⟩ := h'.between x hx
      exact ⟨n, by omega, below, hn⟩

end Numbered

/-! ## Ids -/

namespace IdSupply

/-- The next id to be handed out, or the one after the last. -/
def position (s : IdSupply) : NodeId := s.next.getD (NodeId.last + 1)

/-- The next id is one that a node can carry. -/
def Proper (s : IdSupply) : Prop := ∀ n, s.next = some n → n ≤ NodeId.last

/-- The ids handed out between two states of a supply, if ids did not run out. -/
def between (s s' : IdSupply) : Multiset NodeId :=
  ↑(List.range' s.position (s'.position - s.position))

/-- How a supply may look later. -/
structure Later (s s' : IdSupply) : Prop where
  keeps : s.exhausted = true → s'.exhausted = true
  proper : s.Proper → s'.Proper
  le : s.Proper → s.position ≤ s'.position

theorem proper_above (n : NodeId) : (above n).Proper := by
  intro m hm
  simp only [above, successor] at hm
  split at hm
  · rename_i below
    cases hm
    exact Nat.succ_le_of_lt below
  · cases hm

namespace Later

variable {s s' s'' : IdSupply}

theorem refl (s : IdSupply) : s.Later s := ⟨fun e => e, fun p => p, fun _ => Nat.le_refl _⟩

theorem trans (h : s.Later s') (h' : s'.Later s'') : s.Later s'' where
  keeps e := h'.keeps (h.keeps e)
  proper p := h'.proper (h.proper p)
  le p := Nat.le_trans (h.le p) (h'.le (h.proper p))

/-- A supply that has not run out had not before. -/
theorem enough (h : s.Later s') (enough : s'.exhausted = false) : s.exhausted = false := by
  cases e : s.exhausted with
  | false => rfl
  | true =>
    rw [h.keeps e] at enough
    cases enough

theorem between_add (h : s.Later s') (h' : s'.Later s'') (p : s.Proper) :
    s.between s' + s'.between s'' = s.between s'' := by
  have first := h.le p
  have second := h'.le (h.proper p)
  have joined := List.range'_append_1 (s := s.position) (m := s'.position - s.position)
    (n := s''.position - s'.position)
  rw [Nat.add_sub_cancel' first] at joined
  have length : s'.position - s.position + (s''.position - s'.position) =
      s''.position - s.position := by
    rw [Nat.add_comm]
    exact Nat.sub_add_sub_cancel second first
  simp only [between, Multiset.coe_add, joined, length]

end Later

theorem between_self (s : IdSupply) : s.between s = 0 := by simp [between]

theorem later_fresh (s : IdSupply) : s.Later s.fresh.2 ∧
    (s.Proper → s.fresh.2.exhausted = false → s.between s.fresh.2 = {s.fresh.1}) := by
  obtain ⟨next, exhausted⟩ := s
  cases next with
  | none =>
    exact ⟨⟨fun _ => rfl, fun p => p, fun _ => Nat.le_refl _⟩, fun _ enough => by cases enough⟩
  | some n =>
    have step : (n : NodeId) ≤ NodeId.last →
        (successor n).getD (NodeId.last + 1) = n + 1 := by
      intro le
      simp only [successor]
      split
      · rfl
      · rename_i notBelow
        rw [Option.getD_none, Nat.le_antisymm le (Nat.not_lt.mp notBelow)]
    refine ⟨⟨fun e => e, fun _ m hm => ?_, fun p => ?_⟩, fun p _ => ?_⟩
    · simp only [fresh, successor] at hm
      split at hm
      · rename_i below
        cases hm
        exact Nat.succ_le_of_lt below
      · cases hm
    · simp only [position, fresh, Option.getD_some, step (p n rfl)]
      exact Nat.le_succ n
    · simp [between, position, fresh, step (p n rfl)]

/-- An id that is handed out is at least the next one, and there was a next one. -/
theorem mem_between {s s' : IdSupply} (proper : s.Proper) (later : s.Later s')
    {i : NodeId} (hi : i ∈ s.between s') : ∃ n, s.next = some n ∧ n ≤ i := by
  have bounds := List.mem_range'_1.mp hi
  rw [Nat.add_sub_cancel' (later.le proper)] at bounds
  cases next : s.next with
  | some n => exact ⟨n, rfl, by simpa [position, next] using bounds.1⟩
  | none =>
    have start : s.position = NodeId.last + 1 := by simp [position, next]
    have stop : s'.position ≤ NodeId.last + 1 := by
      cases next' : s'.next with
      | none => simp [position, next']
      | some n =>
        have := later.proper proper n next'
        simpa [position, next'] using Nat.le_succ_of_le this
    rw [start] at bounds
    exact absurd (Nat.lt_of_lt_of_le bounds.2 stop) (Nat.not_lt.mpr bounds.1)

/-- What is next later is above what all that was next is above. -/
theorem Later.above {s s' : IdSupply} {max : NodeId} (later : s.Later s')
    (proper : s.Proper) (above : ∀ n, s.next = some n → max < n) {n : NodeId}
    (next : s'.next = some n) : max < n := by
  have le := later.le proper
  have bound := later.proper proper n next
  rw [position, position, next, Option.getD_some] at le
  cases next' : s.next with
  | some k =>
    rw [next', Option.getD_some] at le
    exact Nat.lt_of_lt_of_le (above k next') le
  | none =>
    rw [next', Option.getD_none] at le
    exact absurd (Nat.lt_of_lt_of_le (Nat.lt_succ_self _) le) (Nat.not_lt.mpr bound)

theorem nodup_between (s s' : IdSupply) : (s.between s').Nodup := List.nodup_range'

end IdSupply

namespace Build

/-- If ids do not run out, a step makes something together with the ids it takes. -/
def Takes {α : Type} (x : Draw α) (P : Multiset NodeId → α → Prop) : Prop :=
  ∀ s : IdSupply, s.Later (x s).2 ∧
    (s.Proper → (x s).2.exhausted = false → P (s.between (x s).2) (x s).1)

namespace Takes

variable {α β : Type} {P : Multiset NodeId → α → Prop} {Q : Multiset NodeId → β → Prop} {x : Draw α}

theorem pure {a : α} (h : P 0 a) : Takes (Pure.pure a) P :=
  fun s => ⟨.refl s, fun _ _ => s.between_self.symm ▸ h⟩

theorem bind {f : α → Draw β} (hx : Takes x P)
    (hf : ∀ a, Takes (f a) fun more b => ∀ ids, P ids a → Q (ids + more) b) :
    Takes (x >>= f) Q := by
  intro s
  obtain ⟨first, p⟩ := hx s
  obtain ⟨second, q⟩ := hf (x s).1 (x s).2
  refine ⟨first.trans second, fun proper enough => ?_⟩
  have := q (first.proper proper) enough _ (p proper (second.enough enough))
  rwa [first.between_add second proper] at this

theorem weaken {Q : Multiset NodeId → α → Prop} (hx : Takes x P) (h : ∀ ids a, P ids a → Q ids a) :
    Takes x Q :=
  fun s => ⟨(hx s).1, fun proper enough => h _ _ ((hx s).2 proper enough)⟩

end Takes

theorem takes_fresh : Takes IdSupply.fresh fun ids i => ids = {i} := fun s => s.later_fresh

theorem takes_statement (kind : StatementKind) (span : Span) :
    Takes (statement kind span) fun ids s => ∃ i, ids = {i} ∧ s = ⟨i, kind, span⟩ :=
  takes_fresh.bind fun i => .pure fun ids h => ⟨i, by simp [h], rfl⟩

theorem takes_block (statements : List Statement) (span : Span) :
    Takes (block statements span) fun ids b => ∃ i, ids = {i} ∧ b = ⟨i, statements, span⟩ :=
  takes_fresh.bind fun i => .pure fun ids h => ⟨i, by simp [h], rfl⟩

theorem takes_func (name : Option String) (params : List Ident) (statements : List Statement)
    (span : Span) :
    Takes (func name params statements span) fun ids f => ∃ i j, ids = {i} + {j} ∧
      f = ⟨i, name.map (⟨·, span⟩), params, ⟨j, statements, span⟩, span⟩ := by
  refine takes_fresh.bind fun i => (takes_block statements span).bind fun b => .pure ?_
  rintro _ ⟨j, rfl, rfl⟩ _ rfl
  exact ⟨i, j, by simp, rfl⟩

theorem takes_closure (params : List Ident) (statements : List Statement) (span : Span) :
    Takes (closure params statements span) fun ids e => ∃ i j, ids = {i} + {j} ∧
      e = .func ⟨i, none, params, ⟨j, statements, span⟩, span⟩ := by
  refine (takes_func _ _ _ _).bind fun f => .pure ?_
  rintro _ ⟨i, j, rfl, rfl⟩
  exact ⟨i, j, by simp, rfl⟩

theorem takes_routine (name : String) (body : List Statement) (span : Span) :
    Takes (routine name body span) fun ids s => ∃ i j k, ids = {i} + {j} + {k} ∧
      s = .routineWith i j k name body span := by
  refine (takes_func _ _ _ _).bind fun f => (takes_statement _ _).weaken ?_
  rintro _ s ⟨i, rfl, rfl⟩ _ ⟨j, k, rfl, rfl⟩
  exact ⟨i, j, k, by abel, rfl⟩

end Build

/-! ## Names -/

/-- A name that rotation makes up, and its number. -/
def NameSupply.Makes (reserved x : String) (n : Nat) : Prop :=
  ∃ stem ∈ stems, x = reserved ++ stem ++ toString n

theorem NameSupply.Makes.unique {reserved : String} (x : String) (n n' : Nat)
    (h : Makes reserved x n) (h' : Makes reserved x n') : n = n' := by
  obtain ⟨stem, hs, rfl⟩ := h
  obtain ⟨stem', hs', same⟩ := h'
  exact (name_inj hs hs' same).2

/-- A name that rotation may make up for a routine or a counter. -/
def Config.MakesUp (config : Config) (x : String) : Prop :=
  ∃ n, NameSupply.Makes config.reservedPrefix x n

theorem Config.reserved_of_makesUp (config : Config) {x : String} (h : config.MakesUp x) :
    config.isReserved x = true := by
  obtain ⟨n, stem, -, rfl⟩ := h
  simp [isReserved, String.append_assoc]

namespace Rotation

/-- One step after the other; the second is not taken if the first fails. -/
theorem bind_apply {α β : Type} (x : Rotation α) (f : α → Rotation β) (s : Supply) :
    (x >>= f) s = match x s with
      | (.ok a, s') => f a s'
      | (.error e, s') => (.error e, s') := by
  have unfolded : (x >>= f) s = ExceptT.bindCont f (x s).1 (x s).2 := rfl
  rw [unfolded]
  obtain ⟨r, s'⟩ := x s
  cases r <;> rfl

/-- If a step of rotation succeeds and ids do not run out, it makes something together with the ids
and names it takes. -/
structure Gave {α : Type} (reserved : String) (s s' : Supply) (a : α)
    (P : Multiset NodeId → Multiset String → α → Prop) : Prop where
  same : s'.names.reserved = reserved
  later : s.ids.Later s'.ids
  le : s.names.next ≤ s'.names.next
  gave : s.ids.Proper → s'.ids.exhausted = false → ∃ names,
    Numbered (NameSupply.Makes reserved) s.names.next s'.names.next names ∧
      P (s.ids.between s'.ids) names a

/-- What a step of rotation makes, should it succeed. -/
def Gives {α : Type} (reserved : String) (x : Rotation α)
    (P : Multiset NodeId → Multiset String → α → Prop) : Prop :=
  ∀ (s s' : Supply) (a : α), s.names.reserved = reserved → x s = (.ok a, s') →
    Gave reserved s s' a P

namespace Gives

variable {α β : Type} {reserved : String} {P : Multiset NodeId → Multiset String → α → Prop}
  {Q : Multiset NodeId → Multiset String → β → Prop} {x : Rotation α}

theorem pure {a : α} (h : P 0 0 a) : Gives reserved (Pure.pure a) P := by
  intro s s' a' hs run
  cases run
  refine ⟨hs, .refl _, Nat.le_refl _, fun _ _ => ⟨0, .nothing (Nat.le_refl _), ?_⟩⟩
  rwa [IdSupply.between_self]

theorem throw (e : InternalError) : Gives reserved (MonadExcept.throw e) P := by
  intro s s' a _ run
  cases run

/-- One step after the other, where the second relies on what the first is known to make. -/
theorem bindKnown {f : α → Rotation β} {K : α → Prop} (hx : Gives reserved x P)
    (known : ∀ s : Supply, s.names.reserved = reserved → ∀ a s', x s = (.ok a, s') → K a)
    (hf : ∀ a, K a → Gives reserved (f a) fun more rest b =>
      ∀ ids names, P ids names a → Q (ids + more) (names + rest) b) :
    Gives reserved (x >>= f) Q := by
  intro s s' b hs run
  rw [bind_apply] at run
  cases ran : x s with
  | mk r s₁ =>
    rw [ran] at run
    cases r with
    | error e => cases run
    | ok a =>
      have first := hx s s₁ a hs ran
      have second := hf a (known s hs a s₁ ran) s₁ s' b first.same run
      refine ⟨second.same, first.later.trans second.later, first.le.trans second.le,
        fun proper enough => ?_⟩
      obtain ⟨names, numbered, p⟩ := first.gave proper (second.later.enough enough)
      obtain ⟨rest, numbered', q⟩ := second.gave (first.later.proper proper) enough
      refine ⟨names + rest, numbered.add NameSupply.Makes.unique numbered', ?_⟩
      rw [← first.later.between_add second.later proper]
      exact q _ _ p

theorem bind {f : α → Rotation β} (hx : Gives reserved x P)
    (hf : ∀ a, Gives reserved (f a) fun more rest b =>
      ∀ ids names, P ids names a → Q (ids + more) (names + rest) b) :
    Gives reserved (x >>= f) Q :=
  bindKnown (K := fun _ => True) hx (fun _ _ _ _ _ => trivial) fun a _ => hf a

theorem weaken {Q : Multiset NodeId → Multiset String → α → Prop} (hx : Gives reserved x P)
    (h : ∀ ids names a, P ids names a → Q ids names a) : Gives reserved x Q := by
  intro s s' a hs run
  have gave := hx s s' a hs run
  refine { gave with gave := fun proper enough => ?_ }
  obtain ⟨names, numbered, p⟩ := gave.gave proper enough
  exact ⟨names, numbered, h _ names a p⟩

theorem map {f : α → β} (hx : Gives reserved x P)
    (h : ∀ ids names a, P ids names a → Q ids names (f a)) : Gives reserved (f <$> x) Q := by
  rw [← bind_pure_comp]
  refine hx.bind fun a => .pure fun ids names p => ?_
  simpa using h ids names a p

theorem drawIds {P : Multiset NodeId → α → Prop} {x : Build.Draw α} (hx : Build.Takes x P) :
    Gives reserved (Rotation.drawIds x) fun ids names a => names = 0 ∧ P ids a := by
  intro s s' a hs run
  cases run
  obtain ⟨later, p⟩ := hx s.ids
  exact ⟨hs, later, Nat.le_refl _, fun proper enough =>
    ⟨0, .nothing (Nat.le_refl _), rfl, p proper enough⟩⟩

theorem drawName {f : NameSupply → α × NameSupply} (hf : ∀ s, (f s).2 = s.advance)
    {N : α → Multiset String}
    (h : ∀ s : NameSupply, s.reserved = reserved →
      Numbered (NameSupply.Makes reserved) s.next (s.next + 1) (N (f s).1)) :
    Gives reserved (Rotation.drawName f) fun ids used a => ids = 0 ∧ used = N a := by
  intro s s' a hs run
  cases run
  have numbered := h s.names hs
  refine ⟨?_, .refl _, ?_, fun _ _ => ⟨_, ?_, IdSupply.between_self _, rfl⟩⟩
  · simpa [hf, NameSupply.advance] using hs
  · simp [hf, NameSupply.advance]
  · simpa [hf, NameSupply.advance] using numbered

theorem names : Gives reserved Rotation.names fun ids used _ => ids = 0 ∧ used = 0 := by
  intro s s' a hs run
  cases run
  exact ⟨hs, .refl _, Nat.le_refl _, fun _ _ =>
    ⟨0, .nothing (Nat.le_refl _), IdSupply.between_self _, rfl⟩⟩

end Gives

end Rotation

end WaitDefer
