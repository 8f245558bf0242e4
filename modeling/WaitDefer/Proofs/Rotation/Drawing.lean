import Mathlib.Data.List.Nodup
import Std.Data.String.ToNat
import WaitDefer.Proofs.Tree.Stepwise
import WaitDefer.Rotation.Build
import WaitDefer.Rotation.Supply

/-!
# Drawing on the supply

Steps that draw ids and names, with what they promise of their result:

* `Build.Draws`, `Rotation.Meets`: the step succeeds on every supply, and its result has a property
  that may speak of the ids drawn and the numbers of the names drawn;
* `Draws.bind`, `Meets.bind`: a property of a whole from those of its steps;
* `NamesBetween.append`: names with different numbers differ.
-/

namespace WaitDefer

/-! ## Ids -/

namespace IdSupply

/-- Every id still to be handed out has a property. -/
def Promises (s : IdSupply) (fresh : NodeId → Prop) : Prop :=
  ∀ n, s.next = some n → ∀ i, n ≤ i → fresh i

theorem promises_above (max : NodeId) : (above max).Promises (max < ·) := by
  intro n hn i hi
  simp only [above, successor] at hn
  split at hn
  · cases hn
    exact hi
  · cases hn

end IdSupply

namespace Build

/-- A step that draws ids: if every id it may draw has a property, and so has the largest one
should ids run out, then its result is as promised. -/
def Draws {α : Type} (x : Draw α) (P : (NodeId → Prop) → α → Prop) : Prop :=
  ∀ s : IdSupply, (s.exhausted = true → (x s).2.exhausted = true) ∧
    ∀ fresh : NodeId → Prop, s.Promises fresh →
      ((x s).2.exhausted = true → fresh NodeId.last) →
        (x s).2.Promises fresh ∧ P fresh (x s).1

namespace Draws

variable {α β : Type}

theorem pure {P : (NodeId → Prop) → α → Prop} {a : α} (h : ∀ fresh, P fresh a) :
    Draws (Pure.pure a) P :=
  fun _ => ⟨fun e => e, fun fresh promises _ => ⟨promises, h fresh⟩⟩

theorem bind {P : (NodeId → Prop) → α → Prop} {Q : (NodeId → Prop) → β → Prop} {x : Draw α}
    {f : α → Draw β} (hx : Draws x P)
    (hf : ∀ a, Draws (f a) fun fresh b => P fresh a → Q fresh b) : Draws (x >>= f) Q := by
  intro s
  obtain ⟨keepsX, meetsX⟩ := hx s
  obtain ⟨keepsF, meetsF⟩ := hf (x s).1 (x s).2
  refine ⟨fun e => keepsF (keepsX e), fun fresh promises last => ?_⟩
  obtain ⟨promises, p⟩ := meetsX fresh promises fun e => last (keepsF e)
  obtain ⟨promises, q⟩ := meetsF fresh promises last
  exact ⟨promises, q p⟩

theorem weaken {P Q : (NodeId → Prop) → α → Prop} {x : Draw α} (hx : Draws x P)
    (h : ∀ fresh a, P fresh a → Q fresh a) : Draws x Q := by
  intro s
  obtain ⟨keeps, meets⟩ := hx s
  refine ⟨keeps, fun fresh promises last => ?_⟩
  obtain ⟨promises, p⟩ := meets fresh promises last
  exact ⟨promises, h fresh _ p⟩

theorem also {P : (NodeId → Prop) → α → Prop} {Q : α → Prop} {x : Draw α} (hx : Draws x P)
    (h : ∀ s, Q (x s).1) : Draws x fun fresh a => P fresh a ∧ Q a := by
  intro s
  obtain ⟨keeps, meets⟩ := hx s
  refine ⟨keeps, fun fresh promises last => ?_⟩
  obtain ⟨promises, p⟩ := meets fresh promises last
  exact ⟨promises, p, h s⟩

end Draws

/-- What steps that draw ids promise, as rules for such steps. -/
def draws : Triples IdSupply (NodeId → Prop) := ⟨Draws, Draws.pure, Draws.bind⟩

theorem draws_of {α : Type} {x : Draw α} {P : (NodeId → Prop) → α → Prop} :
    draws.Of x P ↔ Draws x P := Iff.rfl

theorem draws_fresh : Draws IdSupply.fresh fun fresh i => fresh i := by
  intro s
  obtain ⟨next, exhausted⟩ := s
  cases next with
  | none =>
    refine ⟨fun _ => rfl, fun fresh _ last => ⟨?_, last rfl⟩⟩
    intro n hn
    cases hn
  | some n =>
    refine ⟨fun e => e, fun fresh promises _ => ⟨?_, promises n rfl n (Nat.le_refl n)⟩⟩
    intro m hm i hi
    simp only [IdSupply.fresh, IdSupply.successor] at hm
    split at hm
    · cases hm
      exact promises n rfl i (Nat.le_of_succ_le hi)
    · cases hm

theorem draws_statement (kind : StatementKind) (span : Span) :
    Draws (statement kind span) fun fresh s => ∃ i, fresh i ∧ s = ⟨i, kind, span⟩ :=
  draws_fresh.bind fun i => .pure fun _ hi => ⟨i, hi, rfl⟩

theorem draws_block (statements : List Statement) (span : Span) :
    Draws (block statements span) fun fresh b => ∃ i, fresh i ∧ b = ⟨i, statements, span⟩ :=
  draws_fresh.bind fun i => .pure fun _ hi => ⟨i, hi, rfl⟩

theorem draws_func (name : Option String) (params : List Ident) (statements : List Statement)
    (span : Span) :
    Draws (func name params statements span) fun fresh f => ∃ i j, fresh i ∧ fresh j ∧
      f = ⟨i, name.map (⟨·, span⟩), params, ⟨j, statements, span⟩, span⟩ := by
  refine draws_fresh.bind fun i => (draws_block statements span).bind fun b => .pure ?_
  rintro fresh ⟨j, hj, rfl⟩ hi
  exact ⟨i, j, hi, hj, rfl⟩

theorem draws_closure (params : List Ident) (statements : List Statement) (span : Span) :
    Draws (closure params statements span) fun fresh e => ∃ i j, fresh i ∧ fresh j ∧
      e = .func ⟨i, none, params, ⟨j, statements, span⟩, span⟩ := by
  refine (draws_func _ _ _ _).bind fun f => .pure ?_
  rintro fresh ⟨i, j, hi, hj, rfl⟩
  exact ⟨i, j, hi, hj, rfl⟩

end Build

/-- A routine without parameters, with its ids. -/
def Statement.routineWith (i j k : NodeId) (name : String) (body : List Statement) (span : Span) :
    Statement :=
  ⟨i, .func ⟨j, some ⟨name, span⟩, [], ⟨k, body, span⟩, span⟩, span⟩

theorem Build.draws_routine (name : String) (body : List Statement) (span : Span) :
    Draws (routine name body span) fun fresh s => ∃ i j k, fresh i ∧ fresh j ∧ fresh k ∧
      s = .routineWith i j k name body span := by
  refine (draws_func _ _ _ _).bind fun f => (draws_statement _ _).weaken ?_
  rintro fresh s ⟨i, hi, rfl⟩ ⟨j, k, hj, hk, rfl⟩
  exact ⟨i, j, k, hi, hj, hk, rfl⟩

/-! ## Names -/

/-- How the names that rotation makes up go on after the reserved part. -/
def NameSupply.stems : List String := ["k", "deferrals", "loop", "next"]

/-- A name shows its stem and its number. -/
theorem NameSupply.name_inj {reserved stem stem' : String} {n n' : Nat} (hs : stem ∈ stems)
    (hs' : stem' ∈ stems)
    (same : reserved ++ stem ++ toString n = reserved ++ stem' ++ toString n') :
    stem = stem' ∧ n = n' := by
  rw [String.append_assoc, String.append_assoc, String.append_right_inj] at same
  simp only [stems, List.mem_cons, List.not_mem_nil, or_false] at hs hs'
  -- stems that differ differ in their first letter
  have chars := congrArg String.toList same
  rcases hs with rfl | rfl | rfl | rfl <;> rcases hs' with rfl | rfl | rfl | rfl <;>
    first
    | exact ⟨rfl, Nat.repr_inj.mp ((String.append_right_inj _).mp same)⟩
    | simp at chars

/-- Names that rotation makes up, no two alike, with numbers from `lo` up to `hi`. -/
structure NamesBetween (reserved : String) (lo hi : Nat) (names : List String) : Prop where
  nodup : names.Nodup
  numbers : ∀ x ∈ names, ∃ stem ∈ NameSupply.stems, ∃ n, lo ≤ n ∧ n < hi ∧
    x = reserved ++ stem ++ toString n

namespace NamesBetween

variable {reserved : String} {lo mid hi : Nat} {names more : List String}

theorem nil : NamesBetween reserved lo hi [] := ⟨.nil, by simp⟩

theorem perm (h : NamesBetween reserved lo hi names) (p : more.Perm names) :
    NamesBetween reserved lo hi more :=
  ⟨p.nodup_iff.mpr h.nodup, fun x hx => h.numbers x (p.mem_iff.mp hx)⟩

theorem append (h : NamesBetween reserved lo mid names) (h' : NamesBetween reserved mid hi more)
    (lo_le : lo ≤ mid) (le_hi : mid ≤ hi) : NamesBetween reserved lo hi (names ++ more) := by
  constructor
  · refine List.nodup_append.mpr ⟨h.nodup, h'.nodup, ?_⟩
    rintro x hx y hy rfl
    obtain ⟨stem, hs, n, -, below, rfl⟩ := h.numbers x hx
    obtain ⟨stem', hs', n', above, -, same⟩ := h'.numbers _ hy
    have := (NameSupply.name_inj hs hs' same).2
    omega
  · intro x hx
    rcases List.mem_append.mp hx with hx | hx
    · obtain ⟨stem, hs, n, above, below, same⟩ := h.numbers x hx
      exact ⟨stem, hs, n, above, by omega, same⟩
    · obtain ⟨stem, hs, n, above, below, same⟩ := h'.numbers x hx
      exact ⟨stem, hs, n, by omega, below, same⟩

end NamesBetween

/-! ## Rotation -/

namespace Rotation

/-- A step of rotation succeeds on every supply, and its result is as promised, given that the ids
it may draw have a property. The two numbers bound those of the names drawn. -/
def Meets {α : Type} (reserved : String) (x : Rotation α)
    (P : (NodeId → Prop) → Nat → Nat → α → Prop) : Prop :=
  ∀ s : Supply, s.names.reserved = reserved → ∃ a s', x s = (.ok a, s') ∧
    s'.names.reserved = reserved ∧ s.names.next ≤ s'.names.next ∧
    (s.ids.exhausted = true → s'.ids.exhausted = true) ∧
    ∀ fresh : NodeId → Prop, s.ids.Promises fresh →
      (s'.ids.exhausted = true → fresh NodeId.last) →
        s'.ids.Promises fresh ∧ P fresh s.names.next s'.names.next a

namespace Meets

variable {α β : Type} {reserved : String}

theorem pure {P : (NodeId → Prop) → Nat → Nat → α → Prop} {a : α}
    (h : ∀ fresh n, P fresh n n a) : Meets reserved (Pure.pure a) P := by
  intro s hs
  exact ⟨a, s, rfl, hs, Nat.le_refl _, fun e => e, fun fresh promises _ => ⟨promises, h fresh _⟩⟩

/-- One step after the other. The first result's property holds for some ids whatever they are, so
the second step may rely on what it says of other things. -/
theorem bind {P : (NodeId → Prop) → Nat → Nat → α → Prop}
    {Q : (NodeId → Prop) → Nat → Nat → β → Prop} {x : Rotation α} {f : α → Rotation β}
    (hx : Meets reserved x P)
    (hf : ∀ a lo mid, P (fun _ => True) lo mid a → Meets reserved (f a) fun fresh mid' hi b =>
      ∀ lo, lo ≤ mid' → mid' ≤ hi → P fresh lo mid' a → Q fresh lo hi b) :
    Meets reserved (x >>= f) Q := by
  intro s hs
  obtain ⟨a, s₁, runX, hs₁, leX, keepsX, meetsX⟩ := hx s hs
  have known := (meetsX (fun _ => True) (fun _ _ _ _ => trivial) fun _ => trivial).2
  obtain ⟨b, s₂, runF, hs₂, leF, keepsF, meetsF⟩ := hf a _ _ known s₁ hs₁
  have run : (x >>= f) s = (.ok b, s₂) := by
    have unfolded : (x >>= f) s = ExceptT.bindCont f (x s).1 (x s).2 := rfl
    rw [unfolded, runX]
    exact runF
  refine ⟨b, s₂, run, hs₂, by omega, fun e => keepsF (keepsX e), fun fresh promises last => ?_⟩
  obtain ⟨promises, p⟩ := meetsX fresh promises fun e => last (keepsF e)
  obtain ⟨promises, q⟩ := meetsF fresh promises last
  exact ⟨promises, q _ leX leF p⟩

theorem weaken {P Q : (NodeId → Prop) → Nat → Nat → α → Prop} {x : Rotation α}
    (hx : Meets reserved x P) (h : ∀ fresh lo hi a, lo ≤ hi → P fresh lo hi a → Q fresh lo hi a) :
    Meets reserved x Q := by
  intro s hs
  obtain ⟨a, s', run, hs', le, keeps, meets⟩ := hx s hs
  refine ⟨a, s', run, hs', le, keeps, fun fresh promises last => ?_⟩
  obtain ⟨promises, p⟩ := meets fresh promises last
  exact ⟨promises, h fresh _ _ a le p⟩

theorem map {P : (NodeId → Prop) → Nat → Nat → α → Prop}
    {Q : (NodeId → Prop) → Nat → Nat → β → Prop} {x : Rotation α} {f : α → β}
    (hx : Meets reserved x P) (h : ∀ fresh lo hi a, lo ≤ hi → P fresh lo hi a → Q fresh lo hi (f a)) :
    Meets reserved (f <$> x) Q := by
  rw [← bind_pure_comp]
  exact hx.bind fun a _ _ _ => .pure fun fresh n lo le _ p => h fresh lo n a le p

theorem drawIds {P : (NodeId → Prop) → α → Prop} {x : Build.Draw α} (hx : Build.Draws x P) :
    Meets reserved (Rotation.drawIds x) fun fresh lo hi a => lo = hi ∧ P fresh a := by
  intro s hs
  obtain ⟨keeps, meets⟩ := hx s.ids
  refine ⟨_, _, rfl, hs, Nat.le_refl _, keeps, fun fresh promises last => ?_⟩
  obtain ⟨promises, p⟩ := meets fresh promises last
  exact ⟨promises, rfl, p⟩

theorem drawName {f : NameSupply → α × NameSupply}
    (hf : ∀ s, (f s).2 = s.advance) {P : Nat → α → Prop}
    (h : ∀ s : NameSupply, s.reserved = reserved → P s.next (f s).1) :
    Meets reserved (Rotation.drawName f) fun _ lo hi a => hi = lo + 1 ∧ P lo a := by
  intro s hs
  refine ⟨_, _, rfl, ?_, ?_, fun e => e, fun fresh promises _ => ⟨promises, ?_, h s.names hs⟩⟩
  · simpa [hf, NameSupply.advance] using hs
  · simp [hf, NameSupply.advance]
  · simp [hf, NameSupply.advance]

theorem names : Meets reserved Rotation.names fun _ lo hi s => lo = hi ∧ s.reserved = reserved := by
  intro s hs
  exact ⟨_, _, rfl, hs, Nat.le_refl _, fun e => e, fun fresh promises _ => ⟨promises, rfl, hs⟩⟩

end Meets

end Rotation

end WaitDefer
