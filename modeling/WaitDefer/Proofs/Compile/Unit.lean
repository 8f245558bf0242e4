import WaitDefer.Proofs.Rotation.Clean
import WaitDefer.Proofs.Rotation.Hoisted
import WaitDefer.Proofs.Rotation.Lower
import WaitDefer.Proofs.Tree.Whole

/-!
# One unit

* `Func.Fit`: a function as the parser makes it, its ids up to some largest one, whatever has
  become of the functions inside;
* `Func.lower_without_flaw`: once marked, it is hoisted and rotated, and the check accepts it;
* `Func.lowerChecked_error`: so only running out of ids can go wrong.
-/

namespace WaitDefer

/-- Own code with distinct ids up to `max` and simple heads, and with functions that were there
before. -/
structure Func.Fit (max : NodeId) (f : Func) : Prop where
  distinct : (Node.block f.body).ownIds.Nodup
  simple : f.HasSimpleHeads
  old : ∀ i ∈ (Node.block f.body).ownIds, i ≤ max
  raw : (Node.block f.body).Raw max

namespace Func

variable {config : Config} {f : Func} {m : Marking} {max : NodeId}

/-- A function with distinct ids and simple heads is fit. -/
theorem fit (distinct : f.ids.Nodup) (simple : f.HasSimpleHeads) (bound : ∀ i ∈ f.ids, i ≤ max) :
    f.Fit max := by
  have own : ∀ n ∈ f.body.ownNodes, n ∈ f.allNodes := by
    intro n hn
    rw [f.allNodes_eq]
    exact List.mem_cons_of_mem _ (List.mem_append_right _ ((f.body.ownNodes_subperm _).subset hn))
  have known : ∀ n ∈ f.allNodes, ∀ i, n.id? = some i → i ≤ max :=
    fun n hn i hi => bound i (List.mem_filterMap.mpr ⟨n, hn, hi⟩)
  have self : ∀ g : Func, .func g ∈ g.nodes fun _ => true := fun g => by
    rw [← allNodes, g.allNodes_eq]
    exact List.mem_cons_self
  have within := f.whole_allNodes
  refine ⟨(nodup_ownIds distinct).1, simple, fun i hi => ?_, fun g hg => ?_, fun s hs g hg => ?_⟩
  · obtain ⟨n, hn, hi⟩ := List.mem_filterMap.mp hi
    exact known n (own n hn) i hi
  · have : .func g ∈ (Node.expr (.func g)).allNodes :=
      Expr.mem_nodes_of_function List.mem_cons_self (self g)
    exact known _ ((within _ (own _ hg)).subset this) _ rfl
  · have : .func g ∈ (Node.statement s).allNodes := Statement.mem_nodes_of_function hg (self g)
    exact known _ ((within _ (own _ hs)).subset this) _ rfl

/-- Ids above the old ones are not marked. -/
theorem Fit.unused (fit : f.Fit max) (ok : f.marking config = .ok m) :
    Unused m.table max (max < ·) := by
  refine ⟨fun _ hi => hi, fun i hi => ?_⟩
  refine get_eq_none_of_outside ok fun n hn same => ?_
  exact absurd hi (Nat.not_lt.mpr (fit.old i (Node.mem_ownIds hn same)))

/-- **A marked function is hoisted and rotated, and the check accepts it.** -/
theorem lower_without_flaw (fit : f.Fit max) (ok : f.marking config = .ok m)
    (room : max < NodeId.last) {s : Supply} (reserved : s.names.reserved = config.reservedPrefix)
    (promises : s.ids.Promises (max < ·)) :
    ∃ g s', f.lower ⟨config, m.table⟩ s = (.ok g, s') ∧ g.flaw? m.table max = none ∧
      g.id = f.id ∧ s'.names.reserved = config.reservedPrefix ∧ s'.ids.Promises (max < ·) := by
  have unused := fit.unused ok
  generalize run : f.lower ⟨config, m.table⟩ s = r
  obtain ⟨r, s'⟩ := r
  obtain ⟨reserved, promises, ds, out, entries, rfl, declares, woven, -⟩ :=
    lower_spec fit.distinct fit.simple ok unused reserved promises run fun _ => room
  refine ⟨_, s', rfl, ?_, rfl, reserved, promises⟩
  have lawful := (marking_spec ok).1.body
  have bare : (Node.block f.body.undeclared).Bare m.table max :=
    (Block.bare_of_survey lawful fit.raw).undeclared
  have fair := fair_flaws m.table (max < ·) unused.unmarked
  have clean : Block.Throughout max (fun n => n.flaws m.table = [])
      { f.body with statements := ds ++ out } := by
    refine Settled.block fair (.append (fun d hd => ?_) (woven.clean unused (by simp) ?_ (by simp)))
    rotate_left
    · cases bare with
      | block statements => exact statements
    obtain ⟨i, name, hi, rfl⟩ := declares d hd
    refine ⟨?_, MarkTable.hasAny_of_none (unused.unmarked i hi) _⟩
    exact Statement.throughout_of_parts fair rfl
      (by simp [Statement.declaration, StatementKind.tests, StatementKind.operands])
      (by simp [Statement.declaration, StatementKind.functions])
      (by simp [Statement.declaration, StatementKind.headers])
      (by simp [Statement.declaration, StatementKind.blocks])
  rw [flaw?, List.flatMap_eq_nil_iff.mpr clean]
  rfl

/-- Only running out of ids makes a marked function fail. -/
theorem lowerChecked_error (fit : f.Fit max) (ok : f.marking config = .ok m)
    (room : max < NodeId.last) {s : Supply} (reserved : s.names.reserved = config.reservedPrefix)
    (promises : s.ids.Promises (max < ·)) :
    ∃ r s', f.lowerChecked ⟨config, m.table⟩ max s = (r, s') ∧
      s'.names.reserved = config.reservedPrefix ∧ s'.ids.Promises (max < ·) ∧
      (s.ids.exhausted = true → s'.ids.exhausted = true) ∧
      ((∃ g, r = .ok g ∧ g.id = f.id) ∨
        s'.ids.exhausted = true ∧ r = .error ⟨.idsExhausted max, f.span⟩) := by
  obtain ⟨g, s', run, sound, sameId, reserved, promises⟩ :=
    lower_without_flaw fit ok room reserved promises
  have checked : f.lowerChecked ⟨config, m.table⟩ max s =
      if s'.ids.exhausted then (.error ⟨.idsExhausted max, f.span⟩, s') else (.ok g, s') := by
    have asked : (getThe Supply : Rotation Supply) s' = (.ok s', s') := rfl
    simp only [lowerChecked, bind, ExceptT.bind, ExceptT.mk, StateT.bind, run, asked,
      ExceptT.bindCont, sound, ite_self]
    split <;> rfl
  have keeps : s.ids.exhausted = true → s'.ids.exhausted = true := by
    have := keeps_lower ⟨config, m.table⟩ f s
    rwa [run] at this
  rw [checked]
  cases exhausted : s'.ids.exhausted with
  | true => exact ⟨_, s', rfl, reserved, promises, keeps, .inr ⟨exhausted, rfl⟩⟩
  | false => exact ⟨_, s', rfl, reserved, promises, keeps, .inl ⟨g, rfl, sameId⟩⟩

end Func

end WaitDefer
