import Mathlib.Data.Bool.Basic
import WaitDefer.Marks

/-! Tables of marks, read through `get`: marks are only ever added, and only to the nodes named. -/

namespace WaitDefer

namespace Marks

@[simp] theorem union_awaits (a b : Marks) : (a.union b).awaits = (a.awaits || b.awaits) := rfl

@[simp] theorem union_loops (a b : Marks) : (a.union b).loops = (a.loops || b.loops) := rfl

@[simp] theorem union_propagates (a b : Marks) :
    (a.union b).propagates = (a.propagates || b.propagates) := rfl

theorem union_none (a : Marks) : a.union none = a := by
  cases a; simp [union, none]

theorem union_self (a b : Marks) : (a.union b).union b = a.union b := by
  simp [union]

theorem eq_none_iff (a : Marks) :
    a = none ↔ a.awaits = false ∧ a.loops = false ∧ a.propagates = false := by
  cases a; simp [none]

end Marks

namespace MarkTable

theorem get_empty (i : NodeId) : empty.get i = .none := by
  simp [get, empty]

theorem get_mark (t : MarkTable) (id i : NodeId) (m : Marks) :
    (t.mark id m).get i = if id = i then (t.get i).union m else t.get i := by
  unfold mark
  by_cases hm : m = .none
  · subst hm
    simp [Marks.isNone, Marks.union_none]
  · have : m.isNone = false := by simpa [Marks.isNone] using hm
    simp only [this, Bool.false_eq_true, ↓reduceIte, get, Std.TreeMap.getD_insert]
    by_cases h : id = i
    · subst h; simp
    · simp [h]

theorem get_markAll (t : MarkTable) (ids : List NodeId) (m : Marks) (i : NodeId) :
    (t.markAll ids m).get i = if i ∈ ids then (t.get i).union m else t.get i := by
  unfold markAll
  induction ids generalizing t with
  | nil => simp
  | cons id ids ih =>
    rw [List.foldl_cons, ih, get_mark]
    by_cases h : id = i
    · subst h
      simp [Marks.union_self]
    · have : i ≠ id := fun e => h e.symm
      simp [h, this]

theorem awaits_markAll (t : MarkTable) (ids : List NodeId) (m : Marks) (i : NodeId) :
    ((t.markAll ids m).get i).awaits = true ↔
      (t.get i).awaits = true ∨ i ∈ ids ∧ m.awaits = true := by
  rw [get_markAll]
  split <;> simp_all

theorem loops_markAll (t : MarkTable) (ids : List NodeId) (m : Marks) (i : NodeId) :
    ((t.markAll ids m).get i).loops = true ↔
      (t.get i).loops = true ∨ i ∈ ids ∧ m.loops = true := by
  rw [get_markAll]
  split <;> simp_all

theorem propagates_markAll (t : MarkTable) (ids : List NodeId) (m : Marks) (i : NodeId) :
    ((t.markAll ids m).get i).propagates = true ↔
      (t.get i).propagates = true ∨ i ∈ ids ∧ m.propagates = true := by
  rw [get_markAll]
  split <;> simp_all

theorem has_await (t : MarkTable) (i : NodeId) : t.has i .await = (t.get i).awaits := by
  simp [has, Marks.contains, Marks.await]

theorem has_loop (t : MarkTable) (i : NodeId) : t.has i .loop = (t.get i).loops := by
  simp [has, Marks.contains, Marks.loop]

theorem has_propagate (t : MarkTable) (i : NodeId) :
    t.has i .propagate = (t.get i).propagates := by
  simp [has, Marks.contains, Marks.propagate]

theorem hasAny_split_iff (t : MarkTable) (i : NodeId) :
    t.hasAny i .split = true ↔ t.has i .await = true ∨ t.has i .propagate = true := by
  rw [has_await, has_propagate]
  simp [hasAny, Marks.meets, Marks.split, Marks.await, Marks.propagate, Marks.union]

end MarkTable
end WaitDefer
