import Mathlib.Data.List.Infix
import Mathlib.Data.String.Basic
import WaitDefer.Source.Span

/-!
# Spans that stand in a text

* `Position.start_after`: the point behind a text, told by the text alone;
* `Span.Placed`: a span that goes from one point of a text to a later one;
* `Span.Sound`: what can be relied on of the numbers in a span;
* `Placed.through`, `Placed.slice?_eq`, `Placed.sound`: placed spans can be joined and cut out.
-/

namespace WaitDefer

open String (utf8Len)

/-! ## Points -/

namespace Position

@[simp] theorem after_nil (p : Position) : p.after [] = p := rfl

@[simp] theorem after_cons (p : Position) (c : Char) (cs : List Char) :
    p.after (c :: cs) = (p.step c).after cs := rfl

/-- Bytes are counted from the start, lines by their line feeds, and columns from the last of
these. -/
theorem start_after (text : List Char) :
    start.after text = ⟨utf8Len text, text.count '\n' + 1,
      (text.reverse.takeWhile (· != '\n')).length + 1⟩ := by
  induction text using List.reverseRecOn with
  | nil => rfl
  | append_singleton text c ih =>
    rw [after_append, ih, after_cons, after_nil, step]
    by_cases feed : c = '\n'
    · subst feed
      simp
    · simp [feed]

@[simp] theorem offset_start_after (text : List Char) :
    (start.after text).offset = utf8Len text := by
  rw [start_after]

end Position

namespace Span

/-! ## Cutting -/

theorem dropBytes?_cons {n : Nat} (c : Char) (cs : List Char) :
    dropBytes? (n + c.utf8Size) (c :: cs) = dropBytes? n cs := by
  have positive := c.utf8Size_pos
  obtain ⟨m, more⟩ : ∃ m, n + c.utf8Size = m + 1 := ⟨n + c.utf8Size - 1, by omega⟩
  rw [more, dropBytes?, if_pos (by omega), ← more, Nat.add_sub_cancel]

theorem takeBytes?_cons {n : Nat} (c : Char) (cs : List Char) :
    takeBytes? (n + c.utf8Size) (c :: cs) = (takeBytes? n cs).map (c :: ·) := by
  have positive := c.utf8Size_pos
  obtain ⟨m, more⟩ : ∃ m, n + c.utf8Size = m + 1 := ⟨n + c.utf8Size - 1, by omega⟩
  rw [more, takeBytes?, if_pos (by omega), ← more, Nat.add_sub_cancel]

theorem dropBytes?_append (before rest : List Char) :
    dropBytes? (utf8Len before) (before ++ rest) = some rest := by
  induction before with
  | nil => cases rest <;> rfl
  | cons c before ih => rw [String.utf8Len_cons, List.cons_append, dropBytes?_cons, ih]

theorem takeBytes?_append (before rest : List Char) :
    takeBytes? (utf8Len before) (before ++ rest) = some before := by
  induction before with
  | nil => cases rest <;> rfl
  | cons c before ih =>
    rw [String.utf8Len_cons, List.cons_append, takeBytes?_cons, ih, Option.map_some]

/-! ## Placed spans -/

/-- A span that goes from one point of a text to a later one. -/
def Placed (text : List Char) (s : Span) : Prop :=
  ∃ before inside, before ++ inside <+: text ∧
    s = between (Position.start.after before) (Position.start.after (before ++ inside))

/-- What can be relied on of a span. Both its ends are between characters of the text, the second
not before the first, and its line and column are those of the first. -/
structure Sound (source : String) (s : Span) : Prop where
  ordered : s.start ≤ s.stop
  inside : s.stop ≤ source.utf8ByteSize
  cut : (s.slice? source).isSome
  placed : ∃ before, takeBytes? s.start source.toList = some before ∧
    s.line = before.count '\n' + 1 ∧
    s.column = (before.reverse.takeWhile (· != '\n')).length + 1

/-- The second span is no wider than the first. -/
structure Encloses (s t : Span) : Prop where
  start : s.start ≤ t.start
  stop : t.stop ≤ s.stop

variable {text : List Char} {s t : Span}

theorem Placed.ordered (h : s.Placed text) : s.start ≤ s.stop := by
  obtain ⟨before, inside, -, rfl⟩ := h
  simp [between]

/-- Of two points in a text, the one with the smaller offset is before the other. -/
theorem prefix_of_utf8Len_le {a b : List Char} (ha : a <+: text) (hb : b <+: text)
    (le : utf8Len a ≤ utf8Len b) : a <+: b := by
  obtain first | ⟨more, rfl⟩ := List.prefix_or_prefix_of_prefix ha hb
  · exact first
  · have none : more = [] := String.utf8Len_eq_zero.mp (by
      rw [String.utf8Len_append] at le
      omega)
    rw [none, List.append_nil]

theorem Placed.through (hs : s.Placed text) (ht : t.Placed text) (le : s.start ≤ t.stop) :
    (s.through t).Placed text := by
  obtain ⟨before, inside, within, rfl⟩ := hs
  obtain ⟨before', inside', within', rfl⟩ := ht
  have start : before <+: text := (List.prefix_append before inside).trans within
  obtain ⟨between', all⟩ := prefix_of_utf8Len_le start within' (by simpa [between] using le)
  exact ⟨before, between', all ▸ within', by rw [all]; rfl⟩

theorem Placed.slice?_eq {source : String} {before inside rest : List Char}
    (all : source.toList = before ++ inside ++ rest) :
    (between (.after .start before) (.after .start (before ++ inside))).slice? source =
      some (String.ofList inside) := by
  have size : utf8Len (before ++ inside) - utf8Len before = utf8Len inside := by simp
  rw [slice?, if_pos (by simp [between])]
  simp only [between, Position.offset_start_after, size, all, List.append_assoc,
    dropBytes?_append, takeBytes?_append, bind_pure_comp, Option.bind_eq_bind, Option.bind_some,
    Option.map_eq_map, Option.map_some]

theorem Placed.sound {source : String} (h : s.Placed source.toList) : s.Sound source := by
  have ordered := h.ordered
  obtain ⟨before, inside, ⟨rest, all⟩, rfl⟩ := h
  have cut := Placed.slice?_eq all.symm
  refine ⟨ordered, ?_, by rw [cut]; rfl, before, ?_, ?_, ?_⟩
  · rw [← String.utf8Len_toList, ← all]
    simp [between]
  · rw [← all, List.append_assoc, between, Position.offset_start_after, takeBytes?_append]
  · rw [between, Position.start_after]
  · rw [between, Position.start_after]

end Span
end WaitDefer
