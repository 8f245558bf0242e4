import WaitDefer.Proofs.Grammar.Rounds

/-!
# Nesting

How deep the reading is nested is counted exactly, on every path:

* `Parser.Passes`: what a reading passes through, with the entries that are open at each moment;
* `Parser.Traced`: a parser with such a trace wherever there is room, like every one of the grammar;
* `Parser.Passes.counted`: in every trace the depth counts the open entries, and an error about
  nesting is that of an entry refused at the limit;
* `Parser.counts_exactly`: so it is for statements, expressions, blocks and functions, and the depth
  is zero wherever the reading of a text comes to its next function.
-/

namespace WaitDefer

set_option synthInstance.maxSize 1024

/-! ## Errors about nesting -/

namespace SyntaxError

/-- The error says that the text nests too deep. -/
def AboutNesting (e : SyntaxError) : Prop := ∃ name, e.fault = (Limit.tooDeep name e.span).fault

/-- The error says something else. -/
class Other (e : SyntaxError) : Prop where
  not_aboutNesting : ¬ e.AboutNesting

instance (reason : String) (span : Span) : Other (.malformed reason span) := ⟨nofun⟩

instance (span : Span) : Other (.badTarget span) := ⟨nofun⟩

/-- Both are limits, told apart by their first letter. -/
instance (name : String) (max : Nat) (span : Span) : Other (Limit.tooManyRounds name max span) where
  not_aboutNesting := by
    rintro ⟨name', same⟩
    have texts := SyntaxFault.limitExceeded.inj same
    have chars := congrArg (fun s => s.toList.head?) texts
    simp [String.toList_append] at chars

end SyntaxError

/-! ## Cursors -/

/-- Two cursors that are nested as deep, with the same errors recorded. -/
structure Cursor.Beside (c d : Cursor) : Prop where
  depth : d.depth = c.depth
  recorded : d.recorded = c.recorded

namespace Cursor

theorem Beside.refl (c : Cursor) : c.Beside c := ⟨rfl, rfl⟩

theorem Beside.trans {c d e : Cursor} (h : c.Beside d) (h' : d.Beside e) : c.Beside e :=
  ⟨h'.depth.trans h.depth, h'.recorded.trans h.recorded⟩

theorem beside_advance (c : Cursor) : c.Beside c.advance := by
  unfold advance
  split <;> exact ⟨rfl, rfl⟩

theorem beside_skipWhile (skip : Token → Bool) (n : Nat) (c : Cursor) :
    c.Beside (c.skipWhile skip n) := by
  induction n generalizing c with
  | zero => exact .refl c
  | succ n ih =>
    unfold skipWhile
    split
    · exact c.beside_advance.trans (ih _)
    · exact .refl c

theorem beside_toStatementBoundary (c : Cursor) : c.Beside c.toStatementBoundary := by
  have skipped := c.beside_skipWhile isInsideStatement c.tokens.size
  unfold toStatementBoundary
  dsimp only
  split
  · exact skipped.trans (beside_advance _)
  · exact skipped

theorem beside_toFunction (c : Cursor) : c.Beside c.toFunction :=
  c.beside_advance.trans (beside_skipWhile _ _ _)

end Cursor

/-! ## Traces -/

/-- What the reading goes a level deeper for. -/
inductive Opening
  | statement | expression | unary
  deriving DecidableEq, Repr

/-- What an error calls it. -/
def Opening.name : Opening → String
  | .statement => "statement"
  | .expression => "expression"
  | .unary => "unary"

/-- A moment of a reading. -/
structure Moment where
  cursor : Cursor
  /-- What has been entered and not left, latest first. -/
  opened : List Opening
  /-- The error, where one more entry is refused. -/
  refusal : Option SyntaxError

namespace Parser

/-- The steps that neither enter nor leave anything. -/
inductive Small : {α : Type} → Parser α → Prop
  | pure {α : Type} (a : α) : Small (pure a : Parser α)
  | throw {α : Type} (e : SyntaxError) [e.Other] : Small (throw e : Parser α)
  | look {α : Type} (f : Cursor → α) : Small (look f)
  | advance : Small advance
  | unexpected {α : Type} (expected : List Token) : Small (unexpected expected : Parser α)
  | eat (t : Token) : Small (eat t)
  | expect (t : Token) : Small (expect t)
  | ident : Small ident
  | property : Small property
  | ident? : Small ident?
  | freshId : Small freshId
  | step : Small (move (·.advance))
  | toStatementBoundary : Small (move (·.toStatementBoundary))
  | toFunction : Small (move (·.toFunction))
  | suggesting {α : Type} (suggestion : String) {p : Parser α} (h : Small p) :
    Small (suggesting suggestion p)

attribute [class] Small

attribute [instance] Small.pure Small.throw Small.look Small.advance Small.unexpected Small.eat
  Small.expect Small.ident Small.property Small.ident? Small.freshId Small.step
  Small.toStatementBoundary Small.toFunction

instance {α : Type} (suggestion : String) {p : Parser α} [h : Small p] :
    Small (suggesting suggestion p) := .suggesting suggestion h

/-- What a parser passes through from a cursor on, with `os` open there: where each small step is
made, and where something is entered or refused. A failure ends a reading unless it is caught and
recorded. -/
inductive Passes : {α : Type} → Parser α → List Opening → Cursor → List Moment → Prop
  | small {α : Type} {p : Parser α} {os : List Opening} {c : Cursor} (h : Small p) :
    Passes p os c [⟨c, os, none⟩]
  | fails {α β : Type} {p : Parser α} {f : α → Parser β} {os : List Opening} {c d : Cursor}
    {e : SyntaxError} {t : List Moment} (first : Passes p os c t) (run : p c = (.error e, d)) :
    Passes (p >>= f) os c t
  | bind {α β : Type} {p : Parser α} {f : α → Parser β} {os : List Opening} {c d : Cursor} {a : α}
    {t t' : List Moment} (first : Passes p os c t) (run : p c = (.ok a, d))
    (next : Passes (f a) os d t') : Passes (p >>= f) os c (t ++ t')
  | enters {α : Type} {p : Parser α} {os : List Opening} {c : Cursor} {depth : Nat}
    {t : List Moment} (n : Opening) (room : Limit.enter n.name c.span c.depth = .ok depth)
    (inner : Passes p (n :: os) { c with depth } t) :
    Passes (nested n.name p) os c (⟨c, os, none⟩ :: t)
  | refused {α : Type} {p : Parser α} {os : List Opening} {c : Cursor} {e : SyntaxError}
    (n : Opening) (full : Limit.enter n.name c.span c.depth = .error e) :
    Passes (nested n.name p) os c [⟨c, os, some e⟩]
  | noRoom {α : Type} {os : List Opening} {c : Cursor} {e : SyntaxError} (n : Opening)
    (full : Limit.enter n.name c.span c.depth = .error e) :
    Passes (noRoom n.name : Parser α) os c [⟨c, os, some e⟩]
  | attempts {α β : Type} {p : Parser α} {f : Except SyntaxError α → Parser β}
    {os : List Opening} {c d : Cursor} {a : α} {t t' : List Moment} (first : Passes p os c t)
    (run : p c = (.ok a, d)) (next : Passes (f (.ok a)) os d t') :
    Passes (attempt p >>= f) os c (t ++ t')
  | records {α β : Type} {p : Parser α} {f : Except SyntaxError α → Parser β} {q : Unit → Parser β}
    {os : List Opening} {c d : Cursor} {e : SyntaxError} {t t' : List Moment}
    (first : Passes p os c t) (run : p c = (.error e, d))
    (recovers : f (.error e) = move (·.record e) >>= q)
    (next : Passes (q ()) os (d.record e) t') : Passes (attempt p >>= f) os c (t ++ t')

variable {α β : Type}

/-! ## What a trace says -/

section
variable {p : Parser α} {os : List Opening} {c : Cursor} {t : List Moment}

theorem Small.errors {e : SyntaxError} (h : Small p) (failed : (p c).1 = .error e) :
    ¬ e.AboutNesting := by
  have unexpected (expected : List Token) : ¬ (c.unexpected expected).AboutNesting := by
    unfold Cursor.unexpected
    split <;> nofun
  induction h generalizing e with
  | throw e' =>
    cases failed
    exact SyntaxError.Other.not_aboutNesting
  | unexpected =>
    cases failed
    exact unexpected _
  | expect t =>
    unfold Parser.expect at failed
    split at failed <;> cases failed
    exact unexpected _
  | ident =>
    unfold Parser.ident at failed
    split at failed <;> cases failed
    exact unexpected _
  | property =>
    unfold Parser.property Parser.ident at failed
    split at failed
    · cases failed
    · split at failed <;> cases failed
      exact unexpected _
  | eat t =>
    unfold Parser.eat at failed
    split at failed <;> cases failed
  | ident? =>
    unfold Parser.ident? at failed
    split at failed <;> cases failed
  | @suggesting α suggestion p h ih =>
    unfold Parser.suggesting at failed
    rcases run : p c with ⟨e' | a, d⟩ <;> rw [run] at failed <;> cases failed
    have inner : ¬ e'.AboutNesting := ih (congrArg Prod.fst run)
    exact inner
  | _ => cases failed

theorem Small.beside (h : Small p) : c.Beside (p c).2 := by
  induction h with
  | advance | step => exact c.beside_advance
  | toStatementBoundary => exact c.beside_toStatementBoundary
  | toFunction => exact c.beside_toFunction
  | freshId => exact ⟨rfl, rfl⟩
  | eat t =>
    unfold Parser.eat
    split
    · exact c.beside_advance
    · exact .refl c
  | expect t =>
    unfold Parser.expect
    split
    · exact c.beside_advance
    · exact .refl c
  | ident =>
    unfold Parser.ident
    split
    · exact c.beside_advance
    · exact .refl c
  | property =>
    unfold Parser.property Parser.ident
    split
    · exact c.beside_advance
    · split
      · exact c.beside_advance
      · exact .refl c
  | ident? =>
    unfold Parser.ident?
    split
    · exact c.beside_advance
    · exact .refl c
  | @suggesting α suggestion p h ih =>
    unfold Parser.suggesting
    rcases run : p c with ⟨e | a, d⟩ <;> rw [run] at ih <;> exact ih
  | _ => exact .refl c

/-- An entry is refused at the limit alone, with an error about nesting. -/
theorem enter_error {name : String} {span : Span} {depth : Nat} {e : SyntaxError}
    (full : Limit.enter name span depth = .error e) :
    e = Limit.tooDeep name span ∧ Limit.nesting ≤ depth := by
  unfold Limit.enter at full
  split at full
  · exact ⟨(Except.error.inj full).symm, ‹_›⟩
  · cases full

theorem enter_ok {name : String} {span : Span} {depth depth' : Nat}
    (room : Limit.enter name span depth = .ok depth') :
    depth' = depth + 1 ∧ depth < Limit.nesting := by
  unfold Limit.enter at room
  split at room
  · cases room
  · exact ⟨(Except.ok.inj room).symm, by omega⟩

/-- An error of a reading that is about nesting is that of an entry that was refused. -/
def Excused (t : List Moment) (e : SyntaxError) : Prop :=
  e.AboutNesting → ∃ m ∈ t, m.refusal = some e

theorem Excused.mono {t' : List Moment} {e : SyntaxError} (h : Excused t e) (more : t ⊆ t') :
    Excused t' e := by
  intro nesting
  obtain ⟨m, hm, refused⟩ := h nesting
  exact ⟨m, more hm, refused⟩

end

/-- What is so of a trace from a cursor to what came out. -/
structure Counted (os : List Opening) (c : Cursor) (t : List Moment)
    (r : Except SyntaxError α × Cursor) : Prop where
  /-- The depth counts what is open, -/
  counts : ∀ m ∈ t, m.cursor.depth + os.length = c.depth + m.opened.length
  /-- it stays within the limit, -/
  bounded : c.depth ≤ Limit.nesting → ∀ m ∈ t, m.cursor.depth ≤ Limit.nesting
  /-- nothing is refused below the limit, -/
  full : ∀ m ∈ t, m.refusal ≠ none → Limit.nesting ≤ m.cursor.depth
  /-- and in the end it is what it was. -/
  restored : r.2.depth = c.depth
  /-- An error that is returned or recorded is about nesting only if an entry was refused. -/
  returned : ∀ e, r.1 = .error e → Excused t e
  recorded : ∃ es, r.2.recorded = es ++ c.recorded ∧ ∀ e ∈ es, Excused t e

namespace Counted

variable {os : List Opening} {c d : Cursor} {t t' : List Moment} {r : Except SyntaxError α × Cursor}

/-- One moment before. -/
theorem cons (h : Counted os c t r) : Counted os c (⟨c, os, none⟩ :: t) r := by
  have more : t ⊆ ⟨c, os, none⟩ :: t := List.subset_cons_self _ _
  constructor
  case counts => exact List.forall_mem_cons.mpr ⟨rfl, h.counts⟩
  case bounded =>
    intro within
    exact List.forall_mem_cons.mpr ⟨within, h.bounded within⟩
  case full => exact List.forall_mem_cons.mpr ⟨nofun, h.full⟩
  case restored => exact h.restored
  case returned =>
    intro e failed
    exact (h.returned e failed).mono more
  case recorded =>
    obtain ⟨es, new, excused⟩ := h.recorded
    exact ⟨es, new, fun e he => (excused e he).mono more⟩

/-- Nothing happens but a return. -/
theorem nil (beside : c.Beside r.2) (other : ∀ e, r.1 = .error e → ¬ e.AboutNesting) :
    Counted os c [] r := by
  constructor
  case counts | full => exact List.forall_mem_nil _
  case bounded => exact fun _ => List.forall_mem_nil _
  case restored => exact beside.depth
  case returned => exact fun e failed nesting => absurd nesting (other e failed)
  case recorded => exact ⟨[], beside.recorded, List.forall_mem_nil _⟩

/-- A failure is one whatever was to be read. -/
theorem failed {e : SyntaxError}
    (h : Counted os c t ((.error e, d) : Except SyntaxError β × Cursor)) :
    Counted os c t ((.error e, d) : Except SyntaxError α × Cursor) := by
  constructor
  case counts => exact h.counts
  case bounded => exact h.bounded
  case full => exact h.full
  case restored => exact h.restored
  case returned =>
    rintro e ⟨⟩
    exact h.returned e rfl
  case recorded => exact h.recorded

/-- A refused entry, with its error. -/
theorem refused {n : Opening} {e : SyntaxError}
    (full : Limit.enter n.name c.span c.depth = .error e) :
    Counted os c [⟨c, os, some e⟩] ((.error e, c) : Except SyntaxError α × Cursor) := by
  constructor
  case counts => exact List.forall_mem_singleton.mpr rfl
  case bounded => exact fun within => List.forall_mem_singleton.mpr within
  case full => exact List.forall_mem_singleton.mpr fun _ => (enter_error full).2
  case restored => rfl
  case returned =>
    rintro e' ⟨⟩ -
    exact ⟨_, List.mem_singleton_self _, rfl⟩
  case recorded => exact ⟨[], rfl, List.forall_mem_nil _⟩

/-- Going on from a cursor with more errors recorded, which the trace up to there excuses. -/
theorem append {x : Except SyntaxError β × Cursor} {es : List SyntaxError}
    (first : Counted os c t x) (depth : d.depth = x.2.depth)
    (recorded : d.recorded = es ++ x.2.recorded) (excused : ∀ e ∈ es, Excused t e)
    (next : Counted os d t' r) : Counted os c (t ++ t') r := by
  have same : d.depth = c.depth := depth.trans first.restored
  have before : t ⊆ t ++ t' := List.subset_append_left t t'
  have after : t' ⊆ t ++ t' := List.subset_append_right t t'
  constructor
  case counts =>
    have later : ∀ m ∈ t', m.cursor.depth + os.length = d.depth + m.opened.length := next.counts
    rw [same] at later
    exact List.forall_mem_append.mpr ⟨first.counts, later⟩
  case bounded =>
    intro within
    exact List.forall_mem_append.mpr ⟨first.bounded within, next.bounded (same.trans_le within)⟩
  case full => exact List.forall_mem_append.mpr ⟨first.full, next.full⟩
  case restored => exact next.restored.trans same
  case returned =>
    intro e failed
    exact (next.returned e failed).mono after
  case recorded =>
    obtain ⟨new, all, mine⟩ := first.recorded
    obtain ⟨new', all', mine'⟩ := next.recorded
    refine ⟨new' ++ es ++ new, ?_, ?_⟩
    · rw [all', recorded, all, List.append_assoc, List.append_assoc]
    · intro e he
      rcases List.mem_append.mp he with he | he
      · rcases List.mem_append.mp he with he | he
        · exact (mine' e he).mono after
        · exact (excused e he).mono before
      · exact (mine e he).mono before

/-- What was entered is left. -/
theorem leave {n : Opening} {depth : Nat} (room : Limit.enter n.name c.span c.depth = .ok depth)
    (inner : Counted (n :: os) { c with depth } t r) : Counted os c t (r.1, r.2.leave) := by
  obtain ⟨deeper, below⟩ := enter_ok room
  have restored : r.2.depth = depth := inner.restored
  constructor
  case counts =>
    intro m hm
    have counts : m.cursor.depth + (os.length + 1) = depth + m.opened.length := inner.counts m hm
    omega
  case bounded =>
    intro _
    exact inner.bounded (show depth ≤ Limit.nesting by omega)
  case full => exact inner.full
  case restored =>
    change r.2.depth - 1 = c.depth
    omega
  case returned => exact inner.returned
  case recorded => exact inner.recorded

end Counted

/-- **In every trace the depth counts what is open.** -/
theorem Passes.counted {p : Parser α} {os : List Opening} {c : Cursor} {t : List Moment}
    (h : Passes p os c t) : Counted os c t (p c) := by
  induction h with
  | small h => exact (Counted.nil h.beside fun e failed => h.errors failed).cons
  | fails first run ih =>
    rw [bind_apply, run]
    rw [run] at ih
    exact ih.failed
  | bind first run next ih ih' =>
    rw [bind_apply, run]
    rw [run] at ih
    exact ih.append rfl rfl (List.forall_mem_nil _) ih'
  | @enters α p os c depth t n room inner ih =>
    rw [nested, enter, room]
    exact (ih.leave room).cons
  | refused n full =>
    rw [nested, enter, full]
    exact .refused full
  | noRoom n full =>
    rw [Parser.noRoom, ← (enter_error full).1]
    exact .refused full
  | attempts first run next ih ih' =>
    rw [bind_apply, attempt, run]
    rw [run] at ih
    exact ih.append rfl rfl (List.forall_mem_nil _) ih'
  | @records α β p f q os c d e t t' first run recovers next ih ih' =>
    rw [bind_apply, attempt, run]
    rw [run] at ih
    change Counted os c _ (f (.error e) d)
    rw [recovers]
    have excused : ∀ e' ∈ [e], Excused t e' := List.forall_mem_singleton.mpr (ih.returned e rfl)
    exact Counted.append (d := d.record e) ih rfl rfl excused ih'

/-! ## The grammar has traces -/

/-- A parser with a trace wherever as many levels are left as it has room for. -/
class Traced (room : Nat) (p : Parser α) : Prop where
  passes : ∀ os c, Limit.nesting ≤ room + c.depth → ∃ t, Passes p os c t

section
variable {room : Nat} {p : Parser α} {f : α → Parser β}

instance [h : Small p] : Traced room p := ⟨fun _ _ _ => ⟨_, .small h⟩⟩

instance [Traced room p] [∀ a, Traced room (f a)] : Traced room (p >>= f) where
  passes os c enough := by
    obtain ⟨t, first⟩ := Traced.passes (p := p) os c enough
    have restored := first.counted.restored
    rcases run : p c with ⟨e | a, d⟩
    · exact ⟨t, .fails first run⟩
    · rw [run] at restored
      obtain ⟨t', next⟩ := Traced.passes (p := f a) os d (by rw [restored]; exact enough)
      exact ⟨t ++ t', .bind first run next⟩

theorem Traced.bind [Traced room p] (h : ∀ a, Traced room (f a)) : Traced room (p >>= f) :=
  inferInstance

instance [Traced room p] (g : α → β) : Traced room (g <$> p) := by
  rw [← bind_pure_comp]
  infer_instance

instance {c : Prop} [Decidable c] {q : Parser α} [Traced room p] [Traced room q] :
    Traced room (if c then p else q) := by
  split <;> infer_instance

theorem Traced.noRoom (n : Opening) : Traced 0 (noRoom n.name : Parser α) where
  passes os c enough := by
    rw [Nat.zero_add] at enough
    exact ⟨_, .noRoom n (if_pos enough)⟩

/-- Where there is no room, an entry is refused before anything is read. -/
theorem Traced.full (n : Opening) : Traced 0 (Parser.nested n.name p) where
  passes os c enough := by
    rw [Nat.zero_add] at enough
    exact ⟨_, .refused n (if_pos enough)⟩

theorem Traced.nested [Traced room p] (n : Opening) : Traced (room + 1) (nested n.name p) where
  passes os c enough := by
    cases run : Limit.enter n.name c.span c.depth with
    | error e => exact ⟨_, .refused n run⟩
    | ok depth =>
      have deeper := (enter_ok run).1
      obtain ⟨t, inner⟩ := Traced.passes (p := p) (n :: os) { c with depth }
        (show Limit.nesting ≤ room + depth by omega)
      exact ⟨_, .enters n run inner⟩

/-- A failure that is recorded, and what comes after it. -/
theorem Traced.recover [Traced room p] {f : Except SyntaxError α → Parser β}
    {q : SyntaxError → Unit → Parser β} (ok : ∀ a, Traced room (f (.ok a)))
    (recovers : ∀ e, f (.error e) = move (·.record e) >>= q e) (rest : ∀ e, Traced room (q e ())) :
    Traced room (attempt p >>= f) where
  passes os c enough := by
    obtain ⟨t, first⟩ := Traced.passes (p := p) os c enough
    have restored := first.counted.restored
    rcases run : p c with ⟨e | a, d⟩ <;> rw [run] at restored
    · obtain ⟨t', next⟩ := (rest e).passes os (d.record e)
        (show Limit.nesting ≤ room + d.depth by rw [restored]; exact enough)
      exact ⟨_, .records first run (recovers e) next⟩
    · obtain ⟨t', next⟩ := (ok a).passes os d (by rw [restored]; exact enough)
      exact ⟨_, .attempts first run next⟩

instance [Traced room p] (n : Nat) : Traced room (commaList p n) := by
  induction n with
  | zero => unfold commaList; infer_instance
  | succ n ih => unfold commaList; infer_instance

instance [Traced room p] : Traced room (untilParen p) := by
  unfold untilParen
  infer_instance

instance [Traced room p] (t : Token) : Traced room (unlessAt t p) := by
  unfold unlessAt
  infer_instance

end
end Parser

/-- The parsers for what lies deeper have traces; an operand is entered before it is read. -/
class Deeper.Traced (room : Nat) (d : Deeper) : Prop where
  expression : Parser.Traced room d.expression
  unary : Parser.Traced room (Parser.nested "unary" d.unary)
  statement : Parser.Traced room d.statement

attribute [instance] Deeper.Traced.expression Deeper.Traced.unary Deeper.Traced.statement

namespace Parser

section
variable {room : Nat} {d : Deeper} [d.Traced room]

instance (ends : List Token) (n : Nat) (done : List Statement) :
    Traced room (statements d ends n done) := by
  induction n generalizing done with
  | zero => unfold statements; infer_instance
  | succ n ih =>
    unfold statements
    refine .bind fun ended => ?_
    split
    · infer_instance
    · exact .bind fun start => .recover (fun s => ih (s :: done)) (fun e => rfl) inferInstance

instance : Traced room (block d) := by
  unfold block
  infer_instance

instance (named : Bool) : Traced room (function d named) := by
  unfold function
  infer_instance

instance : Traced room (primary d) := by
  unfold primary
  refine .bind fun start => .bind fun token => ?_
  split <;> infer_instance

instance (n : Nat) (e : Expr) : Traced room (suffixes d n e) := by
  induction n generalizing e with
  | zero => unfold suffixes; infer_instance
  | succ n ih =>
    unfold suffixes
    refine .bind fun token => ?_
    split <;> infer_instance

instance : Traced room (unary d) := by
  unfold unary
  refine .bind fun start => .bind fun token => ?_
  split <;> infer_instance

instance {right : Precedence → Parser Expr} [∀ level, Traced room (right level)]
    (least : Precedence) (n : Nat) (left : Expr) : Traced room (operators right least n left) := by
  induction n generalizing left with
  | zero => unfold operators; infer_instance
  | succ n ih =>
    unfold operators
    refine .bind fun token => ?_
    split <;> infer_instance

instance (levels : Nat) (least : Precedence) : Traced room (climb d levels least) := by
  induction levels generalizing least with
  | zero => unfold climb; infer_instance
  | succ levels ih => unfold climb; infer_instance

instance (declarations : Bool) : Traced room (simple d declarations) := by
  unfold simple
  infer_instance

instance : Traced room (condition d) := by
  unfold condition
  infer_instance

instance : Traced room (branch d) := by
  unfold branch
  infer_instance

instance (n : Nat) (done : List Arm) (otherwise : Option Block) :
    Traced room (arms d n done otherwise) := by
  induction n generalizing done otherwise with
  | zero => unfold arms; infer_instance
  | succ n ih => unfold arms; infer_instance

instance : Traced room (switch d) := by
  unfold switch
  infer_instance

instance (first : Token) : Traced room (headAndBody d first) := by
  unfold headAndBody
  split <;> infer_instance

instance (label : Option Ident) (start : Span) : Traced room (loop d label start) := by
  unfold loop
  infer_instance

omit [d.Traced room] in
instance (kind : JumpKind) : Traced room (jump kind) := by
  unfold jump
  infer_instance

instance : Traced room (labelled d) := by
  unfold labelled
  infer_instance

instance : Traced room (simpleLine d) := by
  unfold simpleLine
  infer_instance

instance : Traced room (statement d) := by
  unfold statement
  refine .bind fun start => .bind fun token => ?_
  split <;> infer_instance

end
end Parser

namespace Deeper

instance traced_levels (n : Nat) : (levels n).Traced n := by
  induction n with
  | zero =>
    exact ⟨.noRoom .expression, .full .unary, .noRoom .statement⟩
  | succ n ih =>
    have expression : Parser.Traced n (Parser.binary (levels n)) := by
      unfold Parser.binary
      infer_instance
    have unary : Parser.Traced n (levels (n + 1)).unary :=
      inferInstanceAs (Parser.Traced n (Parser.unary (levels n)))
    exact ⟨.nested .expression, .nested .unary, .nested .statement⟩

instance : all.Traced Limit.nesting := traced_levels Limit.nesting

end Deeper

namespace Parser

/-! ## Exactly -/

instance (done : List Func) : Traced Limit.nesting (functionRound done) := by
  unfold functionRound
  exact .recover (fun f => inferInstance) (fun e => rfl) inferInstance

theorem Traced.restored (p : Parser α) [Traced Limit.nesting p] (c : Cursor) :
    (p c).2.depth = c.depth := by
  obtain ⟨t, passes⟩ := Traced.passes (p := p) [] c (Nat.le_add_right _ _)
  exact passes.counted.restored

/-- Nesting is counted exactly while something is read, from whatever cursor. -/
structure CountsExactly (p : Parser α) : Prop where
  /-- The depth is what it was, whether something is read or not. -/
  restored : ∀ c, (p c).2.depth = c.depth
  traced : ∀ c, ∃ t, Passes p [] c t
  /-- On the way it counts what has been entered and not left, within the limit. -/
  counts : ∀ c t, Passes p [] c t → ∀ m ∈ t, m.cursor.depth = c.depth + m.opened.length
  bounded : ∀ c t, c.depth ≤ Limit.nesting → Passes p [] c t →
    ∀ m ∈ t, m.cursor.depth ≤ Limit.nesting
  /-- An entry is refused only if as many are open as the limit allows. -/
  full : ∀ c t, c.depth ≤ Limit.nesting → Passes p [] c t →
    ∀ m ∈ t, m.refusal ≠ none → c.depth + m.opened.length = Limit.nesting
  /-- The errors about nesting, returned or recorded, are those of refused entries. -/
  returned : ∀ c t, Passes p [] c t → ∀ e, (p c).1 = .error e → Excused t e
  recorded : ∀ c t, Passes p [] c t →
    ∃ es, (p c).2.recorded = es ++ c.recorded ∧ ∀ e ∈ es, Excused t e

theorem CountsExactly.of_traced (p : Parser α) [Traced Limit.nesting p] : CountsExactly p := by
  constructor
  case restored => exact Traced.restored p
  case traced => exact fun c => Traced.passes [] c (Nat.le_add_right _ _)
  case counts => exact fun c t passes => passes.counted.counts
  case bounded => exact fun c t within passes => passes.counted.bounded within
  case full =>
    intro c t within passes m hm refused
    have counts : m.cursor.depth = c.depth + m.opened.length := passes.counted.counts m hm
    have bounded := passes.counted.bounded within m hm
    have full := passes.counted.full m hm refused
    omega
  case returned => exact fun c t passes => passes.counted.returned
  case recorded => exact fun c t passes => passes.counted.recorded

/-- Reading a text's functions comes to a next one: `n` rounds are left, `done` has been read,
latest first, and the next round begins at the cursor. -/
inductive ComesTo (c : Cursor) : Nat → List Func → Cursor → Prop
  | start : ComesTo c c.tokens.size [] c
  | round {n : Nat} {done done' : List Func} {d d' : Cursor} (before : ComesTo c (n + 1) done d)
    (more : d.atEnd = false) (run : functionRound done d = (.ok done', d')) : ComesTo c n done' d'

/-- From there on, the reading is that of what is left. -/
theorem ComesTo.functions_eq {c d : Cursor} {n : Nat} {done : List Func} (h : ComesTo c n done d) :
    functions c.tokens.size [] c = functions n done d := by
  induction h with
  | start => rfl
  | round before more run ih =>
    rw [ih, functions_succ, look_bind, more, if_neg Bool.false_ne_true, bind_apply, run]

theorem ComesTo.depth {c d : Cursor} {n : Nat} {done : List Func} (h : ComesTo c n done d) :
    d.depth = c.depth := by
  induction h with
  | start => rfl
  | @round n done done' d d' before more run ih =>
    have restored := Traced.restored (functionRound done) d
    rw [run] at restored
    exact restored.trans ih

/-- **Nesting is counted exactly, on every path.** -/
theorem counts_exactly :
    CountsExactly Deeper.all.statement ∧ CountsExactly expression ∧
    CountsExactly (block Deeper.all) ∧ (∀ named, CountsExactly (function Deeper.all named)) ∧
    ∀ source c, Cursor.ofSource source = .ok c → ∀ n done d, ComesTo c n done d →
      functions c.tokens.size [] c = functions n done d ∧ d.depth = 0 := by
  have expressions : Traced Limit.nesting expression :=
    inferInstanceAs (Traced _ Deeper.all.expression)
  refine ⟨.of_traced _, .of_traced _, .of_traced _, fun named => .of_traced _, ?_⟩
  intro source c ok n done d comes
  have begins : c.depth = 0 := by
    unfold Cursor.ofSource at ok
    cases words : Lexer.words source <;> rw [words] at ok <;> cases ok
    rfl
  exact ⟨comes.functions_eq, comes.depth.trans begins⟩

/-- One bracket more than the limit allows. -/
def tooDeep : Cursor :=
  .onTokens (List.replicate 65 ⟨.sym .leftParen, default⟩) ⟨.eof, default⟩

/-- A function with an error deep inside, and another one. -/
def unclosed : String := "function f() { x = ((1 } function g() {}"

/-- The last bracket is refused, with all others open; and after an error inside brackets the next
function is read as if there had been none. -/
theorem counts_exactly_tooDeep :
    (∃ t, Passes expression [] tooDeep t ∧ ∃ m ∈ t, m.refusal ≠ none ∧
      m.opened.length = Limit.nesting) ∧
    ∃ c n done d, Cursor.ofSource unclosed = .ok c ∧ ComesTo c n done d ∧ d.recorded ≠ [] ∧
      d.depth = 0 := by
  have failed : (expression tooDeep).1.map (fun _ => ()) =
      .error (Limit.tooDeep "expression" default) := by decide +kernel
  have recovered : (Cursor.ofSource unclosed).toOption.map (fun c =>
      (c.atEnd, (functionRound [] c).1.isOk, (functionRound [] c).2.recorded.isEmpty)) =
      some (false, true, false) := by decide +kernel
  obtain ⟨-, exact_, -, -, next⟩ := counts_exactly
  constructor
  · obtain ⟨t, passes⟩ := exact_.traced tooDeep
    cases run : (expression tooDeep).1 with
    | ok e =>
      rw [run] at failed
      cases failed
    | error e =>
      rw [run] at failed
      have last : e = Limit.tooDeep "expression" default := Except.error.inj failed
      have nesting : e.AboutNesting := last ▸ ⟨"expression", rfl⟩
      obtain ⟨m, hm, refusal⟩ := exact_.returned tooDeep t passes e run nesting
      have refused : m.refusal ≠ none := by simp [refusal]
      have opened := exact_.full tooDeep t (Nat.zero_le _) passes m hm refused
      exact ⟨t, passes, m, hm, refused, (Nat.zero_add _).symm.trans opened⟩
  · cases ok : Cursor.ofSource unclosed with
    | error es =>
      rw [ok] at recovered
      cases recovered
    | ok c =>
      rw [ok] at recovered
      have seen : (c.atEnd, (functionRound [] c).1.isOk, (functionRound [] c).2.recorded.isEmpty) =
        (false, true, false) := Option.some.inj recovered
      rcases run : functionRound [] c with ⟨e | done, d⟩ <;> rw [run] at seen
      · simp [Except.isOk, Except.toBool] at seen
      · simp only [Prod.mk.injEq, List.isEmpty_eq_false_iff] at seen
        obtain ⟨more, -, errors⟩ := seen
        have inside := c.inBounds
        obtain ⟨n, size⟩ : ∃ n, c.tokens.size = n + 1 := ⟨c.tokens.size - 1, by omega⟩
        have first : ComesTo c (n + 1) [] c := size ▸ .start
        have comes := first.round more run
        exact ⟨c, n, done, d, rfl, comes, errors, (next unclosed c ok n done d comes).2⟩

end Parser
end WaitDefer
