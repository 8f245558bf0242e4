import WaitDefer.Grammar.Statement
import Mathlib.Data.List.Infix

/-!
# What reading keeps

Reading moves on: it changes no token, never goes back, and an error once recorded stays.

* `Cursor.Leads`: a cursor and one that is reached from it;
* `Parser.Keeps`: a parser that only moves on; every parser of the grammar does.
-/

namespace WaitDefer

set_option synthInstance.maxSize 512

/-! ## Cursors -/

/-- The second cursor is reached from the first. -/
structure Cursor.Leads (c d : Cursor) : Prop where
  tokens : d.tokens = c.tokens
  pos : c.pos ≤ d.pos
  recorded : c.recorded <:+ d.recorded

namespace Cursor

theorem Leads.refl (c : Cursor) : c.Leads c := ⟨rfl, Nat.le_refl _, List.suffix_rfl⟩

theorem Leads.trans {c d e : Cursor} (h : c.Leads d) (h' : d.Leads e) : c.Leads e :=
  ⟨h'.tokens.trans h.tokens, h.pos.trans h'.pos, h.recorded.trans h'.recorded⟩

theorem Leads.recorded_ne {c d : Cursor} (h : c.Leads d) (some : c.recorded ≠ []) :
    d.recorded ≠ [] := by
  intro none
  have inside := h.recorded
  rw [none, List.suffix_nil] at inside
  exact some inside

theorem leads_advance (c : Cursor) : c.Leads c.advance := by
  unfold advance
  split
  · exact ⟨rfl, Nat.le_succ _, List.suffix_rfl⟩
  · exact .refl c

theorem leads_record (c : Cursor) (e : SyntaxError) : c.Leads (c.record e) :=
  ⟨rfl, Nat.le_refl _, List.suffix_cons e _⟩

theorem leads_skipWhile (skip : Token → Bool) (n : Nat) (c : Cursor) :
    c.Leads (c.skipWhile skip n) := by
  induction n generalizing c with
  | zero => exact .refl c
  | succ n ih =>
    unfold skipWhile
    split
    · exact c.leads_advance.trans (ih _)
    · exact .refl c

theorem leads_toStatementBoundary (c : Cursor) : c.Leads c.toStatementBoundary := by
  have skipped := c.leads_skipWhile isInsideStatement c.tokens.size
  unfold toStatementBoundary
  dsimp only
  split
  · exact skipped.trans (leads_advance _)
  · exact skipped

theorem leads_toFunction (c : Cursor) : c.Leads c.toFunction :=
  c.leads_advance.trans (leads_skipWhile _ _ _)

end Cursor

namespace Parser

variable {α β : Type}

/-- A parser that only moves on. -/
class Keeps (p : Parser α) : Prop where
  leads : ∀ c : Cursor, c.Leads (p c).2

theorem bind_apply (p : Parser α) (f : α → Parser β) (c : Cursor) :
    (p >>= f) c = match p c with
      | (.ok a, c) => f a c
      | (.error e, c) => (.error e, c) := by
  change (ExceptT.bind p f) c = _
  simp only [ExceptT.bind, ExceptT.mk, bind, StateT.bind]
  cases p c with
  | mk r c => cases r <;> rfl

/-! ## Small steps -/

section
variable {p : Parser α} {f : α → Parser β}

instance (a : α) : Keeps (pure a : Parser α) := ⟨.refl⟩

instance [Keeps p] [∀ a, Keeps (f a)] : Keeps (p >>= f) where
  leads c := by
    have first := Keeps.leads (p := p) c
    rw [bind_apply]
    rcases h : p c with ⟨_ | a, d⟩ <;> rw [h] at first
    · exact first
    · exact first.trans (Keeps.leads (p := f a) d)

theorem Keeps.bind [Keeps p] (h : ∀ a, Keeps (f a)) : Keeps (p >>= f) := inferInstance

instance [Keeps p] (f : α → β) : Keeps (f <$> p) := by
  rw [← bind_pure_comp]
  infer_instance

instance (e : SyntaxError) : Keeps (throw e : Parser α) := ⟨.refl⟩

instance {c : Prop} [Decidable c] {q : Parser α} [Keeps p] [Keeps q] :
    Keeps (if c then p else q) := by
  split <;> infer_instance

instance (f : Cursor → α) : Keeps (look f) := ⟨.refl⟩

instance : Keeps advance := ⟨Cursor.leads_advance⟩

instance (expected : List Token) : Keeps (unexpected expected : Parser α) := ⟨.refl⟩

instance (e : SyntaxError) : Keeps (move (·.record e)) := ⟨fun c => c.leads_record e⟩

instance : Keeps (move (·.advance)) := ⟨Cursor.leads_advance⟩

instance : Keeps (move (·.toStatementBoundary)) := ⟨Cursor.leads_toStatementBoundary⟩

instance : Keeps (move (·.toFunction)) := ⟨Cursor.leads_toFunction⟩

instance : Keeps freshId := ⟨fun _ => ⟨rfl, Nat.le_refl _, List.suffix_rfl⟩⟩

instance (t : Token) : Keeps (eat t) where
  leads c := by
    unfold eat
    split
    · exact c.leads_advance
    · exact .refl c

instance (t : Token) : Keeps (expect t) where
  leads c := by
    unfold expect
    split
    · exact c.leads_advance
    · exact .refl c

instance : Keeps ident where
  leads c := by
    unfold ident
    split
    · exact c.leads_advance
    · exact .refl c

instance : Keeps property where
  leads c := by
    unfold property
    split
    · exact c.leads_advance
    · exact Keeps.leads (p := ident) c

instance : Keeps ident? where
  leads c := by
    unfold ident?
    split
    · exact c.leads_advance
    · exact .refl c

instance (name : String) : Keeps (noRoom name : Parser α) := ⟨.refl⟩

instance [Keeps p] (name : String) : Keeps (nested name p) where
  leads c := by
    unfold nested enter
    cases Limit.enter name c.span c.depth with
    | error e => exact .refl c
    | ok depth =>
      have inner := Keeps.leads (p := p) { c with depth }
      exact ⟨inner.tokens, inner.pos, inner.recorded⟩

instance [Keeps p] : Keeps (attempt p) := ⟨fun c => Keeps.leads (p := p) c⟩

instance [Keeps p] (suggestion : String) : Keeps (suggesting suggestion p) where
  leads c := by
    have inner := Keeps.leads (p := p) c
    unfold suggesting
    split
    · rename_i e d run
      rw [run] at inner
      exact inner
    · exact inner

instance [Keeps p] (n : Nat) : Keeps (commaList p n) := by
  induction n with
  | zero => unfold commaList; infer_instance
  | succ n ih => unfold commaList; infer_instance

instance [Keeps p] : Keeps (untilParen p) := by
  unfold untilParen
  infer_instance

instance [Keeps p] (t : Token) : Keeps (unlessAt t p) := by
  unfold unlessAt
  infer_instance

end
end Parser

/-! ## The grammar -/

/-- The parsers for what lies deeper only move on. -/
class Deeper.Keeps (d : Deeper) : Prop where
  expression : Parser.Keeps d.expression
  unary : Parser.Keeps d.unary
  statement : Parser.Keeps d.statement

attribute [instance] Deeper.Keeps.expression Deeper.Keeps.unary Deeper.Keeps.statement

namespace Parser

section
variable {d : Deeper} [d.Keeps]

instance (ends : List Token) (n : Nat) (done : List Statement) :
    Keeps (statements d ends n done) := by
  induction n generalizing done with
  | zero => unfold statements; infer_instance
  | succ n ih =>
    unfold statements
    refine .bind fun ended => ?_
    split
    · infer_instance
    · refine .bind fun start => .bind fun r => ?_
      split <;> infer_instance

instance : Keeps (block d) := by
  unfold block
  infer_instance

instance (named : Bool) : Keeps (function d named) := by
  unfold function
  infer_instance

instance : Keeps (primary d) := by
  unfold primary
  refine .bind fun start => .bind fun token => ?_
  split <;> infer_instance

instance (n : Nat) (e : Expr) : Keeps (suffixes d n e) := by
  induction n generalizing e with
  | zero => unfold suffixes; infer_instance
  | succ n ih =>
    unfold suffixes
    refine .bind fun token => ?_
    split <;> infer_instance

instance : Keeps (unary d) := by
  unfold unary
  refine .bind fun start => .bind fun token => ?_
  split <;> infer_instance

instance {right : Precedence → Parser Expr} [∀ level, Keeps (right level)] (least : Precedence)
    (n : Nat) (left : Expr) : Keeps (operators right least n left) := by
  induction n generalizing left with
  | zero => unfold operators; infer_instance
  | succ n ih =>
    unfold operators
    refine .bind fun token => ?_
    split <;> infer_instance

instance (levels : Nat) (least : Precedence) : Keeps (climb d levels least) := by
  induction levels generalizing least with
  | zero => unfold climb; infer_instance
  | succ levels ih => unfold climb; infer_instance

instance (declarations : Bool) : Keeps (simple d declarations) := by
  unfold simple
  infer_instance

instance : Keeps (condition d) := by
  unfold condition
  infer_instance

instance : Keeps (branch d) := by
  unfold branch
  infer_instance

instance (n : Nat) (done : List Arm) (otherwise : Option Block) :
    Keeps (arms d n done otherwise) := by
  induction n generalizing done otherwise with
  | zero => unfold arms; infer_instance
  | succ n ih => unfold arms; infer_instance

instance : Keeps (switch d) := by
  unfold switch
  infer_instance

instance (first : Token) : Keeps (headAndBody d first) := by
  unfold headAndBody
  split <;> infer_instance

instance (label : Option Ident) (start : Span) : Keeps (loop d label start) := by
  unfold loop
  infer_instance

omit [d.Keeps] in
instance (kind : JumpKind) : Keeps (jump kind) := by
  unfold jump
  infer_instance

instance : Keeps (labelled d) := by
  unfold labelled
  infer_instance

instance : Keeps (simpleLine d) := by
  unfold simpleLine
  infer_instance

instance : Keeps (statement d) := by
  unfold statement
  refine .bind fun start => .bind fun token => ?_
  split <;> infer_instance

end
end Parser

namespace Deeper

instance keeps_levels (n : Nat) : (levels n).Keeps := by
  induction n with
  | zero =>
    unfold levels none
    exact ⟨inferInstance, inferInstance, inferInstance⟩
  | succ n ih =>
    unfold levels Parser.binary
    exact ⟨inferInstance, inferInstance, inferInstance⟩

instance : Keeps all := keeps_levels Limit.nesting

end Deeper

instance Parser.keeps_functions (n : Nat) (done : List Func) : Keeps (functions n done) := by
  induction n generalizing done with
  | zero => unfold functions; infer_instance
  | succ n ih =>
    unfold functions
    refine .bind fun ends => ?_
    split
    · infer_instance
    · refine .bind fun r => ?_
      split <;> infer_instance

end WaitDefer
