import WaitDefer.Proofs.Grammar.Layout
import WaitDefer.Proofs.Grammar.Operators

/-!
# Printed statements

The text of a statement is read as that statement, whatever may follow it:

* `Statement.ReadsBack`, `Block.ReadsBack`: code whose layout is read as code of its shape;
* `StatementKind.readsBack_of_parts`: a statement is read back if its parts are;
* `Func.readsBack`: a printable function is read back.
-/

namespace WaitDefer

open Piece

/-! ## Tokens of a layout -/

theorem Piece.tokens_newline (ps : List Piece) : tokens (newline :: ps) = tokens ps := rfl

theorem Piece.tokens_indent (level : Nat) (ps : List Piece) :
    tokens (indent level :: ps) = tokens ps := rfl

theorem Piece.tokens_braces (level : Nat) (lines : List Piece) :
    tokens (braces level lines) =
      .sym .leftBrace :: (tokens lines ++ [.sym .rightBrace]) := by
  cases lines with
  | nil => rfl
  | cons p ps =>
    simp only [braces, List.isEmpty_cons, Bool.false_eq_true, if_false, tokens_sym, tokens_newline,
      tokens_append, tokens_indent, tokens_nil]

theorem Block.tokens_pieces (b : Block) (level : Nat) : tokens (b.pieces level) =
    .sym .leftBrace :: (tokens (Statement.listPieces (level + 1) b.statements) ++
      [.sym .rightBrace]) := by
  rw [b.pieces_eq, tokens_braces]

/-- The tokens of a statement where statements follow each other. -/
def StatementKind.lineTokens (level : Nat) (kind : StatementKind) : List Token :=
  tokens (kind.pieces level) ++ tokens kind.ending

theorem Statement.tokens_listPieces (level : Nat) (s : Statement) (ss : List Statement) :
    tokens (Statement.listPieces level (s :: ss)) =
      s.kind.lineTokens level ++ tokens (Statement.listPieces level ss) := by
  obtain ⟨id, kind, span⟩ := s
  simp only [listPieces, linePieces, tokens_append, List.cons_append, tokens_indent,
    tokens_newline, List.append_assoc, List.nil_append, StatementKind.lineTokens]

theorem Arm.tokens_listPieces (level : Nat) (a : Arm) (arms : List Arm) :
    tokens (Arm.listPieces level (a :: arms)) = .word .case :: (tokens (a.test.pieces level) ++
      (.sym .colon :: (tokens (Statement.listPieces (level + 1) a.body.statements) ++
        tokens (Arm.listPieces level arms)))) := by
  obtain ⟨test, ⟨id, ss, _⟩, span⟩ := a
  simp only [listPieces, tokens_append, tokens_indent, tokens_word, tokens_space, tokens_sym,
    tokens_newline]

theorem Func.tokens_pieces (f : Func) (level : Nat) : tokens (f.pieces level) =
    .word .function :: (f.name.toList.map (fun i => .ident i.name) ++ (.sym .leftParen ::
      (Token.commas (f.params.map fun i => [.ident i.name]) ++ .sym .rightParen ::
        tokens (f.body.pieces level)))) := by
  obtain ⟨id, name, params, body, span⟩ := f
  cases name <;>
    simp only [pieces, tokens_word, tokens_space, Option.toList_none, Option.toList_some,
      List.map_cons, List.map_nil, List.cons_append, List.nil_append, tokens_name, tokens_sym,
      tokens_append, tokens_names]

/-! ## How a statement begins -/

/-- Tokens that a statement can begin with. -/
def Token.begins (t : Token) : Bool := t.opens || t.startsStatement || t == .sym .leftBrace

theorem Token.sameKind_of_begins {t t' : Token} (h : t.begins) (h' : t'.begins = false) :
    t.sameKind t' = false := by
  refine Bool.eq_false_iff.mpr fun same => ?_
  unfold sameKind at same
  split at same <;> simp_all [begins, opens]

theorem Token.begins_of_opens {t : Token} (h : t.opens) : t.begins := by
  rw [begins, h, Bool.true_or, Bool.true_or]

theorem StatementKind.starts (kind : StatementKind) (level : Nat) :
    ∃ t us, tokens (kind.pieces level) = t :: us ∧ t.begins := by
  cases kind with
  | declare i init => cases init <;> exact ⟨_, _, rfl, rfl⟩
  | assign target value =>
    obtain ⟨t, us, first, opens⟩ := target.starts level
    rw [pieces, tokens_append, first]
    exact ⟨_, _, rfl, Token.begins_of_opens opens⟩
  | expr value =>
    obtain ⟨t, us, first, opens⟩ := value.starts level
    exact ⟨t, us, first, Token.begins_of_opens opens⟩
  | ret value => cases value <;> exact ⟨_, _, rfl, rfl⟩
  | block body =>
    rw [pieces, Block.tokens_pieces]
    exact ⟨_, _, rfl, rfl⟩
  | branch condition yes no => cases no <;> exact ⟨_, _, rfl, rfl⟩
  | switch subject arms otherwise =>
    rcases otherwise with _ | ⟨_, _, _⟩ <;> exact ⟨_, _, rfl, rfl⟩
  | loop label head body =>
    rcases head with c | c | ⟨init, test, update⟩
    · cases label <;> exact ⟨_, _, rfl, rfl⟩
    · cases label <;> exact ⟨_, _, rfl, rfl⟩
    · rw [pieces_counting]
      cases label <;> exact ⟨_, _, rfl, rfl⟩
  | jump jump label => cases jump <;> cases label <;> exact ⟨_, _, rfl, rfl⟩
  | wait body => exact ⟨_, _, rfl, rfl⟩
  | func f =>
    obtain ⟨_, _, _, _, _⟩ := f
    exact ⟨_, _, rfl, rfl⟩

/-- What begins a statement is no token of another kind. -/
theorem StatementKind.sameKind_head (kind : StatementKind) (level : Nat) {t : Token}
    (other : t.begins = false) (rest : List Token) :
    ((tokens (kind.pieces level) ++ rest).headD .eof).sameKind t = false := by
  obtain ⟨first, us, begin, begins⟩ := kind.starts level
  rw [begin]
  exact Token.sameKind_of_begins begins other

namespace Parser

open Deeper (levels)

variable {sure : Prop} {room level : Nat} {ts rest : List Token}

/-- An expression statement or an assignment does not begin like any other statement. -/
theorem Reads.line {α : Type} {d : Deeper} {k : α → Parser Statement} {P : α → Prop}
    (opening : Token.Opening false ts) (h : Reads sure room (simpleLine d) ts k rest P) :
    Reads sure room (statement d) ts k rest P := by
  refine .step .ask fun start _ => .step .token fun t ht => ?_
  cases ts with
  | nil => exact opening.elim
  | cons first us =>
    subst ht
    cases t with
    | ident name =>
      refine .step .peek fun next hn => ?_
      have colon : us.headD .eof ≠ .sym .colon := opening
      have other : (next == some (.sym .colon)) = false :=
        beq_false_of_ne fun same => colon (Option.some.inj (hn.symm.trans same))
      rw [other]
      exact h
    | word k =>
      obtain ⟨opens, function⟩ := opening
      cases k <;> first | exact h | exact absurd (function rfl) (by decide) | cases opens
    | sym s =>
      obtain ⟨opens, -⟩ := opening
      cases s <;> first | exact h | cases opens
    | _ => exact h

/-- The next token ends what can stand in a loop's head. -/
def Stops (rest : List Token) : Prop :=
  rest.headD .eof = .sym .semicolon ∨ rest.headD .eof = .sym .rightParen

theorem Stops.ends (h : Stops rest) : Token.Ends .logicalOr rest := by
  rcases h with h | h
  · exact ⟨by rw [h]; nofun, by rw [h]; nofun, by rw [h]; rfl⟩
  · exact ⟨by rw [h]; nofun, by rw [h]; nofun, by rw [h]; rfl⟩

theorem Stops.sameKind_equal (h : Stops rest) :
    (rest.headD .eof).sameKind (.sym .equal) = false := by
  rcases h with h | h <;> rw [h] <;> rfl

theorem reads_condition {e : Expr} (h : Full sure room ts e) :
    Reads sure room (condition (levels room)) (.sym .leftParen :: (ts ++ .sym .rightParen :: rest)) pure
      rest (·.shape = e.shape) :=
  .step (.expect rfl) fun _ _ => .bind (h _ (.cons rfl)) fun _ same =>
    .step (.expect rfl) fun _ _ => .done same

theorem sees_let {e : Expr} : ((tokens (e.pieces level) ++ ts).headD .eof).sameKind
    (.word .let) = false := by
  obtain ⟨t, us, first, opens⟩ := e.starts level
  rw [first]
  exact Token.sameKind_of_opens opens rfl

/-- A declaration, an assignment or an expression, where a semicolon or parenthesis ends it. -/
theorem reads_simple {kind : StatementKind} {declarations : Bool} (own : kind.isPrintable)
    (isSimple : if declarations then kind.isSimple else kind.isUpdate)
    (full : ∀ e ∈ kind.operands, Full sure room (tokens (e.pieces level)) e) (stops : Stops rest) :
    Reads sure room (simple (levels room) declarations) (tokens (kind.pieces level) ++ rest) pure rest
      (·.shape = ⟨0, kind.shape, default⟩) := by
  refine .step .ask fun start _ => ?_
  -- what does not begin with `let` is an expression first
  have expression : ∀ (e : Expr) (us : List Token) (p q : Parser Statement),
      Reads sure room q (tokens (e.pieces level) ++ us) pure rest
        (·.shape = ⟨0, kind.shape, default⟩) →
      Reads sure room (do if ← look (·.sees (.word .let)) then p else q)
        (tokens (e.pieces level) ++ us) pure rest (·.shape = ⟨0, kind.shape, default⟩) := by
    intro e us p q h
    refine .step .sees fun isLet seen => ?_
    rw [sees_let] at seen
    subst seen
    exact h
  cases kind with
  | declare i init =>
    cases declarations with
    | false => cases isSimple
    | true =>
      refine .step .sees fun isLet seen => ?_
      have yes : isLet = true := by rw [seen]; cases init <;> rfl
      subst yes
      cases init with
      | none =>
        refine .step .advance fun _ _ => .step .freshId fun _ _ => .step .ident fun j hj => ?_
        refine .step (.leave stops.sameKind_equal) fun assigned no => ?_
        subst no
        refine .bind (P := (· = none)) (.done rfl) fun o ho => .step .ask fun span _ => .done ?_
        subst ho
        rw [Statement.shape, StatementKind.shape, Ident.shape_eq hj, StatementKind.shape]
      | some e =>
        refine .step .advance fun _ _ => .step .freshId fun _ _ => .step .ident fun j hj => ?_
        refine .step (.eat rfl) fun assigned yes => ?_
        subst yes
        refine .bind (.map (full e (by simp [StatementKind.operands]) rest stops.ends)
          (Q := fun o => ∃ a, o = some a ∧ a.shape = e.shape) fun a same => ⟨a, rfl, same⟩)
          fun o ho => .step .ask fun span _ => .done ?_
        obtain ⟨a, rfl, same⟩ := ho
        rw [Statement.shape, StatementKind.shape, Ident.shape_eq hj, same, StatementKind.shape]
  | assign target value =>
    rw [StatementKind.pieces, tokens_append, List.append_assoc]
    refine expression target _ _ _ ?_
    refine .step .freshId fun id _ => .bind (full target (by simp [StatementKind.operands]) _
      (.cons rfl)) fun t sameTarget => .step (.eat rfl) fun assigned yes => ?_
    subst yes
    have assignable : t.isAssignable := by
      rw [← Expr.isAssignable_shape, sameTarget, Expr.isAssignable_shape]
      exact own
    rw [assignable]
    refine .bind (full value (by simp [StatementKind.operands]) rest stops.ends)
      fun v same => .step .ask fun span _ => .done ?_
    rw [Statement.shape, StatementKind.shape, sameTarget, same, StatementKind.shape]
  | expr value =>
    refine expression value _ _ _ ?_
    refine .step .freshId fun id _ => .bind (full value (by simp [StatementKind.operands]) rest
      stops.ends) fun e same => .step (.leave stops.sameKind_equal) fun assigned no => ?_
    subst no
    refine .step .ask fun span _ => .done ?_
    rw [Statement.shape, StatementKind.shape, same, StatementKind.shape]
  | _ => cases declarations <;> cases isSimple

end Parser

/-! ## Statements -/

/-- A statement that is read back, surely with any room at least its own: on a line of its own, and
in the head of a loop if it may stand there. On a line that begins with a function but does not come
apart, what follows the function is refused. -/
structure Statement.ReadsBack (sure : Prop) (s : Statement) : Prop where
  line : ∀ room level rest, (sure → s.room ≤ room) → s.kind.opensWithFunction = false →
    (rest.headD .eof).sameKind (.word .else) = false →
    Parser.Reads sure room (Parser.statement (Deeper.levels room))
      (s.kind.lineTokens level ++ rest) pure rest (·.shape = s.shape)
  header : ∀ room level rest (declarations : Bool), (sure → s.room ≤ room) →
    (if declarations then s.kind.isSimple else s.kind.isUpdate) → Parser.Stops rest →
    Parser.Reads sure room (Parser.simple (Deeper.levels room) declarations)
      (tokens (s.kind.pieces level) ++ rest) pure rest (·.shape = s.shape)
  refused : ¬ sure → s.kind.opensWithFunction → s.kind.comesApart = false →
    ∀ room level ts rest ends n done, (∀ t ∈ ends, t ∈ Parser.armEnds) →
    Parser.Reads sure room (Parser.statements (Deeper.levels room) ends n done)
      (s.kind.lineTokens level ++ ts) pure rest fun _ => False

/-- A statement that can stand where statements follow each other. -/
def StatementKind.Stands (sure : Prop) (kind : StatementKind) : Prop :=
  kind.opensWithFunction = false ∨ ¬ sure ∧ kind.comesApart = false

/-- A block whose statements are read back. -/
structure Block.ReadsBack (sure : Prop) (b : Block) : Prop where
  short : b.statements.length ≤ Limit.rounds
  each : ∀ s ∈ b.statements, s.ReadsBack sure ∧ s.kind.Stands sure

namespace Parser

open Deeper (levels)

variable {sure : Prop} {room level : Nat} {rest : List Token}

theorem reads_stop {ends ts : List Token} :
    Reads sure room (look fun c => c.atEnd || ends.any c.sees) ts pure ts
      (· = (ts.headD .eof == .eof || ends.any (ts.headD .eof).sameKind)) :=
  .look fun c faces => by
    have same : c.sees = (ts.headD .eof).sameKind := by
      funext t
      rw [Cursor.sees, faces.token]
    rw [Cursor.atEnd, faces.token, same]

theorem reads_deeper {s : Statement} (h : s.ReadsBack sure)
    (plain : s.kind.opensWithFunction = false) (fits : sure → s.room + 1 ≤ room)
    (other : (rest.headD .eof).sameKind (.word .else) = false) :
    Reads sure room (levels room).statement (s.kind.lineTokens level ++ rest) pure rest
      (·.shape = s.shape) := by
  cases room with
  | zero => exact .noRoom (fun s => Nat.not_succ_le_zero _ (fits s)) _
  | succ n =>
    have below : sure → s.room ≤ n := fun s => Nat.le_of_succ_le_succ (fits s)
    exact (h.line n level rest below plain other).nested "statement"

theorem begins_armEnds : ∀ t ∈ armEnds, t.begins = false := by decide

/-! ### Lines that are refused -/

section
variable {s : Symbol} {ts ends : List Token} {done : List Statement} (unsure : ¬ sure)
include unsure

/-- Where no expression begins, none is read. -/
theorem refuses_expression {t : Token} (other : t.opens = false) :
    Reads sure room (levels room).expression (t :: ts) pure rest fun _ => False := by
  cases room with
  | zero => exact .noRoom unsure _
  | succ n =>
    have noPrimary : Reads sure n (primary (levels n)) (t :: ts) pure [] fun _ => False := by
      refine .step .ask fun start _ => .step .token fun t' ht => ?_
      subst ht
      split
      case h_10 => exact .lost unsure fun _ _ => .inl ⟨_, rfl⟩
      all_goals simp_all [Token.opens]
    have noUnary : Reads sure n (unary (levels n)) (t :: ts) pure [] fun _ => False := by
      refine .step .ask fun start _ => .step .token fun t' ht => ?_
      have plain : unaryOp? t' = none := by
        subst ht
        unfold unaryOp?
        split <;> first | rfl | cases other
      rw [plain]
      exact .halt noPrimary
    have noBinary : Reads sure n (binary (levels n)) (t :: ts) pure rest fun _ => False  :=
      .halt noUnary
    exact noBinary.nested "expression"

/-- Where no statement begins, none is read. -/
theorem refuses_statement (other : (Token.sym s).begins = false) :
    Reads sure room (levels room).statement (.sym s :: ts) pure rest fun _ => False := by
  cases room with
  | zero => exact .noRoom unsure _
  | succ n =>
    have closed : (Token.sym s).opens = false := by
      refine Bool.eq_false_iff.mpr fun opens => ?_
      rw [Token.begins_of_opens opens] at other
      cases other
    have noLine : Reads sure n (simpleLine (levels n)) (.sym s :: ts) pure rest
        fun _ => False := by
      refine .step .ask fun _ _ => .halt ?_
      refine .step .ask fun _ _ => .step .sees fun isLet seen => ?_
      subst seen
      exact .step .freshId fun _ _ => .halt (refuses_expression unsure closed)
    refine .nested (.step .ask fun start _ => .step .token fun t ht => ?_) "statement"
    subst ht
    cases s <;> first | exact noLine | cases other

theorem refuses_statements (other : (Token.sym s).begins = false) (inside : s ≠ .rightBrace)
    (inner : ∀ t ∈ ends, t ∈ armEnds) (n : Nat) :
    Reads sure room (statements (levels room) ends n done) (.sym s :: ts) pure rest
      fun _ => False := by
  rw [statements.eq_def]
  refine .step reads_stop fun closed here => ?_
  have no : closed = false := by
    have apart : ∀ e ∈ armEnds, (Token.sym s).sameKind e = false := by
      cases s <;> first | exact absurd rfl inside | decide
    rw [here, Bool.or_eq_false_iff]
    exact ⟨rfl, List.any_eq_false.mpr fun e he => by simp [apart e (inner e he)]⟩
  subst no
  cases n with
  | zero => exact .step .ask fun span _ => .lost unsure fun _ _ => .inl ⟨_, rfl⟩
  | succ n =>
    have never : Reads sure room (levels room).statement (.sym s :: ts) pure [] fun _ => False :=
      refuses_statement unsure other
    exact .step .ask fun start _ => .attempt never
      (fun a => inferInstanceAs (Parser.Keeps (statements (levels room) ends n (a :: done))))
      (fun e c => recorded_record e c) fun _ h => h.elim

/-- Where a line begins with a function, that is taken for a declaration. -/
theorem reads_declared {f : Func} (h : f.ReadsBack sure) :
    Reads sure room (levels room).statement (tokens (f.pieces level) ++ rest) pure rest
      fun _ => f.name.isSome := by
  cases room with
  | zero => exact .noRoom unsure _
  | succ n =>
    have whole : Reads sure n (function (levels n) true) (tokens (f.pieces level) ++ rest) pure rest
        fun _ => f.name.isSome := by
      cases name : f.name with
      | some i =>
        exact (h n level rest true (fun s => absurd s unsure) fun _ => by rw [name]; rfl).weaken
          fun _ _ => rfl
      | none =>
        rw [Func.tokens_pieces, name]
        refine .step .ask fun start _ => .step (.expect rfl) fun _ _ => .step .freshId fun id _ => ?_
        refine .step (.noIdent (by rintro _ ⟨⟩)) fun o ho => ?_
        subst ho
        exact .halt (.lost unsure fun _ _ => .inl ⟨_, rfl⟩)
    refine .nested (.step .ask fun start _ => .step .token fun t ht => ?_) "statement"
    have first : t = .word .function := by rw [ht, Func.tokens_pieces]; rfl
    subst first
    exact .step .freshId fun id _ => .bind whole fun g named => .done named

/-- **A line that begins with a function** and does not come apart is refused. -/
theorem refuses_line {value : Expr} (h : value.ReadsBack sure) (opens : value.opensWithFunction)
    (whole : value.comesApart = false) (inner : ∀ t ∈ ends, t ∈ armEnds) (n : Nat) :
    Reads sure room (statements (levels room) ends n done)
      (tokens (value.pieces level) ++ .sym .semicolon :: ts) pure rest fun _ => False := by
  obtain ⟨f, hf⟩ := Option.isSome_iff_exists.mp (value.isSome_opener.trans opens)
  obtain ⟨tail, split, next⟩ := value.tokens_opener hf level
  rw [split, List.append_assoc, statements.eq_def]
  refine .step reads_stop fun closed here => ?_
  have no : closed = false := by
    rw [here, Func.tokens_pieces, List.cons_append, List.headD_cons, Bool.or_eq_false_iff]
    refine ⟨rfl, List.any_eq_false.mpr fun e he => ?_⟩
    have apart : ∀ e ∈ armEnds, (Token.word .function).sameKind e = false := by decide
    simp [apart e (inner e he)]
  subst no
  cases n with
  | zero => exact .step .ask fun span _ => .lost unsure fun _ _ => .inl ⟨_, rfl⟩
  | succ n =>
    refine .step .ask fun start _ => .attempt (reads_declared unsure (h.opener f hf))
      (fun a => inferInstanceAs (Parser.Keeps (statements (levels room) ends n (a :: done))))
      (fun e c => recorded_record e c) fun a named => ?_
    obtain ⟨rfl, rfl⟩ | ⟨op, us, rfl, apart⟩ := next
    · exact refuses_statements unsure (s := .semicolon) rfl nofun inner n
    · have other : op ≠ .subtract := fun minus => by
        rw [apart minus named] at whole
        cases whole
      have unbegun : (Token.sym op.symbol).begins = false := by
        cases op <;> first | rfl | exact absurd rfl other
      exact refuses_statements unsure unbegun (by cases op <;> nofun) inner n

end

/-- The statements of a block, up to a token that ends them. -/
theorem reads_statements {ends : List Token} {ss : List Statement}
    (each : ∀ s ∈ ss, s.ReadsBack sure ∧ s.kind.Stands sure)
    (fits : ∀ s ∈ ss, sure → s.room + 1 ≤ room) (inner : ∀ t ∈ ends, t ∈ armEnds)
    (stop : ends.any (rest.headD .eof).sameKind)
    (other : (rest.headD .eof).sameKind (.word .else) = false) (n : Nat) (short : ss.length ≤ n)
    (done : List Statement) :
    Reads sure room (statements (levels room) ends n done)
      (tokens (Statement.listPieces level ss) ++ rest) pure rest fun r =>
        ∃ as, r = done.reverse ++ as ∧ List.Forall₂ (fun s a => a.shape = s.shape) ss as := by
  induction ss generalizing n done with
  | nil =>
    rw [statements.eq_def]
    refine .step reads_stop fun closed here => ?_
    have yes : closed = true := by rw [here, Bool.or_eq_true]; exact .inr stop
    subst yes
    exact .done ⟨[], (List.append_nil _).symm, .nil⟩
  | cons s ss ih =>
    obtain ⟨readsBack, stands⟩ := each s List.mem_cons_self
    by_cases opens : s.kind.opensWithFunction
    · obtain ⟨unsure, apart⟩ := stands.resolve_left (by simp [opens])
      rw [Statement.tokens_listPieces, List.append_assoc]
      exact (readsBack.refused unsure opens apart room level _ _ ends n done inner).weaken fun _ h => h.elim
    have plain : s.kind.opensWithFunction = false := Bool.eq_false_iff.mpr opens
    obtain ⟨t, us, first, begins⟩ := s.kind.starts level
    rw [Statement.tokens_listPieces, List.append_assoc]
    rw [statements.eq_def]
    refine .step reads_stop fun closed here => ?_
    have no : closed = false := by
      rw [here, StatementKind.lineTokens, first, List.cons_append, List.cons_append,
        List.headD_cons, Bool.or_eq_false_iff]
      refine ⟨beq_false_of_ne ?_, List.any_eq_false.mpr fun e he => ?_⟩
      · rintro rfl
        cases begins
      · rw [Token.sameKind_of_begins begins (begins_armEnds e (inner e he))]
        exact Bool.false_ne_true
    subst no
    cases n with
    | zero => cases short
    | succ n =>
      have next : ((tokens (Statement.listPieces level ss) ++ rest).headD .eof).sameKind
          (.word .else) = false := by
        cases ss with
        | nil => exact other
        | cons s' ss =>
          rw [Statement.tokens_listPieces, StatementKind.lineTokens, List.append_assoc,
            List.append_assoc]
          exact s'.kind.sameKind_head level rfl _
      refine .step .ask fun start _ => .attempt (reads_deeper readsBack plain
        (fits s List.mem_cons_self) next) (fun a =>
          inferInstanceAs (Parser.Keeps (statements (levels room) ends n (a :: done))))
        (fun e c => recorded_record e c) fun a same => ?_
      refine (ih (fun s hs => each s (List.mem_cons_of_mem _ hs))
        (fun s hs => fits s (List.mem_cons_of_mem _ hs)) n (Nat.le_of_succ_le_succ short)
        (a :: done)).weaken fun r hr => ?_
      obtain ⟨as, rfl, all⟩ := hr
      exact ⟨a :: as, by simp, .cons same all⟩

end Parser

namespace Parser

open Deeper (levels)

variable {sure : Prop} {room level : Nat} {rest : List Token}

/-- The statements of a block up to one of the tokens that end it. -/
theorem reads_body {b : Block} {ends : List Token} (h : b.ReadsBack sure) (fits : sure → b.room ≤ room)
    (inner : ∀ t ∈ ends, t ∈ armEnds) (stop : ends.any (rest.headD .eof).sameKind)
    (other : (rest.headD .eof).sameKind (.word .else) = false) :
    Reads sure room (statements (levels room) ends Limit.rounds [])
      (tokens (Statement.listPieces level b.statements) ++ rest) pure rest
      (Statement.listShape · = Statement.listShape b.statements) := by
  have room : ∀ s ∈ b.statements, sure → s.room + 1 ≤ room := fun s hs certain =>
    (Block.room_statement hs).trans (fits certain)
  refine (reads_statements h.each room inner stop other _ h.short []).weaken fun r hr => ?_
  obtain ⟨as, rfl, same⟩ := hr
  exact Statement.listShape_eq same

theorem reads_block {b : Block} (h : b.ReadsBack sure) (fits : sure → b.room ≤ room) :
    Reads sure room (block (levels room)) (tokens (b.pieces level) ++ rest) pure rest
      (·.shape = b.shape) := by
  rw [Block.tokens_pieces, List.cons_append, List.append_assoc]
  refine .step .ask fun start _ => .step (.expect rfl) fun _ _ => .step .freshId fun id _ => ?_
  refine .bind (reads_body h fits (by decide) rfl rfl) fun ss same => ?_
  refine .step (.expect rfl) fun _ _ => .step .ask fun span _ => .done ?_
  obtain ⟨_, _, _⟩ := b
  rw [Block.shape, same, Block.shape]

end Parser

theorem Parser.reads_ident? {sure : Prop} {room : Nat} (name : Option Ident) (rest : List Token) (s : Symbol) :
    Reads sure room ident? (name.toList.map (fun i => .ident i.name) ++ .sym s :: rest) pure
      (.sym s :: rest) (·.map Ident.shape = name.map Ident.shape) := by
  cases name with
  | none => exact (Reads.noIdent (by rintro _ ⟨⟩)).weaken fun o ho => by rw [ho]
  | some i =>
    refine Reads.someIdent.weaken fun o ho => ?_
    obtain ⟨j, rfl, hj⟩ := ho
    rw [Option.map_some, Option.map_some, Ident.shape_eq hj]

/-- A function is read back if its body is. -/
theorem Func.readsBack_of_body {sure : Prop} {f : Func} (h : f.body.ReadsBack sure) : f.ReadsBack sure := by
  intro room level rest named fits hasName
  have inner : sure → f.body.room ≤ room := by obtain ⟨_, _, _, _, _⟩ := f; exact fits
  rw [f.tokens_pieces]
  simp only [List.cons_append, List.append_assoc]
  refine .step .ask fun start _ => .step (.expect rfl) fun _ _ => .step .freshId fun id _ => ?_
  refine .step (Parser.reads_ident? f.name _ _) fun name sameName => ?_
  have allowed : (named && name.isNone) = false := by
    have same : name.isNone = f.name.isNone := by
      rw [← Option.isNone_map (f := Ident.shape), sameName, Option.isNone_map]
    rw [same]
    cases named with
    | false => rfl
    | true =>
      rw [Bool.true_and, Option.isNone_eq_false_iff]
      exact hasName rfl
  rw [allowed]
  refine .step (.expect rfl) fun _ _ => ?_
  refine .bind (.untilParen (R := fun i j => j.name = i.name) (fun i _ rest _ => .ident)
    fun i _ => ⟨_, _, rfl, rfl⟩) fun params sameParams => ?_
  refine .bind (Parser.reads_block h inner) fun body sameBody => .done ?_
  obtain ⟨_, _, _, _, _⟩ := f
  rw [shape, sameName, Ident.map_shape sameParams, sameBody, shape]

/-! ## Switches -/

/-- The tokens of the arm for all other values. -/
def Block.defaultTokens (level : Nat) : Option Block → List Token
  | some b => .word .default :: .sym .colon :: tokens (Statement.listPieces level b.statements)
  | none => []

theorem StatementKind.tokens_switch (level : Nat) (subject : Expr) (arms : List Arm)
    (otherwise : Option Block) : tokens ((switch subject arms otherwise).pieces level) =
      .word .switch :: .sym .leftParen :: (tokens (subject.pieces level) ++ .sym .rightParen ::
        .sym .leftBrace :: (tokens (Arm.listPieces (level + 1) arms) ++
          (Block.defaultTokens (level + 2) otherwise ++ [.sym .rightBrace]))) := by
  rcases otherwise with _ | ⟨_, _, _⟩ <;>
    simp only [pieces, tokens_word, tokens_space, tokens_sym, tokens_append, tokens_newline,
      tokens_indent, tokens_nil, Block.defaultTokens, List.cons_append, List.nil_append]

namespace Parser

open Deeper (levels)

variable {sure : Prop} {room level : Nat} {rest : List Token}

/-- What may follow an arm. -/
theorem starts_arms (level level' : Nat) (arms : List Arm) (otherwise : Option Block)
    (rest : List Token) : ∃ t us, tokens (Arm.listPieces level arms) ++
      (Block.defaultTokens level' otherwise ++ .sym .rightBrace :: rest) = t :: us ∧
        t ∈ armEnds := by
  cases arms with
  | nil => cases otherwise <;> exact ⟨_, _, rfl, by decide⟩
  | cons a arms =>
    rw [Arm.tokens_listPieces]
    exact ⟨_, _, rfl, by decide⟩

theorem reads_arm_body {b : Block} {t : Token} {us : List Token} (h : b.ReadsBack sure)
    (fits : sure → b.room ≤ room) (next : rest = t :: us) (ends : t ∈ armEnds) :
    Reads sure room (statements (levels room) armEnds Limit.rounds [])
      (tokens (Statement.listPieces level b.statements) ++ rest) pure rest
      (Statement.listShape · = Statement.listShape b.statements) := by
  have closes : ∀ t ∈ armEnds, armEnds.any t.sameKind ∧ t.sameKind (.word .else) = false := by
    decide
  subst next
  exact reads_body h fits (fun _ h => h) (closes t ends).1 (closes t ends).2

theorem reads_armsStop {ts : List Token} :
    Reads sure room (look fun c => c.sees (.sym .rightBrace) || c.atEnd) ts pure ts
      (· = ((ts.headD .eof).sameKind (.sym .rightBrace) || ts.headD .eof == .eof)) :=
  .look fun c faces => by rw [Cursor.sees, Cursor.atEnd, faces.token]

theorem reads_armsEnd {n : Nat} {done : List Arm} {otherwise : Option Block} :
    Reads sure room (arms (levels room) n done otherwise) (.sym .rightBrace :: rest) pure
      (.sym .rightBrace :: rest) (· = (done.reverse, otherwise)) := by
  rw [arms.eq_def]
  refine .step reads_armsStop fun closed here => ?_
  subst here
  exact .done rfl

/-- The arm for all other values, which stands last. -/
theorem reads_otherwise {otherwise : Option Block}
    (h : ∀ b ∈ otherwise, b.ReadsBack sure ∧ (sure → b.room ≤ room)) (n : Nat)
    (short : otherwise.toList.length ≤ n) (done : List Arm) :
    Reads sure room (arms (levels room) n done none)
      (Block.defaultTokens level otherwise ++ .sym .rightBrace :: rest) pure
      (.sym .rightBrace :: rest)
      fun r => r.1 = done.reverse ∧ r.2.map Block.shape = otherwise.map Block.shape := by
  cases otherwise with
  | none => exact reads_armsEnd.weaken fun r hr => by rw [hr]; exact ⟨rfl, rfl⟩
  | some b =>
    obtain ⟨readsBack, fits⟩ := h b rfl
    obtain ⟨m, rfl⟩ : ∃ m, n = m + 1 := Nat.exists_eq_succ_of_ne_zero (by rintro rfl; cases short)
    rw [arms.eq_def, Block.defaultTokens, List.cons_append, List.cons_append]
    refine .step reads_armsStop fun closed here => ?_
    subst here
    refine .step .ask fun start _ => .step (.leave rfl) fun isCase no => ?_
    subst no
    refine .step (.eat rfl) fun isDefault yes => ?_
    subst yes
    refine .step (.expect rfl) fun _ _ => .step .freshId fun id _ => ?_
    refine .bind (reads_arm_body readsBack fits rfl (by decide)) fun ss same => ?_
    refine .step .ask fun span _ => reads_armsEnd.weaken fun r hr => ?_
    subst hr
    obtain ⟨_, _, _⟩ := b
    refine ⟨rfl, ?_⟩
    rw [Option.map_some, Option.map_some, Block.shape, same, Block.shape]

/-- The arms of a switch, up to its closing brace. -/
theorem reads_arms {as : List Arm} {otherwise : Option Block}
    (tests : ∀ a ∈ as, Full sure room (tokens (a.test.pieces level)) a.test)
    (bodies : ∀ a ∈ as, a.body.ReadsBack sure ∧ (sure → a.body.room ≤ room))
    (last : ∀ b ∈ otherwise, b.ReadsBack sure ∧ (sure → b.room ≤ room)) (n : Nat)
    (short : as.length + otherwise.toList.length ≤ n) (done : List Arm) :
    Reads sure room (arms (levels room) n done none) (tokens (Arm.listPieces level as) ++
      (Block.defaultTokens (level + 1) otherwise ++ .sym .rightBrace :: rest)) pure
      (.sym .rightBrace :: rest) fun r =>
        (∃ bs, r.1 = done.reverse ++ bs ∧ Arm.listShape bs = Arm.listShape as) ∧
          r.2.map Block.shape = otherwise.map Block.shape := by
  induction as generalizing n done with
  | nil =>
    refine (reads_otherwise last n (by simpa using short) done).weaken fun r hr => ?_
    exact ⟨⟨[], by rw [hr.1, List.append_nil], rfl⟩, hr.2⟩
  | cons a as ih =>
    obtain ⟨m, rfl⟩ : ∃ m, n = m + 1 := Nat.exists_eq_succ_of_ne_zero (by rintro rfl; simp at short)
    obtain ⟨t, us, next, ends⟩ := starts_arms level (level + 1) as otherwise rest
    obtain ⟨body, fits⟩ := bodies a List.mem_cons_self
    rw [Arm.tokens_listPieces]
    simp only [List.cons_append, List.append_assoc]
    rw [arms.eq_def]
    refine .step reads_armsStop fun closed here => ?_
    subst here
    refine .step .ask fun start _ => .step (.eat rfl) fun isCase yes => ?_
    subst yes
    refine .bind (tests a List.mem_cons_self _ (.cons rfl)) fun test sameTest => ?_
    refine .step (.expect rfl) fun _ _ => .step .freshId fun id _ => ?_
    refine .bind (reads_arm_body body fits next ends) fun ss sameBody => .step .ask fun span _ => ?_
    refine (ih (fun x hx => tests x (List.mem_cons_of_mem _ hx))
      (fun x hx => bodies x (List.mem_cons_of_mem _ hx)) m ?_ _).weaken fun r hr => ?_
    · rw [List.length_cons] at short
      omega
    · obtain ⟨⟨bs, split, same⟩, sameLast⟩ := hr
      refine ⟨⟨⟨test, ⟨id, ss, span⟩, span⟩ :: bs, by simp [split], ?_⟩, sameLast⟩
      obtain ⟨_, ⟨_, _, _⟩, _⟩ := a
      rw [Arm.listShape, Arm.listShape, sameTest, Block.shape, sameBody, same, Block.shape]

end Parser

/-! ## Loops -/

section
variable (level : Nat) (condition : Expr) (init update : Option Statement) (test : Option Expr)
  (body : Block)

theorem StatementKind.tokens_while :
    tokens ((loop none (.whileDo condition) body).pieces level) =
      .word .while :: .sym .leftParen :: (tokens (condition.pieces level) ++ .sym .rightParen ::
        tokens (body.pieces level)) := by
  rw [pieces, labelOf, List.nil_append, tokens_word, tokens_space, tokens_sym, tokens_append,
    tokens_sym, tokens_space]

theorem StatementKind.tokens_do :
    tokens ((loop none (.doWhile condition) body).pieces level) =
      .word .do :: (tokens (body.pieces level) ++ .word .while :: .sym .leftParen ::
        (tokens (condition.pieces level) ++ [.sym .rightParen, .sym .semicolon])) := by
  rw [pieces, labelOf, List.nil_append, tokens_word, tokens_space, tokens_append, tokens_space,
    tokens_word, tokens_space, tokens_sym, tokens_append]
  rfl

theorem StatementKind.tokens_for :
    tokens ((loop none (.counting init test update) body).pieces level) =
      .word .for :: .sym .leftParen :: (tokens (ofOption (fun s => s.kind.pieces level) init) ++
        .sym .semicolon :: (tokens (ofOption (fun e => e.pieces level) test) ++
          .sym .semicolon :: (tokens (ofOption (fun s => s.kind.pieces level) update) ++
            .sym .rightParen :: tokens (body.pieces level)))) := by
  have spaced : ∀ {α : Type} (layout : α → List Piece) (o : Option α),
      tokens (ofOption (fun a => space :: layout a) o) = tokens (ofOption layout o) := by
    intro α layout o
    cases o <;> rfl
  rw [pieces_counting, labelOf, List.nil_append, tokens_word, tokens_space, tokens_sym,
    tokens_append, tokens_sym, tokens_append, tokens_sym, tokens_append, tokens_sym, tokens_space,
    spaced, spaced fun s : Statement => s.kind.pieces level]

end

theorem StatementKind.tokens_loop (level : Nat) (label : Option Ident) (head : LoopHead)
    (body : Block) : tokens ((loop label head body).pieces level) =
      tokens (labelOf label) ++ tokens ((loop none head body).pieces level) := by
  rcases head with c | c | ⟨init, test, update⟩
  · simp only [pieces, tokens_append, labelOf, List.nil_append]
  · simp only [pieces, tokens_append, labelOf, List.nil_append]
  · simp only [pieces_counting, tokens_append, labelOf, List.nil_append]

namespace Parser

open Deeper (levels)

variable {sure : Prop} {room level : Nat} {rest : List Token}

/-- A part that may be missing, before a token that cannot begin it. -/
theorem reads_unlessAt {α : Type} {t : Token} {p : Parser α} {o : Option α} (shape : α → α)
    {layout : α → List Piece} (absent : (rest.headD .eof).sameKind t)
    (starts : ∀ a ∈ o, ((tokens (layout a) ++ rest).headD .eof).sameKind t = false)
    (reads : ∀ a ∈ o, Reads sure room p (tokens (layout a) ++ rest) pure rest
      (fun a' => shape a' = shape a)) :
    Reads sure room (unlessAt t p) (tokens (ofOption layout o) ++ rest) pure rest
      (fun o' => o'.map shape = o.map shape) := by
  refine .step .sees fun here h => ?_
  cases o with
  | none =>
    have yes : here = true := h.trans absent
    subst yes
    exact .done rfl
  | some a =>
    have no : here = false := h.trans (starts a rfl)
    subst no
    exact .map (reads a rfl) fun a' same => by rw [Option.map_some, Option.map_some, same]

/-- The head and the body of a loop, after its first word. -/
theorem reads_headAndBody {head : LoopHead} {body : Block}
    (own : (StatementKind.loop none head body).isPrintable)
    (tests : ∀ e ∈ head.test?, Full sure room (tokens (e.pieces level)) e)
    (headers : ∀ s ∈ head.statements, s.ReadsBack sure ∧ (sure → s.room ≤ room))
    (inner : body.ReadsBack sure) (fits : sure → body.room ≤ room) (rest : List Token) :
    ∃ t us, tokens ((StatementKind.loop none head body).pieces level) = t :: us ∧ startsLoop t ∧
      Reads sure room (headAndBody (levels room) t) (us ++ rest) pure rest fun r =>
        r.1.shape = head.shape ∧ r.2.shape = body.shape := by
  cases head with
  | whileDo condition =>
    refine ⟨_, _, StatementKind.tokens_while level condition body, rfl, ?_⟩
    simp only [List.cons_append, List.append_assoc]
    refine .bind (reads_condition (tests condition rfl)) fun test sameTest => ?_
    refine .bind (reads_block inner fits) fun b sameBody => .done ⟨?_, sameBody⟩
    rw [LoopHead.shape, sameTest, LoopHead.shape]
  | doWhile condition =>
    refine ⟨_, _, StatementKind.tokens_do level condition body, rfl, ?_⟩
    simp only [List.cons_append, List.append_assoc, List.nil_append]
    refine .bind (reads_block inner fits) fun b sameBody => .step (.expect rfl) fun _ _ => ?_
    refine .bind (reads_condition (tests condition rfl)) fun test sameTest => ?_
    refine .step (.expect rfl) fun _ _ => .done ⟨?_, sameBody⟩
    rw [LoopHead.shape, sameTest, LoopHead.shape]
  | counting init test update =>
    refine ⟨_, _, StatementKind.tokens_for level init update test body, rfl, ?_⟩
    simp only [List.cons_append, List.append_assoc]
    obtain ⟨simpleInit, simpleUpdate⟩ : (∀ s ∈ init, s.kind.isSimple) ∧
        ∀ s ∈ update, s.kind.isUpdate := by
      cases init <;> cases update <;> simp_all [StatementKind.isPrintable]
    refine .step (.expect rfl) fun _ _ => ?_
    refine .bind (reads_unlessAt Statement.shape rfl
      (fun s _ => s.kind.sameKind_head level rfl _) fun s hs => ?_) fun init' sameInit => ?_
    · obtain ⟨readsBack, low⟩ := headers s (List.mem_append_left _ (Option.mem_toList.mpr hs))
      exact readsBack.header room level _ true low (simpleInit s hs) (.inl rfl)
    refine .step (.expect rfl) fun _ _ => ?_
    refine .bind (reads_unlessAt Expr.shape rfl (fun e _ => ?_) fun e he => ?_)
      fun test' sameTest => ?_
    · obtain ⟨t, us, first, opens⟩ := e.starts level
      rw [first]
      exact Token.sameKind_of_opens opens rfl
    · exact tests e he _ (.cons rfl)
    refine .step (.expect rfl) fun _ _ => ?_
    refine .bind (reads_unlessAt Statement.shape rfl
      (fun s _ => s.kind.sameKind_head level rfl _) fun s hs => ?_) fun update' sameUpdate => ?_
    · obtain ⟨readsBack, low⟩ := headers s (List.mem_append_right _ (Option.mem_toList.mpr hs))
      exact readsBack.header room level _ false low (simpleUpdate s hs)
        (.inr rfl)
    refine .step (.expect rfl) fun _ _ => ?_
    refine .bind (reads_block inner fits) fun b sameBody => .done ⟨?_, sameBody⟩
    rw [LoopHead.shape_counting, LoopHead.shape_counting, sameInit, sameTest, sameUpdate]

end Parser

/-! ## Statements from their parts -/

/-- The tokens of what follows the block of an `if`. -/
def Block.elseTokens (level : Nat) : Option Block → List Token
  | some b => .word .else :: tokens (b.elsePieces level)
  | none => []

theorem StatementKind.tokens_branch (level : Nat) (condition : Expr) (yes : Block)
    (no : Option Block) : tokens ((branch condition yes no).pieces level) =
      .word .if :: .sym .leftParen :: (tokens (condition.pieces level) ++ .sym .rightParen ::
        (tokens (yes.pieces level) ++ Block.elseTokens level no)) := by
  cases no <;>
    simp only [pieces, tokens_word, tokens_space, tokens_sym, tokens_append, Block.elseTokens,
      List.append_nil]

namespace Parser

open Deeper (levels)

variable {sure : Prop} {room level : Nat} {rest : List Token} {id : NodeId} {span : Span}

/-- What follows an `else`, and how the reading goes on after it. -/
theorem reads_alternative {b : Block} {k : Option Block → Parser Statement} [∀ o, Keeps (k o)]
    (h : b.ReadsBack sure)
    (fits : sure → b.room ≤ room) (other : (rest.headD .eof).sameKind (.word .else) = false) :
    Reads sure room
      (do
        if ← look (·.sees (.word .if)) then
          let blockId ← freshId
          let s ← (levels room).statement
          k (some ⟨blockId, [s], s.span⟩)
        else
          let b ← some <$> block (levels room)
          k b)
      (tokens (b.elsePieces level) ++ rest) k rest (·.map Block.shape = some b.shape) := by
  obtain ⟨s, only, ⟨test, yes, no, kind⟩, same⟩ | same := b.elsePieces_cases level
  · have inside : s ∈ b.statements := by simp [only]
    have plain : s.kind.opensWithFunction = false := by rw [kind]; rfl
    have line : tokens (s.kind.pieces level) = s.kind.lineTokens level := by
      rw [kind, StatementKind.lineTokens]
      exact (List.append_nil _).symm
    have deeper : Reads sure room (levels room).statement (s.kind.lineTokens level ++ rest) pure rest
        (·.shape = s.shape) :=
      reads_deeper (h.each s inside).1 plain
        (fun certain => Nat.le_trans (Block.room_statement inside) (fits certain)) other
    refine .step .sees fun isIf seen => ?_
    have yes : isIf = true := by
      rw [seen, same, kind]
      cases no <;> rfl
    subst yes
    rw [same, line]
    refine .step .freshId fun id _ => .bind deeper fun s' sameStatement => .onward _ ?_ rfl
    obtain ⟨_, ss, _⟩ := b
    subst only
    rw [Option.map_some, Block.shape, Statement.listShape, Statement.listShape, sameStatement,
      Block.shape, Statement.listShape, Statement.listShape]
  · rw [same]
    refine .step .sees fun isIf seen => ?_
    have no : isIf = false := by
      rw [seen, Block.tokens_pieces]
      rfl
    subst no
    have whole : Reads sure room (some <$> block (levels room)) (tokens (b.pieces level) ++ rest) pure
        rest fun o => o.map Block.shape = some b.shape :=
      (reads_block h fits).map fun a sameBlock => by rw [Option.map_some, sameBlock]
    exact .bind whole fun o ho => .onward o ho rfl

set_option synthInstance.maxSize 512 in
theorem reads_branch {condition : Expr} {yes : Block} {no : Option Block}
    (test : Full sure room (tokens (condition.pieces level)) condition)
    (first : yes.ReadsBack sure ∧ (sure → yes.room ≤ room)) (second : ∀ b ∈ no, b.ReadsBack sure ∧ (sure → b.room ≤ room))
    (other : (rest.headD .eof).sameKind (.word .else) = false) :
    Reads sure room (branch (levels room))
      (tokens ((StatementKind.branch condition yes no).pieces level) ++ rest) pure rest
      (·.shape = ⟨0, (StatementKind.branch condition yes no).shape, default⟩) := by
  rw [StatementKind.tokens_branch]
  simp only [List.cons_append, List.append_assoc]
  refine .step .ask fun start _ => .step (.expect rfl) fun _ _ => .step .freshId fun id _ => ?_
  refine .bind (reads_condition test) fun c sameTest => ?_
  refine .bind (reads_block first.1 first.2) fun y sameYes => ?_
  cases no with
  | none =>
    refine .step (.leave other) fun more none => ?_
    subst none
    refine .bind (P := (· = none)) (.done rfl) fun n hn => .step .ask fun span _ => .done ?_
    rw [hn, Statement.shape, StatementKind.shape, sameTest, sameYes, StatementKind.shape]
  | some b =>
    obtain ⟨readsBack, fits⟩ := second b rfl
    refine .step (.eat rfl) fun more yes => ?_
    subst yes
    refine (reads_alternative readsBack fits other).then fun n sameNo => .step .ask fun span _ =>
      .done ?_
    rw [Statement.shape, StatementKind.shape_branch, StatementKind.shape_branch, sameTest, sameYes,
      sameNo, Option.map_some]

theorem reads_switch {subject : Expr} {as : List Arm} {otherwise : Option Block}
    (own : (StatementKind.switch subject as otherwise).isPrintable)
    (head : Full sure room (tokens (subject.pieces level)) subject)
    (tests : ∀ a ∈ as, Full sure room (tokens (a.test.pieces (level + 1))) a.test)
    (bodies : ∀ a ∈ as, a.body.ReadsBack sure ∧ (sure → a.body.room ≤ room))
    (last : ∀ b ∈ otherwise, b.ReadsBack sure ∧ (sure → b.room ≤ room)) :
    Reads sure room (switch (levels room))
      (tokens ((StatementKind.switch subject as otherwise).pieces level) ++ rest) pure rest
      (·.shape = ⟨0, (StatementKind.switch subject as otherwise).shape, default⟩) := by
  rw [StatementKind.tokens_switch]
  simp only [List.cons_append, List.append_assoc, List.nil_append]
  refine .step .ask fun start _ => .step (.expect rfl) fun _ _ => .step .freshId fun id _ => ?_
  refine .bind (reads_condition head) fun c sameSubject => .step (.expect rfl) fun _ _ => ?_
  refine .bind (reads_arms tests bodies last _ (of_decide_eq_true own) []) fun r hr => ?_
  refine .step (.expect rfl) fun _ _ => .step .ask fun span _ => .done ?_
  obtain ⟨⟨bs, found, sameArms⟩, sameLast⟩ := hr
  rw [Statement.shape, StatementKind.shape_switch, StatementKind.shape_switch, sameSubject, found,
    List.reverse_nil, List.nil_append, sameArms, sameLast]

theorem reads_loop {label label' : Option Ident} {head : LoopHead} {body : Block} {start : Span}
    (own : (StatementKind.loop none head body).isPrintable)
    (same : label'.map Ident.shape = label.map Ident.shape)
    (tests : ∀ e ∈ head.test?, Full sure room (tokens (e.pieces level)) e)
    (headers : ∀ s ∈ head.statements, s.ReadsBack sure ∧ (sure → s.room ≤ room))
    (inner : body.ReadsBack sure) (fits : sure → body.room ≤ room) :
    Reads sure room (loop (levels room) label' start)
      (tokens ((StatementKind.loop none head body).pieces level) ++ rest) pure rest
      (·.shape = ⟨0, (StatementKind.loop label head body).shape, default⟩) := by
  obtain ⟨t, us, split, -, reads⟩ := reads_headAndBody own tests headers inner fits rest
  rw [split, List.cons_append]
  refine .step .advance fun first hf => .step .freshId fun id _ => ?_
  subst hf
  refine .bind reads fun r hr => .step .ask fun span _ => .done ?_
  rw [Statement.shape, StatementKind.shape, same, hr.1, hr.2, StatementKind.shape]

/-- A loop after its label, if it has one. -/
theorem reads_labelOf {d : Deeper} {label : Option Ident} {ts : List Token}
    {P : Statement → Prop} (starts : startsLoop (ts.headD .eof))
    (h : ∀ label' start, label'.map Ident.shape = label.map Ident.shape →
      Reads sure room (loop d label' start) ts pure rest P) :
    Reads sure room (statement d) (tokens (labelOf label) ++ ts) pure rest P := by
  cases label with
  | none =>
    refine .step .ask fun start _ => .step .token fun t ht => ?_
    change t = ts.headD .eof at ht
    rw [← ht] at starts
    have run := h none start rfl
    unfold startsLoop at starts
    split at starts <;> first | exact run | cases starts
  | some i =>
    change Reads sure room (statement d) (.ident i.name :: .sym .colon :: ts) pure rest P
    refine .step .ask fun start _ => .step .token fun t ht => ?_
    subst ht
    refine .step .peek fun next hn => ?_
    subst hn
    refine .step .ask fun start _ => .step .ident fun j hj => .step (.expect rfl) fun _ _ => ?_
    refine .step .token fun t ht => ?_
    subst ht
    rw [if_pos starts]
    exact h (some j) start (by rw [Option.map_some, Option.map_some, Ident.shape_eq hj])

end Parser

theorem StatementKind.tokens_ret (level : Nat) (value : Option Expr) :
    tokens ((ret value).pieces level) =
      .word .return :: (tokens (ofOption (fun e => e.pieces level) value) ++ [.sym .semicolon]) := by
  cases value with
  | none => rfl
  | some e =>
    rw [pieces, tokens_word, tokens_space, tokens_append]
    rfl

theorem StatementKind.tokens_jump (level : Nat) (kind : JumpKind) (label : Option Ident) :
    tokens ((jump kind label).pieces level) = .word kind.keyword ::
      (label.toList.map (fun i => .ident i.name) ++ [.sym .semicolon]) := by
  cases label <;> rfl

namespace Parser

open Deeper (levels)

variable {sure : Prop} {room level : Nat} {rest : List Token}

theorem reads_ret {value : Option Expr}
    (parts : ∀ e ∈ value, Full sure room (tokens (e.pieces level)) e) :
    Reads sure room (statement (levels room)) (tokens ((StatementKind.ret value).pieces level) ++ rest)
      pure rest (·.shape = ⟨0, (StatementKind.ret value).shape, default⟩) := by
  rw [StatementKind.tokens_ret, List.cons_append, List.append_assoc]
  refine .step .ask fun start _ => .step .token fun t ht => ?_
  subst ht
  refine .step .advance fun _ _ => .step .freshId fun id _ => ?_
  refine .bind (reads_unlessAt Expr.shape rfl (fun e _ => ?_) fun e he => parts e he _ (.cons rfl))
    fun o same => ?_
  · obtain ⟨t, us, first, opens⟩ := e.starts level
    rw [first]
    exact Token.sameKind_of_opens opens rfl
  · refine .step (.expect rfl) fun _ _ => .step .ask fun span _ => .done ?_
    rw [Statement.shape, StatementKind.shape_ret, same, ← StatementKind.shape_ret]

theorem reads_jump {kind : JumpKind} {label : Option Ident} :
    Reads sure room (statement (levels room))
      (tokens ((StatementKind.jump kind label).pieces level) ++ rest) pure rest
      (·.shape = ⟨0, (StatementKind.jump kind label).shape, default⟩) := by
  have run : Reads sure room (jump kind)
      (tokens ((StatementKind.jump kind label).pieces level) ++ rest) pure rest
      (·.shape = ⟨0, (StatementKind.jump kind label).shape, default⟩) := by
    rw [StatementKind.tokens_jump, List.cons_append, List.append_assoc]
    refine .step .ask fun start _ => .step .advance fun _ _ => .step .freshId fun id _ => ?_
    refine .step (reads_ident? label _ _) fun o same => ?_
    refine .step (.expect rfl) fun _ _ => .step .ask fun span _ => .done ?_
    rw [Statement.shape, StatementKind.shape, same, StatementKind.shape]
  refine .step .ask fun start _ => .step .token fun t ht => ?_
  have first : t = .word kind.keyword := by rw [ht, StatementKind.tokens_jump]; rfl
  subst first
  cases kind <;> exact run

theorem reads_wait {body : Block} (inner : body.ReadsBack sure) (fits : sure → body.room ≤ room) :
    Reads sure room (statement (levels room)) (tokens ((StatementKind.wait body).pieces level) ++ rest)
      pure rest (·.shape = ⟨0, (StatementKind.wait body).shape, default⟩) := by
  have block : Reads sure room _ (tokens (body.pieces level) ++ rest) pure rest _ :=
    reads_block inner fits
  refine .step .ask fun start _ => .step .token fun t ht => ?_
  subst ht
  refine .step .advance fun _ _ => .step .freshId fun id _ => .bind block fun b same =>
    .step .ask fun span _ => .done ?_
  rw [Statement.shape, StatementKind.shape, same, StatementKind.shape]

theorem reads_bare {body : Block} (inner : body.ReadsBack sure) (fits : sure → body.room ≤ room) :
    Reads sure room (statement (levels room)) (tokens ((StatementKind.block body).pieces level) ++ rest)
      pure rest (·.shape = ⟨0, (StatementKind.block body).shape, default⟩) := by
  have block : Reads sure room _ (tokens (body.pieces level) ++ rest) pure rest _ :=
    reads_block inner fits
  refine .step .ask fun start _ => .step .token fun t ht => ?_
  have first : t = .sym .leftBrace := by
    rw [ht, StatementKind.pieces, Block.tokens_pieces]
    rfl
  subst first
  refine .step .freshId fun id _ => .bind block fun b same => .done ?_
  rw [Statement.shape, StatementKind.shape, same, StatementKind.shape]

end Parser

/-- **Statements.** A statement is read back if its parts are. -/
theorem Statement.readsBack_of_parts {sure : Prop} {s : Statement} (own : s.kind.isPrintable)
    (exprs : ∀ e ∈ s.kind.tests ++ s.kind.operands, e.ReadsBack sure)
    (headers : ∀ h ∈ s.kind.headers, h.ReadsBack sure) (blocks : ∀ b ∈ s.kind.blocks, b.ReadsBack sure)
    (functions : ∀ f ∈ s.kind.functions, f.ReadsBack sure) : s.ReadsBack sure := by
  obtain ⟨id, kind, span⟩ := s
  have full : ∀ e ∈ kind.tests ++ kind.operands, ∀ room level, (sure → kind.room ≤ room) →
      Parser.Full sure room (tokens (e.pieces level)) e := fun e he room level fits =>
    (exprs e he).full fun certain => Nat.le_trans (StatementKind.room_expr he) (fits certain)
  have block : ∀ b ∈ kind.blocks, ∀ room, (sure → kind.room ≤ room) →
      b.ReadsBack sure ∧ (sure → b.room ≤ room) := fun b hb room fits =>
    ⟨blocks b hb, fun certain => Nat.le_trans (StatementKind.room_block hb) (fits certain)⟩
  have simple : ∀ room level rest (declarations : Bool), (sure → kind.room ≤ room) →
      (if declarations then kind.isSimple else kind.isUpdate) → Parser.Stops rest →
      Parser.Reads sure room (Parser.simple (Deeper.levels room) declarations)
        (tokens (kind.pieces level) ++ rest) pure rest
        (·.shape = Statement.shape ⟨id, kind, span⟩) := by
    intro room level rest declarations fits may stops
    exact Parser.reads_simple own may
      (fun e he => full e (List.mem_append_right _ he) room level fits) stops
  have refused : ¬ sure → kind.opensWithFunction → kind.comesApart = false →
      ∀ room level ts rest ends n done, (∀ t ∈ ends, t ∈ Parser.armEnds) →
      Parser.Reads sure room (Parser.statements (Deeper.levels room) ends n done)
        (kind.lineTokens level ++ ts) pure rest fun _ => False := by
    intro unsure opens whole room level ts rest ends n done inner
    cases kind with
    | expr value =>
      rw [StatementKind.lineTokens, List.append_assoc]
      exact Parser.refuses_line unsure (exprs value (by simp [StatementKind.operands])) opens whole
        inner n
    | _ => cases opens
  refine ⟨fun room level rest fits plain other => ?_, simple, refused⟩
  rw [StatementKind.lineTokens]
  -- simple statements end with a semicolon of their own
  have line : kind.isSimple →
      Parser.Reads sure room (Parser.simpleLine (Deeper.levels room))
        (tokens (kind.pieces level) ++ tokens kind.ending ++ rest) pure rest
        (·.shape = Statement.shape ⟨id, kind, span⟩) := by
    intro isSimple
    rw [StatementKind.ending, if_pos isSimple, List.append_assoc]
    refine .step .ask fun start _ => ?_
    refine .bind (simple room level _ true fits isSimple (.inl rfl)) fun s same => ?_
    refine .step (.expect rfl) fun _ _ => .step .ask fun span _ => .done ?_
    obtain ⟨_, _, _⟩ := s
    exact same
  have alone : kind.isSimple = false →
      tokens (kind.pieces level) ++ tokens kind.ending ++ rest = tokens (kind.pieces level) ++ rest := by
    intro compound
    rw [StatementKind.ending, if_neg (by simp [compound])]
    exact congrArg (· ++ rest) (List.append_nil _)
  cases kind with
  | declare i init =>
    refine .step .ask fun start _ => .step .token fun t ht => ?_
    have first : t = .word .let := by rw [ht]; cases init <;> rfl
    subst first
    exact line rfl
  | assign target value =>
    refine .line ?_ (line rfl)
    have bare : target.opensWithFunction = false := by
      cases target <;> first | rfl | cases own
    rw [StatementKind.pieces, tokens_append, List.append_assoc, List.append_assoc, ← bare]
    exact target.opening level fun h => by cases h
  | expr value =>
    refine .line ?_ (line rfl)
    rw [← plain, List.append_assoc]
    exact value.opening level fun h => by cases h
  | ret value =>
    rw [alone rfl]
    exact Parser.reads_ret fun e he =>
      have inside : e ∈ (StatementKind.ret value).operands := Option.mem_toList.mpr he
      full e (List.mem_append_right _ inside) room level fits
  | block body =>
    obtain ⟨readsBack, low⟩ := block body (by simp [StatementKind.blocks]) room fits
    rw [alone rfl]
    exact Parser.reads_bare readsBack low
  | branch condition yes no =>
    rw [alone rfl]
    refine .step .ask fun start _ => .step .token fun t ht => ?_
    have first : t = .word .if := by rw [ht]; cases no <;> rfl
    subst first
    exact Parser.reads_branch (full condition (by simp [StatementKind.tests]) room level fits)
      (block yes (by simp [StatementKind.blocks]) room fits)
      (fun b hb => block b (by simp_all [StatementKind.blocks]) room fits) other
  | switch subject as otherwise =>
    rw [alone rfl]
    refine .step .ask fun start _ => .step .token fun t ht => ?_
    have first : t = .word .switch := by rw [ht, StatementKind.tokens_switch]; rfl
    subst first
    exact Parser.reads_switch own (full subject (by simp [StatementKind.tests]) room level fits)
      (fun a ha => full a.test (by simp only [StatementKind.tests]; grind) room (level + 1) fits)
      (fun a ha => block a.body (by simp only [StatementKind.blocks]; grind) room fits)
      fun b hb => block b (by simp_all [StatementKind.blocks]) room fits
  | loop label head body =>
    rw [alone rfl, StatementKind.tokens_loop, List.append_assoc]
    obtain ⟨readsBack, low⟩ := block body (by simp [StatementKind.blocks]) room fits
    have unlabelled : (StatementKind.loop none head body).isPrintable := by
      cases head <;> simp_all [StatementKind.isPrintable]
    have tests : ∀ e ∈ head.test?, Parser.Full sure room (tokens (e.pieces level)) e := fun e he =>
      full e (List.mem_append_left _ (Option.mem_toList.mpr he)) room level fits
    have parts : ∀ h ∈ head.statements, h.ReadsBack sure ∧ (sure → h.room ≤ room) := fun h hh =>
      have inside : h ∈ (StatementKind.loop label head body).headers := hh
      ⟨headers h inside, fun certain => Nat.le_trans (StatementKind.room_header inside) (fits certain)⟩
    obtain ⟨first, us, split, starts, -⟩ :=
      Parser.reads_headAndBody unlabelled tests parts readsBack low rest
    refine Parser.reads_labelOf ?_ fun label' start same => ?_
    · rw [split]
      exact starts
    · rw [Statement.shape]
      exact Parser.reads_loop unlabelled same tests parts readsBack low
  | jump jump label =>
    rw [alone rfl]
    exact Parser.reads_jump
  | wait body =>
    obtain ⟨readsBack, low⟩ := block body (by simp [StatementKind.blocks]) room fits
    rw [alone rfl]
    exact Parser.reads_wait readsBack low
  | func f =>
    have inner := functions f (by simp [StatementKind.functions]) room level rest true fits fun _ => own
    rw [alone rfl]
    refine .step .ask fun start _ => .step .token fun t ht => ?_
    have first : t = .word .function := by rw [ht, StatementKind.pieces, Func.tokens_pieces]; rfl
    subst first
    refine .step .freshId fun id _ => .bind inner fun g same => .done ?_
    rw [Statement.shape, StatementKind.shape, same, Statement.shape, StatementKind.shape]

end WaitDefer
