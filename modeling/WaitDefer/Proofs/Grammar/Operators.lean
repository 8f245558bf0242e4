import WaitDefer.Proofs.Grammar.Facing
import WaitDefer.Proofs.Grammar.Printable
import WaitDefer.Proofs.Tree.Shape

/-!
# Printed expressions

Parentheses stand exactly where the climbing of operators would group otherwise, so the text of an
expression is read as that expression:

* `Parser.Base`, `Parser.Operand`, `Parser.Chain`: tokens that are read as an expression where a
  call, a unary operator or a chain of binary operators may go on;
* `Expr.Readable`: an expression whose tokens are read like that;
* `Expr.readable_of_parts`: an expression is readable if its parts are.
-/

namespace WaitDefer

/-! ## Tokens of a layout -/

namespace Piece

variable {ps qs : List Piece}

theorem tokens_append (ps qs : List Piece) : tokens (ps ++ qs) = tokens ps ++ tokens qs :=
  List.filterMap_append

theorem tokens_tok (t : Token) (ps : List Piece) : tokens (tok t :: ps) = t :: tokens ps := rfl

theorem tokens_word (k : Keyword) (ps : List Piece) :
    tokens (word k :: ps) = .word k :: tokens ps := rfl

theorem tokens_sym (s : Symbol) (ps : List Piece) : tokens (sym s :: ps) = .sym s :: tokens ps := rfl

theorem tokens_name (i : Ident) (ps : List Piece) :
    tokens (name i :: ps) = .ident i.name :: tokens ps := rfl

theorem tokens_space (ps : List Piece) : tokens (space :: ps) = tokens ps := rfl

theorem tokens_nil : tokens [] = [] := rfl

theorem tokens_parens (wanted : Bool) (ps : List Piece) : tokens (parens wanted ps) =
    if wanted then .sym .leftParen :: (tokens ps ++ [.sym .rightParen]) else tokens ps := by
  cases wanted with
  | false => rfl
  | true => simp only [parens, if_true, tokens_sym, tokens_append, tokens_nil]

theorem tokens_names (is : List Ident) :
    tokens (names is) = Token.commas (is.map fun i => [.ident i.name]) := by
  induction is using names.induct with
  | case1 => rfl
  | case2 i => rfl
  | case3 i is more ih =>
    rw [names.eq_3 _ _ more, List.map_cons, Token.commas.eq_3 _ _ (by simpa using more), ← ih]
    rfl

end Piece

open Piece

theorem Expr.tokens_listPieces (level : Nat) (es : List Expr) :
    tokens (Expr.listPieces level es) = Token.commas (es.map fun e => tokens (e.pieces level)) := by
  induction es with
  | nil => rw [listPieces]; rfl
  | cons e es ih =>
    cases es with
    | nil => rw [listPieces]; rfl
    | cons e' es =>
      rw [listPieces, tokens_append, tokens_sym, tokens_space, ih]
      · rfl
      · exact fun none => nomatch none

/-! ## How an expression begins -/

/-- Tokens that an expression can begin with. -/
def Token.opens : Token → Bool
  | int _ | str _ | ident _ => true
  | word .true | word .false | word .null | word .function | word .defer => true
  | sym .leftParen | sym .bang | sym .minus => true
  | _ => false

/-- Tokens that begin like an expression and not like a label; like a function only if that is
allowed. -/
def Token.Opening (function : Bool) : List Token → Prop
  | .ident _ :: ts => ts.headD .eof ≠ .sym .colon
  | t :: _ => t.opens ∧ (t = .word .function → function)
  | [] => False

theorem Token.opening_parens {function wanted : Bool} {ps : List Piece} {rest : List Token}
    (h : wanted = false → Opening function (tokens ps ++ rest)) :
    Opening function (tokens (parens wanted ps) ++ rest) := by
  rw [tokens_parens]
  split
  · exact ⟨rfl, by simp⟩
  · exact h (Bool.eq_false_iff.mpr ‹_›)

theorem Expr.isSome_opener (e : Expr) : e.opener.isSome = e.opensWithFunction := by
  induction e using Expr.inductOn with
  | step e ih =>
    cases e with
    | binary op left right span =>
      rw [opener, opensWithFunction, ← ih left (by simp [operands])]
      cases left.isLooserThan op.precedence <;> rfl
    | _ => rfl

/-- Where an expression begins with a function, it ends there or goes on with an operator. -/
theorem Expr.tokens_opener {e : Expr} {f : Func} (h : f ∈ e.opener) (level : Nat) :
    ∃ tail, tokens (e.pieces level) = tokens (f.pieces level) ++ tail ∧
      (e = .func f ∧ tail = [] ∨ ∃ op us, tail = .sym (BinaryOp.symbol op) :: us ∧
        (op = .subtract → f.name.isSome → e.comesApart)) := by
  induction e using Expr.inductOn with
  | step e ih =>
    cases e with
    | func =>
      cases h
      exact ⟨[], (List.append_nil _).symm, .inl ⟨rfl, rfl⟩⟩
    | binary op left right span =>
      rw [opener] at h
      split at h
      · cases h
      rename_i tight
      have bare : left.isLooserThan op.precedence = false := Bool.eq_false_iff.mpr tight
      obtain ⟨tail, split, next⟩ := ih left (by simp [operands]) h
      simp only [pieces, tokens_append, tokens_space, tokens_sym, bare, tokens_parens false, Bool.false_eq_true, if_false, split,
        List.append_assoc]
      obtain ⟨rfl, rfl⟩ | ⟨op', us, rfl, apart⟩ := next
      · refine ⟨_, rfl, .inr ⟨op, _, rfl, fun minus named => ?_⟩⟩
        subst minus
        rw [comesApart, bare, isNamedFunction, named]
        rfl
      · refine ⟨_, rfl, .inr ⟨op', _, rfl, fun minus named => ?_⟩⟩
        rw [comesApart, bare, apart minus named]
        rfl
    | _ => cases h

theorem Token.Opening.head {function : Bool} {ts : List Token} (h : Opening function ts) :
    ∃ t us, ts = t :: us ∧ t.opens := by
  cases ts with
  | nil => exact h.elim
  | cons t us =>
    refine ⟨t, us, rfl, ?_⟩
    cases t with
    | ident name => rfl
    | _ => exact h.1

theorem Expr.opening (e : Expr) (level : Nat) {rest : List Token}
    (label : rest.headD .eof ≠ .sym .colon) :
    Token.Opening e.opensWithFunction (tokens (e.pieces level) ++ rest) := by
  induction e using Expr.inductOn generalizing rest with
  | step e ih =>
    -- an operand before a call or a dot that stands without parentheses is no function
    have ungrouped : ∀ o ∈ e.operands, ∀ more : List Token, more.headD .eof ≠ .sym .colon →
        e.opensWithFunction = false →
        Token.Opening false (tokens (parens o.needsGrouping (o.pieces level)) ++ more) := by
      intro o ho more other plain
      refine Token.opening_parens fun bare => ?_
      have same : o.opensWithFunction = false := by cases o <;> first | rfl | cases bare
      rw [← same]
      exact ih o ho other
    cases e with
    | bool value span => cases value <;> exact ⟨rfl, by simp⟩
    | ident i => exact label
    | unary op o span => cases op <;> exact ⟨rfl, by simp⟩
    | binary op left right span =>
      simp only [pieces, tokens_append, List.append_assoc, tokens_space, tokens_sym]
      refine Token.opening_parens fun bare => ?_
      rw [opensWithFunction, bare, Bool.not_false, Bool.true_and]
      exact ih left (by simp [operands]) (by cases op <;> simp [BinaryOp.symbol])
    | call callee arguments span =>
      simp only [pieces, tokens_append, List.append_assoc, tokens_sym]
      exact ungrouped callee (by simp [operands]) _ (by simp) rfl
    | member object property span =>
      simp only [pieces, tokens_append, List.append_assoc, tokens_sym]
      exact ungrouped object (by simp [operands]) _ (by simp) rfl
    | func f =>
      obtain ⟨_, _, _, _, _⟩ := f
      exact ⟨rfl, fun _ => rfl⟩
    | _ => exact ⟨rfl, by simp⟩

theorem Expr.starts (e : Expr) (level : Nat) :
    ∃ t us, tokens (e.pieces level) = t :: us ∧ t.opens := by
  have opening : Token.Opening _ (tokens (e.pieces level) ++ []) := e.opening level (by simp)
  rw [List.append_nil] at opening
  exact opening.head

theorem Token.sameKind_of_opens {t t' : Token} (h : t.opens) (h' : t'.opens = false) :
    t.sameKind t' = false := by
  refine Bool.eq_false_iff.mpr fun same => ?_
  unfold sameKind at same
  split at same <;> simp_all [opens]

/-! ## What ends an expression -/

/-- No call or member access goes on here, and no operator that binds at least as tightly as
`least`. -/
structure Token.Ends (least : Precedence) (rest : List Token) : Prop where
  call : rest.headD .eof ≠ .sym .leftParen
  member : rest.headD .eof ≠ .sym .dot
  operator : Parser.operator? least (rest.headD .eof) = none

theorem Token.Ends.mono {least least' : Precedence} {rest : List Token} (h : Ends least rest)
    (le : least.rank ≤ least'.rank) : Ends least' rest := by
  refine ⟨h.call, h.member, ?_⟩
  have operator := h.operator
  unfold Parser.operator? at operator ⊢
  split at operator
  · split at operator
    · rename_i op found lower
      rw [if_pos (by omega)]
    · cases operator
  · rfl

theorem Token.Ends.cons {least : Precedence} {t : Token} {ts : List Token}
    (h : (t != .sym .leftParen && t != .sym .dot && (Parser.operator? least t).isNone) = true) :
    Ends least (t :: ts) := by
  simp only [Bool.and_eq_true, bne_iff_ne, Option.isNone_iff_eq_none] at h
  exact ⟨h.1.1, h.1.2, h.2⟩

theorem Token.ends_of_endsItem {least : Precedence} {rest : List Token}
    (h : Parser.Reads.EndsItem rest) : Ends least rest := by
  unfold Parser.Reads.EndsItem at h
  split at h
  · exact .cons rfl
  · exact .cons rfl
  · exact h.elim

theorem Precedence.rank_le (p : Precedence) : p.rank ≤ Precedence.unary.rank := by
  cases p <;> decide

theorem Precedence.rank_le_tighter (p : Precedence) : p.rank ≤ p.tighter.rank := by
  cases p <;> decide

theorem Precedence.rank_tighter_mono {p q : Precedence} (h : p.rank ≤ q.rank) :
    p.tighter.rank ≤ q.tighter.rank := by
  revert h
  cases p <;> cases q <;> decide

theorem BinaryOp.rank_tighter (op : BinaryOp) :
    op.precedence.tighter.rank = op.precedence.rank + 1 := by
  cases op <;> rfl

/-- The operator after a left operand does not bind more tightly than itself. -/
theorem BinaryOp.ends_symbol (op : BinaryOp) (rest : List Token) :
    Token.Ends op.precedence.tighter (.sym op.symbol :: rest) := by
  refine ⟨?_, ?_, ?_⟩ <;> cases op <;> first | rfl | nofun

namespace Parser

open Deeper (levels)

/-! ## Tokens that are read as an expression -/

/-- Tokens that are read as an expression of this shape, after which calls and member accesses may
follow. -/
def Base (sure : Prop) (room : Nat) (ts : List Token) (e : Expr) : Prop :=
  ∀ rest, Reads sure room (unary (levels room)) (ts ++ rest)
    (fun p : Expr × Nat => suffixes (levels room) p.2 p.1) rest
    fun p => p.1.shape = e.shape ∧ rest.length ≤ p.2

/-- Tokens that are read as the operand of an operator. -/
def Operand (sure : Prop) (room : Nat) (ts : List Token) (e : Expr) : Prop :=
  ∀ rest, Token.Ends .unary rest → Reads sure room (unary (levels room)) (ts ++ rest) pure rest
    (·.shape = e.shape)

/-- Tokens that are read as the left operand of an operator that binds like `place`. -/
def Chain (sure : Prop) (room : Nat) (place : Precedence) (ts : List Token) (e : Expr) : Prop :=
  ∀ rest n least, Precedence.unary.rank ≤ n + least.rank → least.rank ≤ place.rank →
    Token.Ends place.tighter rest → Reads sure room (climb (levels room) (n + 1) least) (ts ++ rest)
      (fun p : Expr × Nat => operators (climb (levels room) n) least p.2 p.1) rest
      fun p => p.1.shape = e.shape ∧ rest.length ≤ p.2

/-- Tokens that are read as an operand to the right of which nothing binds like `place`. -/
def Climbs (sure : Prop) (room : Nat) (place : Precedence) (ts : List Token) (e : Expr) : Prop :=
  ∀ rest n, Precedence.unary.rank < n + place.rank → Token.Ends place rest →
    Reads sure room (climb (levels room) n place) (ts ++ rest) pure rest (·.shape = e.shape)

/-- Tokens that are read as a whole expression. -/
def Full (sure : Prop) (room : Nat) (ts : List Token) (e : Expr) : Prop :=
  ∀ rest, Token.Ends .logicalOr rest → Reads sure room (levels room).expression (ts ++ rest) pure rest
    (·.shape = e.shape)

section
variable {sure : Prop} {room : Nat} {place : Precedence} {ts : List Token} {e : Expr}

theorem reads_suffixes_end {n : Nat} {rest : List Token} (ends : Token.Ends .unary rest) :
    Reads sure room (suffixes (levels room) n e) rest pure rest (· = e) := by
  cases n with
  | zero => exact .done rfl
  | succ n =>
    refine .step .token fun t ht => ?_
    have call := ends.call
    have member := ends.member
    rw [← ht] at call member
    split
    · exact absurd rfl call
    · exact absurd rfl member
    · exact .done rfl

theorem reads_operators_end {right : Precedence → Parser Expr} {n : Nat} {rest : List Token}
    (ends : Token.Ends place rest) : Reads sure room (operators right place n e) rest pure rest (· = e) := by
  cases n with
  | zero => exact .done rfl
  | succ n =>
    refine .step .token fun t ht => ?_
    have none := ends.operator
    rw [← ht] at none
    rw [none]
    exact .done rfl

theorem Base.operand (h : Base sure room ts e) : Operand sure room ts e := by
  intro rest ends
  refine (h rest).then fun p hp => (reads_suffixes_end ends).weaken fun a ha => ?_
  rw [ha]
  exact hp.1

theorem Operand.chain (h : Operand sure room ts e) : Chain sure room place ts e := by
  intro rest n least _ _ ends
  refine .bind (h rest (ends.mono (Precedence.rank_le _))) fun a ha => .step .size fun m hm => ?_
  exact .onward (a, m) ⟨ha, hm.le⟩ rfl

theorem Chain.mono {place' : Precedence} (h : Chain sure room place' ts e)
    (le : place.rank ≤ place'.rank) (tight : place.tighter.rank ≤ place'.tighter.rank) :
    Chain sure room place ts e :=
  fun rest n least enough low ends => h rest n least enough (low.trans le) (ends.mono tight)

theorem Chain.climbs (h : Chain sure room place ts e) : Climbs sure room place ts e := by
  intro rest n enough ends
  cases n with
  | zero => exact absurd (place.rank_le) (by omega)
  | succ n =>
    refine (h rest n place (by omega) le_rfl (ends.mono place.rank_le_tighter)).then
      fun p hp => (reads_operators_end ends).weaken fun a ha => ?_
    rw [ha]
    exact hp.1

theorem Chain.full (h : Chain sure room .logicalOr ts e) : Full sure (room + 1) ts e :=
  fun rest ends => (h.climbs rest _ (by decide) ends).nested "expression"

/-- An operand that is read by itself; calls and member accesses may follow. -/
theorem base_of_primary {t : Token} {us : List Token} (first : ts = t :: us)
    (plain : unaryOp? t = none)
    (h : ∀ rest, Reads sure room (primary (levels room)) (ts ++ rest) pure rest (·.shape = e.shape)) :
    Base sure room ts e := by
  intro rest
  refine .step .ask fun start _ => .step .token fun t' ht => ?_
  rw [first, List.cons_append, List.headD_cons] at ht
  rw [ht, plain]
  refine .bind (h rest) fun a ha => .step .size fun n hn => ?_
  exact .onward (a, n) ⟨ha, hn.le⟩ rfl

/-- Between parentheses stands a whole expression. -/
theorem Full.base (h : Full sure room ts e) :
    Base sure room (.sym .leftParen :: (ts ++ [.sym .rightParen])) e := by
  refine base_of_primary rfl rfl fun rest => ?_
  rw [List.cons_append, List.append_assoc]
  refine .step .ask fun start _ => .step .token fun t ht => ?_
  subst ht
  refine .step .advance fun _ _ => .bind (h _ (.cons rfl)) fun inner same => ?_
  exact .step (.expect rfl) fun _ _ => .done same

/-- A call after an operand. -/
theorem Base.call {callee : Expr} {arguments : List Expr} {level : Nat} {span : Span}
    (h : Base sure room ts callee)
    (whole : ∀ a ∈ arguments, Full sure room (tokens (a.pieces level)) a) :
    Base sure room (ts ++ (.sym .leftParen :: (tokens (Expr.listPieces level arguments) ++
      [.sym .rightParen]))) (.call callee arguments span) := by
  intro rest
  simp only [List.append_assoc, List.cons_append]
  refine (h _).then fun p hp => ?_
  obtain ⟨a, n⟩ := p
  obtain ⟨same, enough⟩ := hp
  obtain ⟨m, rfl⟩ : ∃ m, n = m + 1 := Nat.exists_eq_succ_of_ne_zero (by simp at enough; omega)
  refine .step .token fun t ht => ?_
  subst ht
  rw [Expr.tokens_listPieces]
  refine .step .advance fun _ _ => .bind (.untilParen
    (R := fun (x : Expr) y => y.shape = x.shape) (fun x hx rest ends => ?_) fun x hx => ?_)
    fun as has => .step .ask fun span _ => .onward (_, m) ?_ rfl
  · exact whole x hx rest (Token.ends_of_endsItem ends)
  · obtain ⟨t, us, first, opens⟩ := x.starts level
    exact ⟨t, us, first, Token.sameKind_of_opens opens rfl⟩
  · refine ⟨by rw [Expr.shape, Expr.shape, same, Expr.listShape_eq has], ?_⟩
    simp only [List.length_cons, List.length_append] at enough
    omega

/-- A member access after an operand. -/
theorem Base.member {object : Expr} {property : Ident} {span : Span}
    (h : Base sure room ts object) :
    Base sure room (ts ++ [.sym .dot, .ofName property.name]) (.member object property span) := by
  intro rest
  rw [List.append_assoc]
  refine (h _).then fun p hp => ?_
  obtain ⟨a, n⟩ := p
  obtain ⟨same, enough⟩ := hp
  obtain ⟨m, rfl⟩ : ∃ m, n = m + 1 := Nat.exists_eq_succ_of_ne_zero (by simp at enough; omega)
  refine .step .token fun t ht => ?_
  subst ht
  refine .step .advance fun _ _ => .step .property fun i hi => .onward (_, m) ?_ rfl
  refine ⟨by rw [Expr.shape, Expr.shape, same, Ident.shape_eq hi], ?_⟩
  simp only [List.cons_append, List.nil_append, List.length_cons] at enough
  omega

theorem operand_unary {op : UnaryOp} {o : Expr} {span : Span} (fits : sure → 0 < room)
    (h : Operand sure (room - 1) ts o) :
    Operand sure room (.sym op.symbol :: ts) (.unary op o span) := by
  intro rest ends
  have inner : Reads sure room (nested "unary" (levels room).unary) (ts ++ rest) pure rest
      (·.shape = o.shape) := by
    cases room with
    | zero => exact .nested_zero (fun s => Nat.lt_irrefl 0 (fits s)) _
    | succ room => exact (h rest ends).nested "unary"
  rw [List.cons_append]
  refine .step .ask fun start _ => .step .token fun t ht => ?_
  have found : unaryOp? t = some op := by subst ht; cases op <;> rfl
  rw [found]
  refine .step .advance fun _ _ => .bind inner fun a same => .done ?_
  rw [Expr.shape, Expr.shape, same]

/-- A binary operator between operands. -/
theorem Chain.binary {op : BinaryOp} {left right : Expr} {span : Span} {us : List Token}
    (hl : Chain sure room op.precedence ts left) (hr : Climbs sure room op.precedence.tighter us right) :
    Chain sure room op.precedence (ts ++ (.sym op.symbol :: us)) (.binary op left right span) := by
  intro rest n least enough low ends
  rw [List.append_assoc, List.cons_append]
  refine (hl _ n least enough low (op.ends_symbol _)).then fun p hp => ?_
  obtain ⟨a, m⟩ := p
  obtain ⟨same, left⟩ := hp
  obtain ⟨m, rfl⟩ : ∃ k, m = k + 1 := Nat.exists_eq_succ_of_ne_zero (by simp at left; omega)
  refine .step .token fun t ht => ?_
  have found : operator? least t = some op := by
    subst ht
    rw [List.headD_cons, operator?, Token.binaryOp?, op.binaryOp?_symbol]
    exact if_neg (by omega)
  rw [found]
  refine .step .advance fun _ _ => .bind (hr rest n ?_ ends) fun b also =>
    .onward (_, m) ?_ rfl
  · rw [op.rank_tighter]
    omega
  · refine ⟨by rw [Expr.shape, Expr.shape, same, also], ?_⟩
    simp only [List.length_cons, List.length_append] at left
    omega

end

end Parser

/-! ## Expressions -/

/-- An expression that is neither the operation of a unary nor of a binary operator. -/
def Expr.isOperand : Expr → Bool
  | unary .. | binary .. => false
  | _ => true

/-- An expression whose layout is read as an expression of its shape, wherever it may stand without
parentheses. -/
structure Expr.Readable (sure : Prop) (room : Nat) (e : Expr) : Prop where
  base : ∀ level, e.isOperand → Parser.Base sure room (tokens (e.pieces level)) e
  operand : ∀ level, e.isLooserThan .unary = false →
    Parser.Operand sure room (tokens (e.pieces level)) e
  chain : ∀ level place, e.isLooserThan place = false →
    Parser.Chain sure room place (tokens (e.pieces level)) e

section
variable {sure : Prop} {room level : Nat} {place : Precedence} {e : Expr}

theorem Expr.Readable.of_base (h : ∀ level, Parser.Base sure room (tokens (e.pieces level)) e) :
    e.Readable sure room :=
  ⟨fun level _ => h level, fun level _ => (h level).operand, fun level _ _ =>
    (h level).operand.chain⟩

theorem Expr.Readable.of_operand (isOperand : e.isOperand = false)
    (h : ∀ level, Parser.Operand sure room (tokens (e.pieces level)) e) : e.Readable sure room :=
  ⟨fun _ is => absurd is (by simp [isOperand]), fun level _ => h level, fun level _ _ =>
    (h level).chain⟩

/-- A function is read back, surely with any room at least its own. -/
def Func.ReadsBack (sure : Prop) (f : Func) : Prop :=
  ∀ room level rest (named : Bool), (sure → f.room ≤ room) → (named → f.name.isSome) →
    Parser.Reads sure room (Parser.function (Deeper.levels room) named)
      (tokens (f.pieces level) ++ rest) pure rest (·.shape = f.shape)

/-- An expression that is readable, surely with any room at least its own; and so is the function
its text begins with. -/
structure Expr.ReadsBack (sure : Prop) (e : Expr) : Prop where
  readable : ∀ room, (sure → e.room ≤ room) → e.Readable sure room
  opener : ∀ f ∈ e.opener, f.ReadsBack sure

namespace Expr.ReadsBack

theorem full (h : e.ReadsBack sure) (fits : sure → e.room + 1 ≤ room) :
    Parser.Full sure room (tokens (e.pieces level)) e := by
  cases room with
  | zero => exact fun rest _ => .noRoom (fun s => Nat.not_succ_le_zero _ (fits s)) _
  | succ n =>
    refine ((h.readable n fun s => Nat.le_of_succ_le_succ (fits s)).chain level
      .logicalOr ?_).full
    cases e with
    | binary op left right span => cases op <;> rfl
    | _ => rfl

theorem base (h : e.ReadsBack sure) (fits : sure → e.room + e.needsGrouping.toNat ≤ room) :
    Parser.Base sure room (tokens (parens e.needsGrouping (e.pieces level))) e := by
  rw [tokens_parens]
  split
  · rename_i grouped
    rw [grouped] at fits
    exact (h.full fits).base
  · rename_i bare
    refine (h.readable room fun s => Nat.le_of_add_right_le (fits s)).base level ?_
    cases e <;> first | rfl | exact absurd rfl bare

theorem operand (h : e.ReadsBack sure) (fits : sure → e.room + (e.isLooserThan .unary).toNat ≤ room) :
    Parser.Operand sure room (tokens (parens (e.isLooserThan .unary) (e.pieces level))) e := by
  rw [tokens_parens]
  split
  · rename_i loose
    rw [loose] at fits
    exact (h.full fits).base.operand
  · rename_i tight
    exact (h.readable room fun s => Nat.le_of_add_right_le (fits s)).operand level
      (Bool.eq_false_iff.mpr tight)

theorem chain (h : e.ReadsBack sure) (fits : sure → e.room + (e.isLooserThan place).toNat ≤ room) :
    Parser.Chain sure room place (tokens (parens (e.isLooserThan place) (e.pieces level))) e := by
  rw [tokens_parens]
  split
  · rename_i loose
    rw [loose] at fits
    exact (h.full fits).base.operand.chain
  · rename_i tight
    exact (h.readable room fun s => Nat.le_of_add_right_le (fits s)).chain level place
      (Bool.eq_false_iff.mpr tight)

end Expr.ReadsBack

end

/-- **Operators.** An expression is readable if its operands and functions are. -/
theorem Expr.readable_of_parts {sure : Prop} {n : Nat} {e : Expr}
    (operands : ∀ o ∈ e.operands, o.ReadsBack sure) (functions : ∀ f ∈ e.functions, f.ReadsBack sure)
    (fits : sure → e.room ≤ n) : e.Readable sure n := by
  cases e with
  | int _ _ | str _ _ | null _ | ident _ =>
    refine .of_base fun _ => Parser.base_of_primary rfl rfl fun rest => ?_
    refine .step .ask fun _ _ => .step .token fun t ht => ?_
    subst ht
    exact .step .advance fun _ _ => .done rfl
  | bool value span =>
    cases value <;>
    · refine .of_base fun _ => Parser.base_of_primary rfl rfl fun rest => ?_
      refine .step .ask fun _ _ => .step .token fun t ht => ?_
      subst ht
      exact .step .advance fun _ _ => .done rfl
  | unary op o span =>
    rw [room] at fits
    refine .of_operand rfl fun level => Parser.operand_unary (fun s => by have := fits s; omega) ?_
    exact (operands o (by simp [Expr.operands])).operand fun s => by have := fits s; omega
  | binary op left right span =>
    simp only [room, Nat.max_le] at fits
    have chain : ∀ level, Parser.Chain sure n op.precedence
        (tokens ((binary op left right span).pieces level)) (binary op left right span) := by
      intro level
      rw [pieces, tokens_append, tokens_space, tokens_sym, tokens_space]
      refine ((operands left (by simp [Expr.operands])).chain fun s => (fits s).1).binary ?_
      exact ((operands right (by simp [Expr.operands])).chain fun s => (fits s).2).climbs
    refine ⟨fun _ is => ?_, fun _ tight => ?_, fun level place tight => ?_⟩
    · cases is
    · cases op <;> cases tight
    · have le : place.rank ≤ op.precedence.rank := by simpa [isLooserThan] using tight
      exact (chain level).mono le (Precedence.rank_tighter_mono le)
  | call callee arguments span =>
    simp only [room, Nat.max_le] at fits
    refine .of_base fun level => ?_
    rw [pieces, tokens_append, tokens_sym, tokens_append]
    refine ((operands callee (by simp [Expr.operands])).base fun s => (fits s).1).call fun a ha => ?_
    refine (operands a (by simp [Expr.operands, ha])).full ?_
    exact fun s => (room_le_listRoom ha).trans (fits s).2
  | member object property span =>
    refine .of_base fun level => ?_
    rw [pieces, tokens_append]
    exact ((operands object (by simp [Expr.operands])).base fits).member
  | func f =>
    have first : ∀ level, ∃ us, tokens (f.pieces level) = .word .function :: us := fun level => by
      obtain ⟨_, _, _, _, _⟩ := f
      exact ⟨_, rfl⟩
    refine .of_base fun level => Parser.base_of_primary (first level).choose_spec rfl fun rest => ?_
    refine .step .ask fun _ _ => .step .token fun t ht => ?_
    have run := functions f (by simp [Expr.functions]) n level rest false fits (by simp)
    obtain ⟨us, first⟩ := first level
    change t = (tokens (f.pieces level) ++ rest).headD .eof at ht
    rw [first] at ht
    subst ht
    exact .bind run fun g same => .done (congrArg Expr.func same)
  | defer bindings span =>
    refine .of_base fun level => Parser.base_of_primary rfl rfl fun rest => ?_
    have split : tokens ((defer bindings span).pieces level) ++ rest =
        .word .defer :: .sym .leftParen ::
          (Token.commas (bindings.map fun i => [.ident i.name]) ++ .sym .rightParen :: rest) := by
      rw [pieces, tokens_word, tokens_sym, tokens_append, tokens_names]
      simp only [List.cons_append, List.append_assoc]
      rfl
    rw [split]
    refine .step .ask fun _ _ => .step .token fun t ht => ?_
    subst ht
    refine .step .advance fun _ _ => .step (.expect rfl) fun _ _ => ?_
    refine .bind (.untilParen (R := fun i j => j.name = i.name) (fun i _ rest _ => ?_) fun i _ => ?_)
      fun is same => .step .ask fun _ _ => .done ?_
    · exact .suggesting .ident _
    · exact ⟨_, _, rfl, rfl⟩
    · rw [shape, shape, Ident.map_shape same]

theorem Expr.readsBack_of_parts {sure : Prop} {e : Expr} (operands : ∀ o ∈ e.operands, o.ReadsBack sure)
    (functions : ∀ f ∈ e.functions, f.ReadsBack sure) : e.ReadsBack sure := by
  refine ⟨fun _ => readable_of_parts operands functions, fun f hf => ?_⟩
  cases e with
  | func =>
    cases hf
    exact functions f (by simp [Expr.functions])
  | binary op left right span =>
    rw [opener] at hf
    split at hf
    · cases hf
    · exact (operands left (by simp [Expr.operands])).opener f hf
  | _ => cases hf

end WaitDefer
