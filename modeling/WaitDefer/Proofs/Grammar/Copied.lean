import Mathlib
import WaitDefer.Proofs.Grammar.Copying
import WaitDefer.Proofs.Grammar.Ids
import WaitDefer.Proofs.Grammar.RoundTrip
import WaitDefer.Proofs.Grammar.Rounds

/-!
# Nothing dropped, nothing made up

Each parser passes the tokens of what it reads: those of its layout, but for brackets. As the reading
of a module ends with the text, the layout of the module has the tokens of the text.

* `Expr.bare_binary`, `Expr.bare_call`: layouts without their brackets;
* `Deeper.Copies`, `Deeper.copies_levels`: the parsers at every level of nesting pass what they read;
* `Module.bare_words_print`: the words of a text and those of what was read, printed.
-/

namespace WaitDefer

set_option synthInstance.maxSize 512

open Piece

/-! ## Layouts without brackets -/

theorem Token.bare_parens (wanted : Bool) (ps : List Piece) :
    bare (tokens (parens wanted ps)) = bare (tokens ps) := by
  rw [tokens_parens]
  cases wanted <;> simp [isBracket]

theorem UnaryOp.isBracket_symbol (op : UnaryOp) : (Token.sym op.symbol).isBracket = false := by
  cases op <;> rfl

theorem BinaryOp.isBracket_symbol (op : BinaryOp) : (Token.sym op.symbol).isBracket = false := by
  cases op <;> rfl

theorem Scan.step_unary (op : UnaryOp) (met : List Bool) :
    step ⟨false, met⟩ (.sym op.symbol) = some ⟨false, met⟩ := by
  cases op <;> rfl

theorem Scan.step_binary (op : BinaryOp) (met : List Bool) :
    step ⟨false, met⟩ (.sym op.symbol) = some ⟨false, met⟩ := by
  cases op <;> rfl

namespace Expr

variable (level : Nat) (span : Span)

theorem bare_unary (op : UnaryOp) (e : Expr) :
    Token.bare (tokens ((unary op e span).pieces level)) =
      .sym op.symbol :: Token.bare (tokens (e.pieces level)) := by
  rw [pieces, tokens_sym, Token.bare_cons, op.isBracket_symbol, Token.bare_parens]
  rfl

theorem bare_binary (op : BinaryOp) (l r : Expr) :
    Token.bare (tokens ((binary op l r span).pieces level)) =
      Token.bare (tokens (l.pieces level)) ++
        .sym op.symbol :: Token.bare (tokens (r.pieces level)) := by
  rw [pieces, tokens_append, tokens_space, tokens_sym, tokens_space, Token.bare_append,
    Token.bare_parens, Token.bare_cons, op.isBracket_symbol, Token.bare_parens]
  rfl

theorem bare_call (callee : Expr) (arguments : List Expr) :
    Token.bare (tokens ((call callee arguments span).pieces level)) =
      Token.bare (tokens (callee.pieces level)) ++
        Token.bare (Token.commas (arguments.map fun e => tokens (e.pieces level))) := by
  rw [pieces, tokens_append, tokens_sym, tokens_append, tokens_listPieces]
  simp [Token.bare_parens, Token.isBracket, tokens_sym, tokens_nil]

theorem bare_member (object : Expr) (property : Ident) :
    Token.bare (tokens ((member object property span).pieces level)) =
      Token.bare (tokens (object.pieces level)) ++
        Token.bare [.sym .dot, .ofName property.name] := by
  rw [pieces, tokens_append, Token.bare_append, Token.bare_parens]
  rfl

end Expr

theorem Piece.tokens_ofOption {α : Type} (layout : α → List Piece) (o : Option α) :
    tokens (ofOption layout o) = o.elim [] fun a => tokens (layout a) := by
  cases o <;> rfl

theorem Statement.tokens_listPieces_append (level : Nat) (ss : List Statement) (s : Statement) :
    tokens (Statement.listPieces level (ss ++ [s])) =
      tokens (Statement.listPieces level ss) ++ s.kind.lineTokens level := by
  induction ss with
  | nil => exact (tokens_listPieces level s []).trans (List.append_nil _)
  | cons s' ss ih =>
    rw [List.cons_append, tokens_listPieces, ih, tokens_listPieces, List.append_assoc]

theorem Arm.tokens_listPieces_append (level : Nat) (arms : List Arm) (a : Arm) :
    tokens (Arm.listPieces level (arms ++ [a])) =
      tokens (Arm.listPieces level arms) ++ .word .case :: (tokens (a.test.pieces level) ++
        .sym .colon :: tokens (Statement.listPieces (level + 1) a.body.statements)) := by
  induction arms with
  | nil =>
    rw [List.nil_append, tokens_listPieces]
    simp [listPieces, tokens_nil]
  | cons a' arms ih => simp [tokens_listPieces, ih]

/-- Whether it is an `if` of its own or a block, the lines after an `else` are its words. -/
theorem Block.bare_elsePieces (b : Block) (level : Nat) : ∃ level',
    Token.bare (tokens (Statement.listPieces level' b.statements)) =
      Token.bare (tokens (b.elsePieces level)) := by
  obtain ⟨s, only, ⟨test, yes, no, kind⟩, same⟩ | same := b.elsePieces_cases level
  · refine ⟨level, ?_⟩
    rw [only, same, Statement.tokens_listPieces, StatementKind.lineTokens, kind]
    simp [StatementKind.ending, StatementKind.isSimple, Statement.listPieces, tokens_nil]
  · refine ⟨level + 1, ?_⟩
    rw [same, Block.tokens_pieces]
    simp [Token.isBracket]

/-! ## Expressions -/

/-- The parsers for what lies deeper pass the tokens of what they read. -/
structure Deeper.Copies (d : Deeper) : Prop where
  expression : ∀ level, Parser.Writes d.expression fun e => tokens (e.pieces level)
  unary : ∀ level, Parser.Writes d.unary fun e => tokens (e.pieces level)
  statement : ∀ level, Parser.Writes d.statement fun s => s.kind.lineTokens level

namespace Parser

theorem eq_of_unaryOp? {t : Token} {op : UnaryOp} (h : unaryOp? t = some op) :
    t = .sym op.symbol := by
  unfold unaryOp? at h
  split at h <;> cases h <;> rfl

theorem eq_of_binaryOp? {t : Token} {op : BinaryOp} (h : t.binaryOp? = some op) :
    t = .sym op.symbol := by
  cases t with
  | sym s => cases s <;> cases h <;> rfl
  | _ => cases h

theorem eq_of_operator? {least : Precedence} {t : Token} {op : BinaryOp}
    (h : operator? least t = some op) : t = .sym op.symbol := by
  unfold operator? at h
  split at h
  · split at h <;> cases h
    exact eq_of_binaryOp? ‹_›
  · cases h

section
variable {d : Deeper} [d.Keeps] (copies : d.Copies)
include copies

/-! ## Blocks and functions -/

theorem copies_statements (ends : List Token) (level n : Nat) (done : List Statement) (σ : Place) :
    Copies (σ.then (tokens (Statement.listPieces level done.reverse))) (statements d ends n done)
      fun ss => σ.then (tokens (Statement.listPieces level ss)) := by
  induction n generalizing done with
  | zero =>
    unfold statements
    refine .look fun ended => ?_
    split
    · exact .done rfl rfl rfl
    · exact .look fun span => .throw
  | succ n ih =>
    unfold statements
    refine .look fun ended => ?_
    split
    · exact .done rfl rfl rfl
    · refine .look fun start => ((copies.statement level _).attempt (fun s => ?_) fun e c => ?_)
      · have next := ih (s :: done)
        rwa [List.reverse_cons, Statement.tokens_listPieces_append, ← Place.then_then] at next
      · exact recorded_record e c

theorem writes_body (ends : List Token) (level : Nat) :
    Writes (statements d ends Limit.rounds []) fun ss => tokens (Statement.listPieces level ss) :=
  fun σ => (copies_statements copies ends level _ [] σ).start

/-- At whatever level the lines of a block are written. -/
theorem writes_block (level : Nat) : Writes (block d) fun b =>
    tokens (Statement.listPieces level b.statements) := by
  refine fun σ => .look fun start => .expect rfl rfl fun _ => .freshId fun id => ?_
  refine (writes_body copies _ level _).bind fun ss => .expect rfl rfl fun _ => ?_
  exact .look fun span => .done rfl (by simp [Place.then, Token.isBracket]) rfl

theorem writes_function (named : Bool) (level : Nat) :
    Writes (function d named) fun f => tokens (f.pieces level) := by
  refine fun σ => .look fun start => .expect rfl rfl fun _ => .freshId fun id => ?_
  refine (writes_ident? _).bind fun name => ?_
  have rest : Copies (((⟨none, σ.met, σ.words ++ Token.bare [.word .function]⟩ : Place)).then
      (name.toList.map fun i => .ident i.name))
      (do
        let _ ← expect (.sym .leftParen)
        let params ← untilParen ident
        let body ← block d
        return (⟨id, name, params, body, start.through body.span⟩ : Func))
      fun f => σ.then (tokens (f.pieces level)) := by
    refine .expect rfl rfl fun _ => (writes_ident.untilParen _).bind fun params => ?_
    refine (writes_block copies (level + 1) _).bind fun body => .done rfl ?_ rfl
    simp [Place.then, Func.tokens_pieces, Block.tokens_pieces, Token.isBracket]
  dsimp only
  split
  · exact ((Copies.unexpected _).suggesting _).bind fun _ => rest
  · exact rest

/-! ## Expressions -/

theorem writes_primary (level : Nat) : Writes (primary d) fun e => tokens (e.pieces level) := by
  refine fun σ => .look fun start => .token fun t => ?_
  split
  · exact .advance rfl rfl (.done rfl rfl rfl)
  · exact .advance rfl rfl (.done rfl rfl rfl)
  · exact .advance rfl rfl (.done rfl rfl rfl)
  · exact .advance rfl rfl (.done rfl rfl rfl)
  · exact .advance rfl rfl (.done rfl rfl rfl)
  · exact .advance rfl rfl (.done rfl rfl rfl)
  · refine .advance rfl rfl ((copies.expression level _).bind fun inner => ?_)
    exact .expect rfl rfl fun _ => .done rfl (by simp [Place.then, Token.isBracket]) rfl
  · exact (writes_function copies false level _).bind fun f => .done rfl rfl rfl
  · refine .advance rfl rfl (.expect rfl rfl fun _ => ?_)
    have named : Writes (suggesting "defer() binds plain identifiers only" ident) fun i =>
        [.ident i.name] := fun σ => (writes_ident σ).suggesting _
    refine (named.untilParen _).bind fun bindings => .look fun span => .done rfl ?_ rfl
    simp [Place.then, Expr.pieces, tokens_word, tokens_sym, tokens_append, tokens_names, tokens_nil,
      Token.isBracket]
  · exact .unexpected _

theorem copies_suffixes (level n : Nat) (e : Expr) (σ : Place) :
    Copies (σ.then (tokens (e.pieces level))) (suffixes d n e)
      fun e => σ.then (tokens (e.pieces level)) := by
  induction n generalizing e with
  | zero => exact .done rfl rfl rfl
  | succ n ih =>
    unfold suffixes
    refine .token fun t => ?_
    split
    · refine .advance rfl rfl (((copies.expression level).untilParen _).bind fun arguments => ?_)
      refine .look fun span => ?_
      have next := ih (.call e arguments span)
      rw [Place.then, Expr.bare_call] at next
      simpa [Place.then, Token.isBracket] using next
    · refine .property fun i => ?_
      have next := ih (.member e i (e.span.through i.span))
      rw [Place.then, Expr.bare_member] at next
      simpa only [Place.then, List.append_assoc] using next
    · exact .done rfl rfl rfl

theorem writes_unary (level : Nat) : Writes (unary d) fun e => tokens (e.pieces level) := by
  refine fun σ => .look fun start => .token fun t => ?_
  cases found : unaryOp? t with
  | some op =>
    cases eq_of_unaryOp? found
    refine .advance (Scan.step_unary op _) rfl ?_
    refine ((copies.unary level).nested "unary" _).bind fun operand => .done rfl ?_ rfl
    simp [Place.then, Expr.bare_unary, op.isBracket_symbol]
  | none =>
    refine (writes_primary copies level _).bind fun e => .look fun n => ?_
    exact copies_suffixes copies level n e σ

omit [d.Keeps] copies in
theorem copies_operators {right : Precedence → Parser Expr} [∀ place, Keeps (right place)]
    {level : Nat} (writes : ∀ place, Writes (right place) fun e => tokens (e.pieces level)) 
    (least : Precedence) (n : Nat) (left : Expr) (σ : Place) :
    Copies (σ.then (tokens (left.pieces level))) (operators right least n left)
      fun e => σ.then (tokens (e.pieces level)) := by
  induction n generalizing left with
  | zero => exact .done rfl rfl rfl
  | succ n ih =>
    unfold operators
    refine .token fun t => ?_
    cases found : operator? least t with
    | none => exact .done rfl rfl rfl
    | some op =>
      cases eq_of_operator? found
      refine .advance (Scan.step_binary op _) rfl ((writes _ _).bind fun operand => ?_)
      have next := ih (.binary op left operand (left.span.through operand.span))
      rw [Place.then, Expr.bare_binary] at next
      simpa [Place.then, op.isBracket_symbol] using next

theorem writes_climb (level levels : Nat) (least : Precedence) :
    Writes (climb d levels least) fun e => tokens (e.pieces level) := by
  induction levels generalizing least with
  | zero => exact writes_unary copies level
  | succ levels ih =>
    refine fun σ => (writes_unary copies level _).bind fun left => .look fun n => ?_
    exact copies_operators ih least n left σ

/-! ## Statements -/

omit [d.Keeps] copies in
/-- A statement that ends with a brace or with a semicolon of its own. -/
theorem Copies.line {σ τ : Place} {id : NodeId} {kind : StatementKind} {span : Span} {level : Nat}
    (compound : kind.isSimple = false) (met : τ.met = σ.met)
    (words : σ.words = (τ.then (tokens (kind.pieces level))).words) :
    Copies σ (pure ⟨id, kind, span⟩) fun s : Statement => τ.then (s.kind.lineTokens level) := by
  refine .done met (words.trans ?_) rfl
  simp [Place.then, StatementKind.lineTokens, StatementKind.ending, compound, tokens_nil]

omit [d.Keeps] copies in
theorem gives_simple (declarations : Bool) :
    Gives (simple d declarations) (·.kind.isSimple) := by
  refine .after fun start => .after fun declares => ?_
  split
  · refine .unless fun _ => .after fun _ => .after fun id => .after fun name => ?_
    refine .after fun assigned => ?_
    dsimp only
    split <;> exact .after fun init => .after fun span => .done rfl
  · refine .after fun id => .after fun target => .after fun assigned => ?_
    split
    · exact .unless fun _ => .after fun value => .after fun span => .done rfl
    · exact .after fun span => .done rfl

theorem writes_condition (level : Nat) : Writes (condition d) fun e => tokens (e.pieces level) := by
  refine fun σ => .expect rfl rfl fun _ => (copies.expression level _).bind fun e => ?_
  exact .expect rfl rfl fun _ => .done rfl (by simp [Place.then, Token.isBracket]) rfl

theorem writes_simple (declarations : Bool) (level : Nat) :
    Writes (simple d declarations) fun s => tokens (s.kind.pieces level) := by
  refine fun σ => .look fun start => .sees rfl ?_ ?_
  · rw [if_pos rfl]
    refine .unless fun _ => ?_
    refine .advance rfl rfl (.freshId fun id => (writes_ident _).bind fun name => ?_)
    refine .eat rfl (fun met step => ?_) ?_
    · cases step
      rw [if_pos rfl, bind_map_left]
      refine (copies.expression level _).bind fun init => .look fun span => .done rfl ?_ rfl
      simp [Place.then, StatementKind.pieces, tokens_word, tokens_space, tokens_name, tokens_sym,
        Token.isBracket]
    · rw [if_neg Bool.false_ne_true, pure_bind]
      refine .look fun span => .done rfl ?_ rfl
      simp [Place.then, StatementKind.pieces, tokens_word, tokens_space, tokens_name, tokens_nil,
        Token.isBracket]
  · refine .freshId fun id => (copies.expression level _).bind fun target => ?_
    refine .eat rfl (fun met step => ?_) ?_
    · cases step
      rw [if_pos rfl]
      refine .unless fun _ => ?_
      refine (copies.expression level _).bind fun value => .look fun span => .done rfl ?_ rfl
      simp [Place.then, StatementKind.pieces, tokens_append, tokens_space, tokens_sym,
        Token.isBracket]
    · exact .look fun span => .done rfl rfl rfl

omit [d.Keeps] copies in
theorem writes_else {α : Type} {p : Parser α} (body : α → Block)
    (h : ∀ level, Writes p fun a => tokens (Statement.listPieces level (body a).statements))
    (level : Nat) : Writes p fun a => tokens ((body a).elsePieces level) := fun σ =>
  .of_exists (fun level => h level σ) fun a => ((body a).bare_elsePieces level).imp fun _ same => by
    rw [Place.then, Place.then, same]

theorem writes_branch (level : Nat) :
    Writes (branch d) fun s => s.kind.lineTokens level := by
  refine fun σ => .look fun start => .expect rfl rfl fun _ => .freshId fun id => ?_
  refine (writes_condition copies level _).bind fun test => ?_
  refine (writes_block copies (level + 1) _).bind fun yes => ?_
  refine .eat rfl (fun met step => ?_) ?_
  · cases step
    rw [if_pos rfl]
    refine .look fun again => ?_
    split
    · refine .freshId fun blockId => ?_
      have one : ∀ level, Writes d.statement fun s => tokens (Statement.listPieces level [s]) := by
        intro level
        have line (s : Statement) :
            tokens (Statement.listPieces level [s]) = s.kind.lineTokens level :=
          (Statement.tokens_listPieces level s []).trans (List.append_nil _)
        simpa only [line] using copies.statement level
      refine (writes_else (fun s => ⟨blockId, [s], s.span⟩) one level _).bind fun s => ?_
      rw [pure_bind]
      refine .look fun span => .line rfl rfl ?_
      simp [Place.then, StatementKind.tokens_branch, Block.elseTokens, Block.tokens_pieces,
        Token.isBracket]
    · rw [bind_map_left]
      refine (writes_else (fun b => b) (writes_block copies) level _).bind fun no => ?_
      refine .look fun span => .line rfl rfl ?_
      simp [Place.then, StatementKind.tokens_branch, Block.elseTokens, Block.tokens_pieces,
        Token.isBracket]
  · rw [if_neg Bool.false_ne_true, pure_bind]
    refine .look fun span => .line rfl rfl ?_
    simp [Place.then, StatementKind.tokens_branch, Block.elseTokens, Block.tokens_pieces,
      Token.isBracket]

/-- The tokens of some arms, the one for all other values last. -/
def armTokens (level : Nat) (r : List Arm × Option Block) : List Token :=
  tokens (Arm.listPieces (level + 1) r.1) ++ Block.defaultTokens (level + 2) r.2

theorem copies_arms (level n : Nat) (done : List Arm) (otherwise : Option Block) {met : List Bool}
    {words : List Token} :
    Copies
      ⟨none, otherwise.isSome :: met,
        words ++ Token.bare (armTokens level (done.reverse, otherwise))⟩
      (arms d n done otherwise)
      fun r => ⟨none, r.2.isSome :: met, words ++ Token.bare (armTokens level r)⟩ := by
  induction n generalizing done otherwise with
  | zero =>
    unfold arms
    refine .look fun ended => ?_
    split
    · exact .done rfl rfl rfl
    · exact .look fun span => .throw
  | succ n ih =>
    unfold arms
    refine .look fun ended => ?_
    split
    · exact .done rfl rfl rfl
    refine .look fun start => .eat rfl (fun met step => ?_) ?_
    · rw [if_pos rfl]
      cases otherwise with
      | some b => cases step -- no arm comes after the one for all other values
      | none =>
        cases step
        refine (copies.expression (level + 1) _).bind fun test => .expect rfl rfl fun _ => ?_
        refine .freshId fun id => (writes_body copies _ (level + 2) _).bind fun ss => ?_
        refine .look fun span => ?_
        have next := ih (⟨test, ⟨id, ss, span⟩, span⟩ :: done) none
        rw [armTokens, List.reverse_cons, Arm.tokens_listPieces_append] at next
        simpa [Place.then, armTokens, Block.defaultTokens, Token.isBracket] using next
    · rw [if_neg Bool.false_ne_true]
      refine .eat rfl (fun met step => ?_) ?_
      · cases step
        rw [if_pos rfl]
        refine .expect rfl rfl fun _ => .freshId fun id => ?_
        refine (writes_body copies _ (level + 2) _).bind fun ss => ?_
        refine .unless fun first => .look fun span => ?_
        have next := ih done (some ⟨id, ss, span⟩)
        have none : otherwise = none := by simpa using first
        subst none
        simpa [Place.then, armTokens, Block.defaultTokens, Token.isBracket] using next
      · exact .unexpected _

theorem writes_switch (level : Nat) :
    Writes (switch d) fun s => s.kind.lineTokens level := by
  refine fun σ => .look fun start => .expect rfl rfl fun _ => .freshId fun id => ?_
  refine (writes_condition copies level _).bind fun subject => .expect rfl rfl fun _ => ?_
  refine (copies_arms copies level Limit.rounds [] none).bind fun r => ?_
  refine .expect rfl rfl fun _ => .look fun span => .line rfl rfl ?_
  simp [Place.then, StatementKind.tokens_switch, armTokens, Token.isBracket]

theorem copies_headAndBody {first : Token} (starts : startsLoop first) (level : Nat) (σ : Place) :
    Copies (σ.then [first]) (headAndBody d first)
      fun r => σ.then (tokens ((StatementKind.loop none r.1 r.2).pieces level)) := by
  unfold headAndBody
  split
  · refine (writes_condition copies level _).bind fun test => ?_
    refine (writes_block copies (level + 1) _).bind fun body => .done rfl ?_ rfl
    simp [Place.then, StatementKind.tokens_while, Block.tokens_pieces, Token.isBracket]
  · refine (writes_block copies (level + 1) _).bind fun body => .expect rfl rfl fun _ => ?_
    refine (writes_condition copies level _).bind fun test => ?_
    refine .expect rfl rfl fun _ => .done rfl ?_ rfl
    simp [Place.then, StatementKind.tokens_do, Block.tokens_pieces, Token.isBracket]
  · rename_i noWhile noDo
    have isFor : first = .word .for := by
      unfold startsLoop at starts
      split at starts
      · exact absurd rfl noWhile
      · exact absurd rfl noDo
      · rfl
      · cases starts
    subst isFor
    refine .expect rfl rfl fun _ => ?_
    refine ((writes_simple copies true level).unlessAt _ _).bind fun init => ?_
    refine .expect rfl rfl fun _ => ((copies.expression level).unlessAt _ _).bind fun test => ?_
    refine .expect rfl rfl fun _ => ?_
    refine ((writes_simple copies false level).unlessAt _ _).bind fun update => ?_
    refine .expect rfl rfl fun _ => (writes_block copies (level + 1) _).bind fun body => ?_
    refine .done rfl ?_ rfl
    simp [Place.then, StatementKind.tokens_for, tokens_ofOption, Block.tokens_pieces,
      Token.isBracket]

theorem copies_loop (label : Option Ident) (start : Span) {first : Token}
    (starts : startsLoop first) (level : Nat) (σ : Place) :
    Copies ((σ.then (tokens (labelOf label))).seeing first) (loop d label start)
      fun s => σ.then (s.kind.lineTokens level) := by
  have step : Scan.step ⟨false, σ.met⟩ first = some ⟨false, σ.met⟩ := by
    unfold startsLoop at starts
    split at starts <;> first | rfl | cases starts
  have more : (first == .eof) = false := by
    refine beq_eq_false_iff_ne.mpr ?_
    rintro rfl
    cases starts
  refine .advance step more (.freshId fun id => ?_)
  refine (copies_headAndBody copies starts level (σ.then (tokens (labelOf label)))).bind fun r => ?_
  refine .look fun span => .line rfl rfl ?_
  rw [StatementKind.tokens_loop level label]
  simp [Place.then]

omit [d.Keeps] copies in
theorem copies_jump (kind : JumpKind) (level : Nat) (σ : Place) :
    Copies (σ.seeing (.word kind.keyword)) (jump kind)
      fun s => σ.then (s.kind.lineTokens level) := by
  have step : Scan.step ⟨false, σ.met⟩ (.word kind.keyword) = some ⟨false, σ.met⟩ := by
    cases kind <;> rfl
  refine .look fun start => .advance step rfl (.freshId fun id => ?_)
  refine (writes_ident? _).bind fun label => .expect rfl rfl fun _ => .look fun span => ?_
  refine .line rfl rfl ?_
  simp [Place.then, StatementKind.tokens_jump, Token.isBracket]

theorem writes_labelled (level : Nat) :
    Writes (labelled d) fun s => s.kind.lineTokens level := by
  refine fun σ => .look fun start => (writes_ident _).bind fun label => .expect rfl rfl fun _ => ?_
  refine .token fun t => ?_
  split
  · rename_i starts
    have next := copies_loop copies (some label) start starts level σ
    simpa [Place.then, Place.seeing, labelOf, tokens_name, tokens_sym, tokens_space, tokens_nil,
      Token.isBracket] using next
  · exact .throw

theorem writes_simpleLine (level : Nat) :
    Writes (simpleLine d) fun s => s.kind.lineTokens level := by
  refine fun σ => .look fun start => ?_
  refine (writes_simple copies true level _).bind_gives (gives_simple true) fun s simple => ?_
  refine .expect rfl rfl fun _ => .look fun span => .done rfl ?_ rfl
  simp [Place.then, StatementKind.lineTokens, StatementKind.ending, simple, tokens_sym, tokens_nil,
    Token.isBracket]

theorem writes_statement (level : Nat) :
    Writes (statement d) fun s => s.kind.lineTokens level := by
  have loose : ∀ start first, startsLoop first → ∀ σ : Place, Copies (σ.seeing first)
      (loop d none start) fun s => σ.then (s.kind.lineTokens level) := by
    intro start first starts σ
    have next := copies_loop copies none start starts level σ
    simpa [labelOf, tokens_nil, Place.then, Place.seeing] using next
  refine fun σ => .look fun start => .token fun t => ?_
  split
  · exact .freshId fun id => (writes_function copies true level _).bind fun f => .line rfl rfl rfl
  · exact writes_branch copies level _
  · exact writes_switch copies level _
  · exact loose start _ rfl σ
  · exact loose start _ rfl σ
  · exact loose start _ rfl σ
  · refine .look fun next => ?_
    split
    · exact writes_labelled copies level _
    · exact writes_simpleLine copies level _
  · exact copies_jump .leave level σ
  · exact copies_jump .resume level σ
  · refine .advance rfl rfl (.freshId fun id => ?_)
    refine ((copies.expression level).unlessAt _ _).bind fun value => .expect rfl rfl fun _ => ?_
    refine .look fun span => .line rfl rfl ?_
    simp [Place.then, StatementKind.tokens_ret, tokens_ofOption, Token.isBracket]
  · refine .advance rfl rfl (.freshId fun id => ?_)
    refine (writes_block copies (level + 1) _).bind fun body => ?_
    refine .look fun span => .line rfl rfl ?_
    simp [Place.then, StatementKind.pieces, Block.tokens_pieces, tokens_word, tokens_space,
      Token.isBracket]
  · refine .freshId fun id => (writes_block copies (level + 1) _).bind fun body => .line rfl rfl ?_
    simp [Place.then, Place.seeing, StatementKind.pieces, Block.tokens_pieces, Token.isBracket]
  · exact writes_simpleLine copies level _

end
end Parser

/-! ## The whole grammar -/

theorem Deeper.copies_levels (n : Nat) : (levels n).Copies := by
  induction n with
  | zero => exact ⟨fun _ _ => .noRoom _, fun _ _ => .noRoom _, fun _ _ => .noRoom _⟩
  | succ n ih =>
    exact ⟨fun level => (Parser.writes_climb ih level _ _).nested _,
      fun level => Parser.writes_unary ih level,
      fun level => (Parser.writes_statement ih level).nested _⟩

theorem Module.tokens_listPieces_append (fs : List Func) (f : Func) :
    tokens (listPieces (fs ++ [f])) = tokens (listPieces fs) ++ tokens (f.pieces 0) := by
  induction fs with
  | nil => exact (tokens_listPieces f []).trans (List.append_nil _)
  | cons g fs ih =>
    rw [List.cons_append, tokens_listPieces, ih, tokens_listPieces, List.append_assoc]

theorem Parser.copies_functions (n : Nat) (done : List Func) (σ : Place) :
    Copies (σ.then (tokens (Module.listPieces done.reverse))) (functions n done)
      fun fs => σ.then (tokens (Module.listPieces fs)) := by
  induction n generalizing done with
  | zero => exact .done rfl rfl rfl
  | succ n ih =>
    unfold functions
    refine .look fun ended => ?_
    split
    · exact .done rfl rfl rfl
    · have one := writes_function (Deeper.copies_levels Limit.nesting) true 0
      refine (one _).attempt (fun f => ?_) fun e c => recorded_record e c
      have next := ih (f :: done)
      rwa [List.reverse_cons, Module.tokens_listPieces_append, ← Place.then_then] at next

/-- All words of a text are passed on the way to its end. -/
theorem Cursor.passed_onTokens {ws : List Located} {last : Located} {d : Cursor}
    (h : d.pos + 1 = (onTokens ws last).tokens.size) :
    (onTokens ws last).passed d = ws.map Located.token := by
  have all : d.pos = ws.length := by simpa [onTokens] using h
  rw [passed, all]
  change (((ws ++ [last]).drop 0).take (ws.length - 0)).map Located.token = _
  rw [List.drop_zero, Nat.sub_zero, List.take_left' rfl]

/-- **Nothing is dropped, made up or moved.** The words of a text that is read, and the words of
what was read, printed, are the same but for brackets, if the arms for all other values come
last. -/
theorem Module.bare_words_print {source : String} {m : Module} {ws : List Located}
    (read : parse source = .ok m) (words : Lexer.words source = .ok ws)
    (last : Token.defaultsLast (ws.map Located.token)) :
    ∃ ws', Lexer.words m.print = .ok ws' ∧
      Token.bare (ws'.map Located.token) = Token.bare (ws.map Located.token) := by
  have legible : ∀ f ∈ m.functions, f.Legible := fun f hf n hn =>
    (legible_of_parse read).1 n (List.mem_flatMap.mpr ⟨f, hf, hn⟩)
  obtain ⟨ws', printed, tokens⟩ := words_print legible
  refine ⟨ws', printed, ?_⟩
  rw [tokens]
  have start : Cursor.ofSource source = .ok (.onTokens ws (Lexer.endOf source.toList)) := by
    rw [Cursor.ofSource, words]
    rfl
  rw [parse, start] at read
  have ends : (Cursor.onTokens ws (Lexer.endOf source.toList)).Ends := by
    simp [Cursor.Ends, Cursor.onTokens, Lexer.endOf]
  obtain ⟨d, run, clean, -, whole⟩ := Parser.wholeModule_atEnd ends read
  have reached := whole fun t ht => Lexer.ne_eof_words words (by simpa [Cursor.onTokens] using ht)
  obtain ⟨s, scan⟩ := Option.isSome_iff_exists.mp last
  have passed := Cursor.passed_onTokens reached
  rw [← passed] at scan
  obtain ⟨-, same, -⟩ := (Parser.copies_functions _ [] ⟨none, [], []⟩).start _ m.functions d s
    (Cursor.lexical_ofSource start) ends (by simp) run clean scan
  rw [passed] at same
  exact same.symm

/-- A switch whose arm for all other values is the last one, with parentheses and braces that
printing leaves out, and a word that is a name. -/
def orderly : String :=
  "function f(a) { switch ((a.case)) { case (1): default: if (a) {} else { if (1) {} } } }"

theorem bare_words_print_orderly : ∃ m ws ws', Module.parse orderly = .ok m ∧
    Lexer.words orderly = .ok ws ∧ Token.defaultsLast (ws.map Located.token) ∧
      Lexer.words m.print = .ok ws' ∧
        Token.bare (ws'.map Located.token) = Token.bare (ws.map Located.token) := by
  obtain ⟨m, read⟩ : ∃ m, Module.parse orderly = .ok m := by
    have check : (Module.parse orderly).toBool := by decide +kernel
    cases read : Module.parse orderly with
    | ok m => exact ⟨m, rfl⟩
    | error e => rw [read] at check; cases check
  obtain ⟨ws, words, last⟩ : ∃ ws, Lexer.words orderly = .ok ws ∧
      Token.defaultsLast (ws.map Located.token) := by
    have check : (Lexer.words orderly).toOption.any
        fun ws => Token.defaultsLast (ws.map Located.token) := by decide +kernel
    cases words : Lexer.words orderly with
    | ok ws => rw [words] at check; exact ⟨ws, rfl, check⟩
    | error e => rw [words] at check; cases check
  obtain ⟨ws', printed, same⟩ := Module.bare_words_print read words last
  exact ⟨m, ws, ws', read, words, last, printed, same⟩

end WaitDefer
