import WaitDefer.Proofs.Grammar.Printable
import WaitDefer.Proofs.Grammar.Spelling

/-!
# Layout

A layout puts blanks where two tokens could be taken for one:

* `Piece.Follows`: pieces that may come after a word, or after a sign, and are read as their tokens;
* `Expr.follows`, `Func.follows`: the layout of a tree is read as its tokens;
* `Module.words_print`: the words of a printed module are the tokens of its layout.
-/

namespace WaitDefer

namespace Piece

/-- The characters of several pieces. -/
def chars (ps : List Piece) : List Char := ps.flatMap fun p => p.text.toList

theorem toList_render (ps : List Piece) : (render ps).toList = chars ps := by
  rw [render, chars, String.toList_join, List.flatMap_map]

theorem toList_pushn (s : String) (c : Char) (n : Nat) :
    (s.pushn c n).toList = s.toList ++ List.replicate n c := by
  induction n with
  | zero => exact (List.append_nil _).symm
  | succ n ih =>
    change ((s.pushn c n).push c).toList = _
    rw [String.toList_push, ih, List.append_assoc, List.replicate_succ']

/-! ## Pieces one after the other -/

/-- What stands right before some pieces: an operator or punctuation, or possibly a word. -/
inductive Before
  | sign | word
  deriving DecidableEq

/-- Pieces that are read as their tokens, and whose text goes on with no token before them. -/
structure Follows (before : Before) (ps : List Piece) : Prop where
  spells : Lexer.Spells (chars ps) (tokens ps)
  clear : Lexer.Clear (chars ps)
  apart : before = .word → Lexer.Apart (chars ps)

namespace Follows

variable {b : Before} {ps : List Piece}

theorem nil : Follows b [] :=
  ⟨Lexer.spells_nil, fun _ h => (nomatch h), fun _ _ h => (nomatch h)⟩

theorem space (h : Follows .sign ps) : Follows b (space :: ps) where
  spells := h.spells.blank rfl
  clear c hc := by cases hc; decide
  apart _ c hc := by cases hc; decide

theorem newline (h : Follows .sign ps) : Follows b (newline :: ps) where
  spells := h.spells.blank rfl
  clear c hc := by cases hc; decide
  apart _ c hc := by cases hc; decide

theorem indent (level : Nat) (h : Follows .sign ps) : Follows .sign (indent level :: ps) := by
  have blanks : chars (Piece.indent level :: ps) = List.replicate (4 * level) ' ' ++ chars ps := by
    rw [chars, List.flatMap_cons]
    exact congrArg (· ++ _) (toList_pushn _ _ _)
  refine ⟨?_, ?_, by simp⟩
  · rw [blanks]
    induction 4 * level with
    | zero => exact h.spells
    | succ n ih => exact ih.blank rfl
  · rw [blanks]
    cases 4 * level with
    | zero => exact h.clear
    | succ n =>
      intro c hc
      cases hc
      decide

theorem ofName {name : String} {t : Token} (spelling : (tok t).text = name)
    (token : .ofName name = t) (identifier : Lexer.isIdentifier name) (h : Follows .word ps) :
    Follows .sign (tok t :: ps) := by
  have text : chars (tok t :: ps) = name.toList ++ chars ps := by rw [← spelling]; rfl
  refine ⟨?_, ?_, by simp⟩
  · rw [text]
    subst token
    exact .name identifier (h.apart rfl) h.spells
  · rw [text]
    exact Lexer.clear_name identifier _

theorem word {k : Keyword} (h : Follows .word ps) : Follows .sign (word k :: ps) :=
  h.ofName rfl (Lexer.ofName_keyword k) (Lexer.isIdentifier_keyword k)

theorem name {i : Ident} (isName : Lexer.isName i.name) (h : Follows .word ps) :
    Follows .sign (name i :: ps) := by
  obtain ⟨identifier, free⟩ := Bool.and_eq_true_iff.mp isName
  refine h.ofName rfl ?_ identifier
  change Token.ofName i.name = _
  rw [Token.ofName, Option.isNone_iff_eq_none.mp free]

theorem property {i : Ident} (identifier : Lexer.isIdentifier i.name) (h : Follows .word ps) :
    Follows .sign (tok (.ofName i.name) :: ps) := by
  refine h.ofName ?_ rfl identifier
  unfold Token.ofName
  split
  · rename_i k found
    exact eq_of_beq (List.find?_some found :)
  · rfl

theorem int {value : Int} (positive : 0 ≤ value) (small : value < Lexer.intBound)
    (h : Follows .word ps) : Follows .sign (tok (.int value) :: ps) := by
  obtain ⟨n, rfl⟩ := Int.eq_ofNat_of_zero_le positive
  exact ⟨.int (Int.ofNat_lt.mp small) (h.apart rfl) h.spells, Lexer.clear_repr n _, by simp⟩

theorem str {s : String} (h : Follows .sign ps) : Follows .sign (tok (.str s) :: ps) where
  spells := h.spells.str
  clear c hc := by
    rw [chars, List.flatMap_cons, text, quote, String.toList_ofList] at hc
    cases hc
    decide
  apart := by simp

/-- A sign that may stand right after another token. -/
def isMark : Symbol → Bool
  | .equal | .equalEqual | .slash | .star => false
  | _ => true

theorem sym {s : Symbol} (mark : isMark s) (h : Follows .sign ps) : Follows b (sym s :: ps) where
  spells := h.spells.sym h.clear
  clear := by
    intro c hc
    cases s <;> cases hc <;> first | decide | cases mark
  apart _ c hc := by cases s <;> cases hc <;> decide

/-- A binary operator, or the sign of an assignment, stands between blanks. -/
theorem operator {s : Symbol} (h : Follows .sign ps) :
    Follows b (Piece.space :: Piece.sym s :: Piece.space :: ps) where
  spells := .blank rfl (.sym (space (b := .sign) h).clear (space (b := .sign) h).spells)
  clear c hc := by cases hc; decide
  apart _ c hc := by cases hc; decide

/-- What may follow a word may follow a sign. -/
theorem weaken (h : Follows b ps) : Follows .sign ps := ⟨h.spells, h.clear, by simp⟩

end Follows

/-! ## Layouts -/

/-- Pieces that may come after a sign, with anything behind them that may come after a word. -/
def Flows (qs : List Piece) : Prop := ∀ ps, Follows .word ps → Follows .sign (qs ++ ps)

/-- Pieces that end where anything may begin. -/
def Lines (qs : List Piece) : Prop := ∀ ps, Follows .sign ps → Follows .sign (qs ++ ps)

theorem Flows.parens {qs : List Piece} (h : Flows qs) (wanted : Bool) :
    Flows (parens wanted qs) := by
  intro ps next
  unfold Piece.parens
  split
  · simp only [List.cons_append, List.append_assoc, List.nil_append]
    exact .sym rfl (h _ (.sym rfl next.weaken))
  · exact h ps next

theorem flows_names {is : List Ident} (named : ∀ i ∈ is, Lexer.isName i.name) :
    Flows (names is) := by
  intro ps next
  induction is using names.induct with
  | case1 => exact next.weaken
  | case2 i => exact .name (named i (by simp)) next
  | case3 i is more ih =>
    rw [names.eq_3 _ _ more]
    exact .name (named i (by simp)) (.sym rfl (.space (ih fun j hj => named j (by simp [hj]))))

theorem lines_labelOf {label : Option Ident} (named : label.all (Lexer.isName ·.name)) :
    Lines (labelOf label) := by
  intro ps next
  cases label with
  | none => exact next
  | some i => exact .name named (.sym rfl (.space next))

theorem Lines.braces {qs : List Piece} (h : Lines qs) (level : Nat) {b : Before} {ps : List Piece}
    (next : Follows .sign ps) : Follows b (braces level qs ++ ps) := by
  unfold Piece.braces
  split
  · exact .sym rfl (.sym rfl next)
  · simp only [List.cons_append, List.append_assoc, List.nil_append]
    exact .sym rfl (.newline (h _ (.indent level (.sym rfl next))))

end Piece

open Piece

/-- After an `else` stands the one `if` of a block or else the block. -/
theorem Block.elsePieces_cases (b : Block) (level : Nat) :
    (∃ s, b.statements = [s] ∧ (∃ test yes no, s.kind = .branch test yes no) ∧
      b.elsePieces level = s.kind.pieces level) ∨ b.elsePieces level = b.pieces level := by
  unfold elsePieces
  split
  · exact .inl ⟨_, rfl, ⟨_, _, _, rfl⟩, rfl⟩
  · exact .inr rfl

theorem Block.pieces_eq (b : Block) (level : Nat) :
    b.pieces level = braces level (Statement.listPieces (level + 1) b.statements) := by
  obtain ⟨id, ss, span⟩ := b
  rw [pieces]

theorem Expr.flows_listPieces {es : List Expr} {level : Nat}
    (h : ∀ e ∈ es, Flows (e.pieces level)) : Flows (Expr.listPieces level es) := by
  intro ps next
  induction es with
  | nil => exact next.weaken
  | cons e es ih =>
    cases es with
    | nil => exact h e List.mem_cons_self ps next
    | cons e' es =>
      rw [Expr.listPieces, List.append_assoc]
      · refine h e List.mem_cons_self _ (.sym rfl (.space (ih fun x hx => h x ?_)))
        exact List.mem_cons_of_mem _ hx
      · exact fun none => nomatch none

theorem Statement.lines_listPieces {ss : List Statement} {level : Nat}
    (h : ∀ s ∈ ss, Flows (s.kind.pieces level)) : Lines (Statement.listPieces level ss) := by
  intro ps next
  induction ss with
  | nil => exact next
  | cons s ss ih =>
    have more := ih fun t ht => h t (List.mem_cons_of_mem _ ht)
    obtain ⟨id, kind, span⟩ := s
    have first := h _ List.mem_cons_self
    simp only [listPieces, linePieces, List.cons_append, List.append_assoc, List.nil_append]
    refine .indent level (first _ ?_)
    unfold StatementKind.ending
    split
    · exact .sym rfl (.newline more)
    · exact .newline more

theorem Arm.lines_listPieces {arms : List Arm} {level : Nat}
    (tests : ∀ a ∈ arms, Flows (a.test.pieces level))
    (bodies : ∀ a ∈ arms, Lines (Statement.listPieces (level + 1) a.body.statements)) :
    Lines (Arm.listPieces level arms) := by
  intro ps next
  induction arms with
  | nil => exact next
  | cons a arms ih =>
    have more := ih (fun x hx => tests x (List.mem_cons_of_mem _ hx))
      fun x hx => bodies x (List.mem_cons_of_mem _ hx)
    have test := tests a List.mem_cons_self
    have body := bodies a List.mem_cons_self
    obtain ⟨t, ⟨id, ss, _⟩, span⟩ := a
    simp only [listPieces, List.cons_append, List.append_assoc]
    exact .indent level (.word (.space (test _ (.sym rfl (.newline (body _ more))))))

/-- The layout of a part that may be missing. -/
def Piece.ofOption {α : Type} (layout : α → List Piece) : Option α → List Piece
  | some a => layout a
  | none => []

theorem Piece.flows_ofOption {α : Type} {layout : α → List Piece} {o : Option α}
    (h : ∀ a ∈ o, Flows (layout a)) : Flows (ofOption layout o) := by
  intro ps next
  cases o with
  | none => exact next.weaken
  | some a => exact h a rfl ps next

/-- A counting loop, its optional parts treated alike. -/
theorem StatementKind.pieces_counting (level : Nat) (label : Option Ident)
    (init update : Option Statement) (test : Option Expr) (body : Block) :
    (StatementKind.loop label (.counting init test update) body).pieces level =
      labelOf label ++ (word .for :: space :: sym .leftParen ::
        (ofOption (fun s => s.kind.pieces level) init ++ (sym .semicolon ::
          (ofOption (fun e => space :: e.pieces level) test ++ (sym .semicolon ::
            (ofOption (fun s => space :: s.kind.pieces level) update ++
              (sym .rightParen :: space :: body.pieces level))))))) := by
  rcases init with _ | ⟨_, _, _⟩ <;> rcases update with _ | ⟨_, _, _⟩ <;> cases test <;>
    (conv_lhs => unfold pieces) <;> rfl

section
variable {kind : StatementKind} {level : Nat}

/-- The layout of a statement is read as its tokens if that of each part is. -/
theorem StatementKind.flows_pieces (own : kind.isPrintable)
    (declared : ∀ i ∈ kind.declared, Lexer.isName i.name)
    (exprs : ∀ e ∈ kind.tests ++ kind.operands, ∀ level, Flows (e.pieces level))
    (headers : ∀ h ∈ kind.headers, Flows (h.kind.pieces level))
    (lines : ∀ b ∈ kind.blocks, ∀ level, Lines (Statement.listPieces level b.statements))
    (alternatives : ∀ b ∈ kind.blocks, Flows (b.elsePieces level))
    (functions : ∀ f ∈ kind.functions, Flows (f.pieces level)) : Flows (kind.pieces level) := by
  have block : ∀ b ∈ kind.blocks, ∀ c ps, Follows .sign ps →
      Follows c (b.pieces level ++ ps) := fun b hb c ps next => by
    rw [b.pieces_eq]
    exact (lines b hb (level + 1)).braces level next
  intro ps next
  cases kind with
  | declare i init =>
    have named : Lexer.isName i.name := declared i (by simp [StatementKind.declared])
    cases init with
    | none =>
      simp only [pieces, List.cons_append, List.nil_append]
      exact .word (.space (.name named next))
    | some e =>
      simp only [pieces, List.cons_append]
      exact .word (.space (.name named (.operator (exprs e (by simp [operands]) level ps next))))
  | assign target value =>
    simp only [pieces, List.cons_append, List.append_assoc]
    refine exprs target (by simp [operands]) level _ (.operator ?_)
    exact exprs value (by simp [operands]) level ps next
  | expr value => exact exprs value (by simp [operands]) level ps next
  | ret value =>
    cases value with
    | none => exact .word (.sym rfl next.weaken)
    | some e =>
      simp only [pieces, List.cons_append, List.append_assoc, List.nil_append]
      exact .word (.space (exprs e (by simp [operands]) level _ (.sym rfl next.weaken)))
  | block body => exact block body (by simp [blocks]) _ _ next.weaken
  | wait body => exact .word (.space (block body (by simp [blocks]) _ _ next.weaken))
  | branch condition yes no =>
    have test := exprs condition (by simp [tests]) level
    have first := block yes (by simp [blocks])
    cases no with
    | none =>
      simp only [pieces, List.cons_append, List.append_assoc]
      exact .word (.space (.sym rfl (test _ (.sym rfl (.space (first _ _ next.weaken))))))
    | some no =>
      simp only [pieces, List.cons_append, List.append_assoc]
      refine .word (.space (.sym rfl (test _ (.sym rfl (.space (first _ _ ?_))))))
      exact .space (.word (.space (alternatives no (by simp [blocks]) ps next)))
  | switch subject arms otherwise =>
    have head := exprs subject (by simp [tests]) level
    have cases : Lines (Arm.listPieces (level + 1) arms) := Arm.lines_listPieces
      (fun a ha => exprs a.test (by simp only [tests]; grind) (level + 1))
      fun a ha => lines a.body (by simp only [blocks]; grind) (level + 2)
    cases otherwise with
    | none =>
      simp only [pieces, List.cons_append, List.append_assoc, List.nil_append]
      refine .word (.space (.sym rfl (head _ (.sym rfl (.space (.sym rfl (.newline ?_)))))))
      exact cases _ (.indent level (.sym rfl next.weaken))
    | some b =>
      have inner := lines b (by simp [blocks]) (level + 2)
      obtain ⟨_, ss, _⟩ := b
      simp only [pieces, List.cons_append, List.append_assoc, List.nil_append]
      refine .word (.space (.sym rfl (head _ (.sym rfl (.space (.sym rfl (.newline ?_)))))))
      refine cases _ (.indent (level + 1) (.word (.sym rfl (.newline ?_))))
      exact inner _ (.indent level (.sym rfl next.weaken))
  | loop label head body =>
    have inner := block body (by simp [blocks])
    cases head with
    | whileDo condition =>
      have test := exprs condition (by simp [tests, LoopHead.test?]) level
      simp only [pieces, List.cons_append, List.append_assoc]
      refine lines_labelOf own _ (.word (.space (.sym rfl (test _ (.sym rfl (.space ?_))))))
      exact inner _ _ next.weaken
    | doWhile condition =>
      have test := exprs condition (by simp [tests, LoopHead.test?]) level
      simp only [pieces, List.cons_append, List.append_assoc, List.nil_append]
      refine lines_labelOf own _ (.word (.space (inner _ _ (.space (.word (.space (.sym rfl ?_)))))))
      exact test _ (.sym rfl (.sym rfl next.weaken))
    | counting init test update =>
      obtain ⟨⟨named, -⟩, -⟩ : (label.all (Lexer.isName ·.name) ∧ _) ∧ _ := by
        simpa only [isPrintable, Bool.and_eq_true] using own
      have first : Flows (ofOption (fun s => s.kind.pieces level) init) :=
        flows_ofOption fun s hs => headers s (List.mem_append_left _ (Option.mem_toList.mpr hs))
      have second : Flows (ofOption (fun e => space :: e.pieces level) test) :=
        flows_ofOption fun e he ps next => .space <|
          exprs e (List.mem_append_left _ (Option.mem_toList.mpr he)) level ps next
      have third : Flows (ofOption (fun s => space :: s.kind.pieces level) update) :=
        flows_ofOption fun s hs ps next => .space <|
          headers s (List.mem_append_right _ (Option.mem_toList.mpr hs)) ps next
      rw [pieces_counting]
      simp only [List.cons_append, List.append_assoc]
      refine lines_labelOf named _ (.word (.space (.sym rfl (first _ (.sym rfl ?_)))))
      exact second _ (.sym rfl (third _ (.sym rfl (.space (inner _ _ next.weaken)))))
  | jump jump label =>
    cases label with
    | none => cases jump <;> exact .word (.sym rfl next.weaken)
    | some i => exact .word (.space (.name own (.sym rfl next.weaken)))
  | func f => exact functions f (by simp [StatementKind.functions]) ps next

end

/-- The layout of everything legible is read as its tokens, whatever comes before and after. -/
theorem flows_cases : Cases (fun e => e.Legible → ∀ level, Flows (e.pieces level))
    (fun f => f.Legible → ∀ level, Flows (f.pieces level))
    (fun b => b.Legible → ∀ level, Lines (Statement.listPieces level b.statements) ∧
      Flows (b.elsePieces level))
    fun s => s.Legible → ∀ level, Flows (s.kind.pieces level) where
  expr e operands functions legible level := by
    obtain ⟨own, inOperands, named, inFunctions⟩ := Expr.every_iff.mp legible
    have operand : ∀ o ∈ e.operands, Flows (o.pieces level) := fun o ho =>
      operands o ho (inOperands o ho) level
    intro ps next
    cases e with
    | int value span =>
      obtain ⟨positive, small⟩ : 0 ≤ value ∧ value < Lexer.intBound := by
        simpa [Node.isLegible, Node.isPrintable, Expr.isPrintable] using own
      exact .int positive small next
    | str value span => exact .str next.weaken
    | bool value span => cases value <;> exact .word next
    | null span => exact .word next
    | ident i => exact .name (named i (by simp [Expr.names])) next
    | unary op o span =>
      refine .sym (by cases op <;> rfl) ?_
      exact (operand o (by simp [Expr.operands])).parens _ ps next
    | binary op left right span =>
      rw [Expr.pieces, List.append_assoc]
      refine (operand left (by simp [Expr.operands])).parens _ _ (.operator ?_)
      exact (operand right (by simp [Expr.operands])).parens _ ps next
    | call callee arguments span =>
      simp only [Expr.pieces, List.append_assoc, List.cons_append, List.nil_append]
      refine (operand callee (by simp [Expr.operands])).parens _ _ (.sym rfl ?_)
      refine Expr.flows_listPieces (fun a ha => operand a (by simp [Expr.operands, ha])) _ ?_
      exact .sym rfl next.weaken
    | member object property span =>
      simp only [Expr.pieces, List.append_assoc, List.cons_append, List.nil_append]
      refine (operand object (by simp [Expr.operands])).parens _ _ (.sym rfl ?_)
      exact .property own next
    | func f =>
      exact functions f (by simp [Expr.functions]) (inFunctions f (by simp [Expr.functions])) level
        ps next
    | defer bindings span =>
      simp only [Expr.pieces, List.append_assoc, List.cons_append, List.nil_append]
      exact .word (.sym rfl (flows_names named _ (.sym rfl next.weaken)))
  func f body legible level := by
    obtain ⟨-, named, params, inBody⟩ := Func.every_iff.mp legible
    obtain ⟨lines, -⟩ := body inBody (level + 1)
    intro ps next
    obtain ⟨id, name, is, ⟨_, ss, _⟩, span⟩ := f
    have tail : Follows .word (sym .leftParen :: (names is ++ (sym .rightParen :: space ::
        (braces level (Statement.listPieces (level + 1) ss) ++ ps)))) :=
      .sym rfl (flows_names params _ (.sym rfl (.space (lines.braces level next.weaken))))
    cases name with
    | none =>
      simp only [Func.pieces, Block.pieces, Option.toList_none, List.map_nil, List.append_assoc,
        List.cons_append, List.nil_append]
      exact .word (.space tail.weaken)
    | some i =>
      simp only [Func.pieces, Block.pieces, Option.toList_some, List.map_cons, List.map_nil,
        List.append_assoc, List.cons_append, List.nil_append]
      exact .word (.space (.name (named i rfl) tail))
  block b statements legible level := by
    obtain ⟨-, inStatements⟩ := Block.every_iff.mp legible
    have lines : ∀ level, Lines (Statement.listPieces level b.statements) := fun level =>
      Statement.lines_listPieces fun s hs => statements s hs (inStatements s hs) level
    refine ⟨lines level, ?_⟩
    obtain ⟨s, only, -, same⟩ | same := b.elsePieces_cases level
    · have hs : s ∈ b.statements := by simp [only]
      rw [same]
      exact statements s hs (inStatements s hs) level
    · rw [same, b.pieces_eq]
      exact fun ps next => (lines (level + 1)).braces level next.weaken
  statement s exprs headers blocks functions legible level := by
    obtain ⟨own, declared, inTests, inOperands, inHeaders, inBlocks, inFunctions⟩ :=
      Statement.every_iff.mp legible
    refine StatementKind.flows_pieces own declared (fun e he level => ?_)
      (fun h hh => headers h hh (inHeaders h hh) level)
      (fun b hb level => (blocks b hb (inBlocks b hb) level).1)
      (fun b hb => (blocks b hb (inBlocks b hb) level).2)
      fun f hf => functions f hf (inFunctions f hf) level
    rcases List.mem_append.mp he with h | h
    · exact exprs e he (inTests e h) level
    · exact exprs e he (inOperands e h) level

/-! ## Modules -/

theorem Module.follows_listPieces {fs : List Func} (legible : ∀ f ∈ fs, f.Legible) :
    Follows .sign (listPieces fs) := by
  induction fs with
  | nil => exact .nil
  | cons f fs ih =>
    have layout := Func.whole flows_cases f (legible f List.mem_cons_self) 0
    have more := ih fun g hg => legible g (List.mem_cons_of_mem _ hg)
    cases fs with
    | nil => exact layout _ (.newline .nil)
    | cons g fs =>
      change Follows .sign (f.pieces 0 ++ (newline :: newline :: listPieces (g :: fs)))
      exact layout _ (.newline (.newline more))

/-- The words of a printed module are the tokens of its layout. -/
theorem Module.words_print {m : Module} (legible : ∀ f ∈ m.functions, f.Legible) :
    ∃ ws, Lexer.words m.print = .ok ws ∧ ws.map Located.token = tokens m.pieces := by
  refine Lexer.words_of_spells ?_
  rw [print, toList_render]
  exact (follows_listPieces legible).spells

end WaitDefer
