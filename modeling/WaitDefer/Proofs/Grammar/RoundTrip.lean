import WaitDefer.Proofs.Grammar.Sentences

/-!
# Printing and reading

* `Func.readsBack`: the tokens of a printable function are read as a function of its shape;
* `Module.shape_parse_print`: a printable module that does not nest too deep is printed as a text
  that stands for it.
-/

namespace WaitDefer

open Piece

/-! ## Functions -/

/-- What is asked of a node so that it is read back, as surely as that. -/
structure Node.Fits (sure : Prop) (n : Node) : Prop where
  legible : n.isLegible
  stands : ∀ b, n = .block b → ∀ s ∈ b.statements, s.kind.Stands sure

theorem Node.fits_of_isPrintable {n : Node} (h : n.isPrintable) : n.Fits True := by
  refine ⟨isLegible_of_isPrintable h, ?_⟩
  rintro b rfl s hs
  have plain := List.all_eq_true.mp (Bool.and_eq_true_iff.mp h).2 s hs
  exact .inl (by simpa using plain)

/-- Code is read back if its nodes allow it. -/
theorem readsBack_cases (sure : Prop) : Cases (fun e => e.Every (·.Fits sure) → e.ReadsBack sure)
    (fun f => f.Every (·.Fits sure) → f.ReadsBack sure)
    (fun b => b.Every (·.Fits sure) → b.ReadsBack sure)
    fun s => s.Every (·.Fits sure) → s.ReadsBack sure where
  expr e operands functions fits := by
    obtain ⟨-, inOperands, -, inFunctions⟩ := Expr.every_iff.mp fits
    exact Expr.readsBack_of_parts (fun o ho => operands o ho (inOperands o ho))
      fun f hf => functions f hf (inFunctions f hf)
  func f body fits := by
    obtain ⟨-, -, -, inBody⟩ := Func.every_iff.mp fits
    exact Func.readsBack_of_body (body inBody)
  block b statements fits := by
    obtain ⟨own, inStatements⟩ := Block.every_iff.mp fits
    exact ⟨of_decide_eq_true own.legible, fun s hs =>
      ⟨statements s hs (inStatements s hs), own.stands b rfl s hs⟩⟩
  statement s exprs headers blocks functions fits := by
    obtain ⟨own, -, inTests, inOperands, inHeaders, inBlocks, inFunctions⟩ :=
      Statement.every_iff.mp fits
    refine Statement.readsBack_of_parts own.legible (fun e he => ?_)
      (fun h hh => headers h hh (inHeaders h hh)) (fun b hb => blocks b hb (inBlocks b hb))
      fun f hf => functions f hf (inFunctions f hf)
    rcases List.mem_append.mp he with h | h
    · exact exprs e he (inTests e h)
    · exact exprs e he (inOperands e h)

theorem Func.readsBack {sure : Prop} {f : Func} (fits : f.Every (·.Fits sure)) :
    f.ReadsBack sure :=
  Func.whole (readsBack_cases sure) f fits

/-! ## Modules -/

theorem Module.tokens_listPieces (f : Func) (fs : List Func) :
    tokens (listPieces (f :: fs)) = tokens (f.pieces 0) ++ tokens (listPieces fs) := by
  cases fs <;> exact tokens_append _ _

theorem Module.length_le_tokens (fs : List Func) : fs.length ≤ (tokens (listPieces fs)).length := by
  induction fs with
  | nil => exact Nat.le_refl _
  | cons f fs ih =>
    rw [tokens_listPieces, Func.tokens_pieces, List.cons_append, List.length_cons, List.length_cons,
      List.length_append]
    omega

namespace Parser

theorem reads_functions {sure : Prop} {fs : List Func} (readsBack : ∀ f ∈ fs, f.ReadsBack sure)
    (named : ∀ f ∈ fs, f.name.isSome) (fits : sure → ∀ f ∈ fs, f.room ≤ Limit.nesting) (n : Nat)
    (short : fs.length ≤ n) (done : List Func) :
    Reads sure Limit.nesting (functions n done) (tokens (Module.listPieces fs)) pure [] fun r =>
      ∃ gs, r = done.reverse ++ gs ∧ gs.map Func.shape = fs.map Func.shape := by
  have stop : ∀ ts, Reads True Limit.nesting (look (·.atEnd)) ts pure ts
      (· = (ts.headD .eof == .eof)) :=
    fun ts => .look fun c faces => by rw [Cursor.atEnd, faces.token]
  induction fs generalizing n done with
  | nil =>
    cases n with
    | zero => exact .done ⟨[], (List.append_nil _).symm, rfl⟩
    | succ n =>
      refine .step (stop _) fun closed here => ?_
      subst here
      exact .done ⟨[], (List.append_nil _).symm, rfl⟩
  | cons f fs ih =>
    obtain ⟨m, rfl⟩ : ∃ m, n = m + 1 := Nat.exists_eq_succ_of_ne_zero (by rintro rfl; cases short)
    have first := readsBack f List.mem_cons_self Limit.nesting 0 (tokens (Module.listPieces fs)) true
      (fun certain => fits certain f List.mem_cons_self) fun _ => named f List.mem_cons_self
    rw [Module.tokens_listPieces]
    refine .step (stop _) fun closed here => ?_
    have no : closed = false := by rw [here, Func.tokens_pieces]; rfl
    subst no
    refine .attempt first (fun g => inferInstanceAs (Parser.Keeps (functions m (g :: done))))
      (fun e c => recorded_record e c) fun g same => ?_
    refine (ih (fun x hx => readsBack x (List.mem_cons_of_mem _ hx))
      (fun x hx => named x (List.mem_cons_of_mem _ hx))
      (fun certain x hx => fits certain x (List.mem_cons_of_mem _ hx)) m (Nat.le_of_succ_le_succ short)
      (g :: done)).weaken fun r hr => ?_
    obtain ⟨gs, rfl, all⟩ := hr
    exact ⟨g :: gs, by simp, by rw [List.map_cons, List.map_cons, same, all]⟩

/-- Functions that are read without an error make a module. -/
theorem wholeModule_of_reads {sure : Prop} {c : Cursor} {ts : List Token} {P : List Func → Prop}
    (faces : c.Faces Limit.nesting ts)
    (h : Reads sure Limit.nesting (functions c.tokens.size []) ts pure [] P) :
    (∃ m, wholeModule c = .ok m ∧ P m.functions) ∨ ¬ sure ∧ ∃ errors, wholeModule c = .error errors := by
  obtain ⟨fs, d, stays, holds, run⟩ | ⟨unsure, lost⟩ := h c faces
  · refine .inl ?_
    have clean : d.errors = [] := congrArg List.reverse stays.clean
    unfold wholeModule
    rw [run]
    dsimp only [pure, ExceptT.pure, StateT.pure, ExceptT.mk]
    rw [clean]
    cases h : fs.getLast? with
    | none => exact ⟨⟨[], _⟩, rfl, List.getLast?_eq_none_iff.mp h ▸ holds⟩
    | some last => exact ⟨⟨fs, _⟩, rfl, holds⟩
  · refine .inr ⟨unsure, ?_⟩
    unfold wholeModule
    rcases run : functions c.tokens.size [] c with ⟨e | fs, d⟩ <;> rw [run] at lost
    · exact ⟨_, rfl⟩
    · have some : d.errors ≠ [] := fun none =>
        lost.resolve_left (fun ⟨_, failed⟩ => nomatch failed) (List.reverse_eq_nil_iff.mp none)
      dsimp only
      split
      · exact absurd ‹_› some
      · exact ⟨_, rfl⟩

end Parser

theorem Cursor.faces_onTokens {ws : List Located} {last : Located} (eof : last.token = .eof) :
    (onTokens ws last).Faces Limit.nesting (ws.map Located.token) := by
  refine ⟨?_, rfl, rfl⟩
  rw [rest]
  change ((ws ++ [last]).drop 0).map Located.token = _
  rw [List.drop_zero, List.map_append, List.map_singleton, eof]

/-- A printed module is read as a module of its shape. -/
theorem Module.reads_print {sure : Prop} {m : Module} (named : ∀ f ∈ m.functions, f.name.isSome)
    (nodes : ∀ n ∈ m.allNodes, n.Fits sure)
    (fits : sure → ∀ f ∈ m.functions, f.room ≤ Limit.nesting) :
    (∃ m', parse m.print = .ok m' ∧ m'.shape = m.shape) ∨
      ¬ sure ∧ ∃ errors, parse m.print = .error errors := by
  have inside : ∀ f ∈ m.functions, f.Every (·.Fits sure) := fun f hf n hn =>
    nodes n (List.mem_flatMap.mpr ⟨f, hf, hn⟩)
  obtain ⟨ws, words, tokens⟩ := words_print fun f hf n hn => (inside f hf n hn).legible
  have faces : (Cursor.onTokens ws (Lexer.endOf m.print.toList)).Faces Limit.nesting
      (Piece.tokens m.pieces) := tokens ▸ Cursor.faces_onTokens rfl
  have enough : m.functions.length ≤
      (Cursor.onTokens ws (Lexer.endOf m.print.toList)).tokens.size := by
    refine Nat.le_trans (length_le_tokens m.functions) (Nat.le_of_lt ?_)
    exact faces.size
  have whole := Parser.reads_functions (fun f hf => f.readsBack (inside f hf)) named fits _ enough []
  have read : parse m.print =
      Parser.wholeModule (Cursor.onTokens ws (Lexer.endOf m.print.toList)) := by
    rw [parse, Cursor.ofSource, words]
    rfl
  rw [read]
  obtain ⟨m', ok, fs, same, shapes⟩ | failed := Parser.wholeModule_of_reads faces whole
  · refine .inl ⟨m', ok, ?_⟩
    rw [shape, shape, same, List.reverse_nil, List.nil_append, shapes]
  · exact .inr failed

/-- **Printing and reading.** -/
theorem Module.shape_parse_print {m : Module} (printable : m.Printable)
    (fits : ∀ f ∈ m.functions, f.room ≤ Limit.nesting) :
    ∃ m', parse m.print = .ok m' ∧ m'.shape = m.shape := by
  have nodes : ∀ n ∈ m.allNodes, n.Fits True := fun n hn =>
    Node.fits_of_isPrintable (printable.nodes n hn)
  exact (reads_print printable.named nodes fun _ => fits).resolve_right fun failed =>
    failed.1 trivial

/-- A function whose text needs parentheses, an `else if`, a label, an escape and a reserved word
after a dot. -/
def tangled : Module :=
  let name (s : String) : Ident := ⟨s, default⟩
  let use (s : String) : Expr := .ident (name s)
  let block (kinds : List StatementKind) : Block := ⟨0, kinds.map (⟨0, ·, default⟩), default⟩
  let sum : Expr := .binary .add (use "a") (.int 1 default) default
  let quoted : Func := ⟨0, none, [], block [.ret (some (.str "\"\n\\" default))], default⟩
  let jump : StatementKind := .branch (.unary .not (.binary .or sum (use "b") default) default)
    (block [.jump .leave (some (name "out"))])
    (some (block [.branch (use "b") (block [.wait (block [])]) none]))
  ⟨[⟨0, some (name "f"), [name "a", name "b"], block [
      .loop (some (name "out"))
        (.counting (some ⟨0, .declare (name "i") (some (.int 0 default)), default⟩) none
          (some ⟨0, .assign (.member (use "a") (name "if") default)
            (.binary .multiply sum sum default), default⟩)) (block [jump]),
      .expr (.call (.func quoted) [.defer [name "a"] default, sum] default)], default⟩], default⟩

theorem shape_parse_print_tangled : tangled.Printable ∧
    (∀ f ∈ tangled.functions, f.room ≤ Limit.nesting) ∧
      ∃ m', Module.parse tangled.print = .ok m' ∧ m'.shape = tangled.shape := by
  have printable : tangled.Printable := ⟨by decide +kernel, by decide +kernel⟩
  have fits : ∀ f ∈ tangled.functions, f.room ≤ Limit.nesting := by decide +kernel
  exact ⟨printable, fits, Module.shape_parse_print printable fits⟩

end WaitDefer
