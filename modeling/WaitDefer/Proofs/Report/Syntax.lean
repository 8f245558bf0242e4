import WaitDefer.Proofs.Grammar.Keeping
import WaitDefer.Proofs.Report.Labels
import WaitDefer.Proofs.Token.Tiling

/-!
# Where syntax errors are

Every error met while a text is read begins at a point of the text, those that are recorded on the
way included.

* `Cursor.Opens`: a cursor whose tokens and errors begin in a text;
* `Parser.Locates`: a parser keeps it so, and any error it ends with begins in the text, too;
* `Parser.Locating`: the same, where nothing need be known of what is read;
* `Module.opens_of_parse_error`: so do all errors of a text, of which there are some.

An expression is blamed as a whole if it cannot be assigned to, so its span has to be followed.
-/

namespace WaitDefer

set_option synthInstance.maxSize 512

variable {text : List Char}

/-! ## Cursors -/

/-- The tokens, and the errors recorded, begin in a text. -/
structure Cursor.Opens (text : List Char) (c : Cursor) : Prop where
  tokens : ∀ w ∈ c.tokens, w.span.Opens text
  recorded : ∀ e ∈ c.recorded, e.span.Opens text

namespace Cursor

variable {c d : Cursor}

theorem Opens.of_eq (h : c.Opens text) (tokens : d.tokens = c.tokens)
    (recorded : d.recorded = c.recorded) : d.Opens text :=
  ⟨tokens ▸ h.tokens, recorded ▸ h.recorded⟩

theorem Opens.span (h : c.Opens text) : c.span.Opens text := by
  have inside : c.here ∈ c.tokens := Array.getElem_mem c.inBounds
  exact h.tokens _ inside

theorem Opens.record (h : c.Opens text) {e : SyntaxError} (opens : e.span.Opens text) :
    (c.record e).Opens text :=
  ⟨h.tokens, List.forall_mem_cons.mpr ⟨opens, h.recorded⟩⟩

theorem Opens.unexpected (h : c.Opens text) (expected : List Token) :
    (c.unexpected expected).span.Opens text := by
  unfold Cursor.unexpected
  split <;> exact h.span

theorem Opens.advance (h : c.Opens text) : c.advance.Opens text := by
  unfold Cursor.advance
  split
  · exact ⟨h.tokens, h.recorded⟩
  · exact h

theorem Opens.skipWhile (h : c.Opens text) (skip : Token → Bool) (n : Nat) :
    (c.skipWhile skip n).Opens text := by
  induction n generalizing c with
  | zero => exact h
  | succ n ih =>
    unfold Cursor.skipWhile
    split
    · exact ih h.advance
    · exact h

theorem Opens.toStatementBoundary (h : c.Opens text) : c.toStatementBoundary.Opens text := by
  have skipped := h.skipWhile isInsideStatement c.tokens.size
  unfold Cursor.toStatementBoundary
  dsimp only
  split
  · exact skipped.advance
  · exact skipped

theorem Opens.toFunction (h : c.Opens text) : c.toFunction.Opens text :=
  h.advance.skipWhile _ _

end Cursor

namespace Parser

variable {α β : Type}

/-- While tokens that begin in a text are read, so do the errors: those that are recorded, and the
one that comes out unless what is read has a property. -/
def Locates (text : List Char) (p : Parser α) (Q : α → Prop) : Prop :=
  ∀ c, c.Opens text → (p c).2.Opens text ∧
    match (p c).1 with
    | .ok a => Q a
    | .error e => e.span.Opens text

variable (text) in
/-- A parser whose errors begin in the text. -/
class Locating (p : Parser α) : Prop where
  locates : Locates text p fun _ => True

/-! ## One after another -/

section
variable {p : Parser α} {f : α → Parser β} {Q : α → Prop} {R : β → Prop}

namespace Locates

theorem done {a : α} (h : Q a) : Locates text (pure a) Q := fun _ opens => ⟨opens, h⟩

theorem bind (hp : Locates text p Q) (hf : ∀ a, Q a → Locates text (f a) R) :
    Locates text (p >>= f) R := by
  intro c opens
  have first := hp c opens
  rw [bind_apply]
  rcases run : p c with ⟨_ | a, d⟩ <;> rw [run] at first
  · exact first
  · exact hf a first.2 d first.1

theorem weaken {Q' : α → Prop} (h : Locates text p Q) (imp : ∀ a, Q a → Q' a) :
    Locates text p Q' := by
  intro c opens
  have first := h c opens
  rcases run : p c with ⟨_ | a, d⟩ <;> rw [run] at first
  · exact first
  · exact ⟨first.1, imp a first.2⟩

theorem locating (h : Locates text p Q) : Locating text p := ⟨h.weaken fun _ _ => trivial⟩

theorem after [Locating text p] (h : ∀ a, Locates text (f a) R) : Locates text (p >>= f) R :=
  Locates.bind Locating.locates fun a _ => h a

theorem look {g : Cursor → α} (h : ∀ c, c.Opens text → Q (g c)) : Locates text (look g) Q :=
  fun c opens => ⟨opens, h c opens⟩

theorem span : Locates text (Parser.look (·.span)) (·.Opens text) := look fun _ opens => opens.span

theorem throw {e : SyntaxError} (h : e.span.Opens text) : Locates text (throw e) Q :=
  fun _ opens => ⟨opens, h⟩

theorem unexpected (expected : List Token) : Locates text (unexpected expected) Q :=
  fun _ opens => ⟨opens, opens.unexpected expected⟩

theorem noRoom (name : String) : Locates text (noRoom name) Q := fun _ opens => ⟨opens, opens.span⟩

theorem nested (h : Locates text p Q) (name : String) : Locates text (nested name p) Q := by
  intro c opens
  unfold Parser.nested enter Limit.enter
  by_cases deep : Limit.nesting ≤ c.depth
  · rw [if_pos deep]
    exact ⟨opens, opens.span⟩
  · rw [if_neg deep]
    have inner := h { c with depth := c.depth + 1 } (opens.of_eq rfl rfl)
    exact ⟨inner.1.of_eq rfl rfl, inner.2⟩

theorem suggesting (h : Locates text p Q) (suggestion : String) :
    Locates text (suggesting suggestion p) Q := by
  intro c opens
  have inner := h c opens
  unfold Parser.suggesting
  rcases run : p c with ⟨_ | a, d⟩ <;> rw [run] at inner <;> exact inner

/-- A failure that is made a value still begins in the text. -/
theorem attempt (h : Locates text p Q) :
    Locates text (attempt p) fun r => ∀ e, r = .error e → e.span.Opens text := by
  intro c opens
  have inner := h c opens
  refine ⟨inner.1, ?_⟩
  intro e failed
  change (p c).1 = _ at failed
  rw [failed] at inner
  exact inner.2

theorem record {e : SyntaxError} (h : e.span.Opens text) :
    Locates text (move (·.record e)) fun _ => True :=
  fun _ opens => ⟨opens.record h, trivial⟩

end Locates

/-- A parser that goes on unless something is wrong. -/
theorem Locates.unless {c : Prop} [Decidable c] {e : SyntaxError} {f : Unit → Parser α}
    (wrong : e.span.Opens text) (h : Locates text (f ()) Q) :
    Locates text (if c then MonadExcept.throw e >>= f else f ()) Q := by
  split
  · exact .bind (Q := fun _ => False) (.throw wrong) nofun
  · exact h

/-! ## Small steps -/

instance (a : α) : Locating text (pure a : Parser α) := ⟨.done trivial⟩

instance [Locating text p] [∀ a, Locating text (f a)] : Locating text (p >>= f) :=
  ⟨.after fun _ => Locating.locates⟩

theorem Locating.bind [Locating text p] (h : ∀ a, Locating text (f a)) :
    Locating text (p >>= f) := inferInstance

instance [Locating text p] (g : α → β) : Locating text (g <$> p) := by
  rw [← bind_pure_comp]
  infer_instance

instance {c : Prop} [Decidable c] {q : Parser α} [Locating text p] [Locating text q] :
    Locating text (if c then p else q) := by
  split <;> infer_instance

instance (g : Cursor → α) : Locating text (look g) := ⟨.look fun _ _ => trivial⟩

instance (expected : List Token) : Locating text (unexpected expected : Parser α) :=
  ⟨.unexpected expected⟩

instance : Locating text advance := ⟨fun _ opens => ⟨opens.advance, trivial⟩⟩

instance : Locating text (move (·.advance)) := ⟨fun _ opens => ⟨opens.advance, trivial⟩⟩

instance : Locating text (move (·.toStatementBoundary)) :=
  ⟨fun _ opens => ⟨opens.toStatementBoundary, trivial⟩⟩

instance : Locating text (move (·.toFunction)) := ⟨fun _ opens => ⟨opens.toFunction, trivial⟩⟩

instance : Locating text freshId := ⟨fun _ opens => ⟨opens.of_eq rfl rfl, trivial⟩⟩

instance (t : Token) : Locating text (eat t) where
  locates c opens := by
    unfold eat
    split
    · exact ⟨opens.advance, trivial⟩
    · exact ⟨opens, trivial⟩

instance (t : Token) : Locating text (expect t) where
  locates c opens := by
    unfold expect
    split
    · exact ⟨opens.advance, trivial⟩
    · exact ⟨opens, opens.unexpected _⟩

/-- A name begins where its token does. -/
theorem locates_ident : Locates text ident (·.span.Opens text) := by
  intro c opens
  unfold ident
  split
  · exact ⟨opens.advance, opens.span⟩
  · exact ⟨opens, opens.unexpected _⟩

instance : Locating text ident := locates_ident.locating

instance : Locating text property where
  locates c opens := by
    unfold property
    split
    · exact ⟨opens.advance, trivial⟩
    · exact (Locating.locates (p := ident)) c opens

instance : Locating text ident? where
  locates c opens := by
    unfold ident?
    split
    · exact ⟨opens.advance, trivial⟩
    · exact ⟨opens, trivial⟩

instance [Locating text p] (name : String) : Locating text (nested name p) :=
  ⟨.nested Locating.locates name⟩

instance [Locating text p] (suggestion : String) : Locating text (suggesting suggestion p) :=
  ⟨.suggesting Locating.locates suggestion⟩

instance [Locating text p] (n : Nat) : Locating text (commaList p n) := by
  induction n with
  | zero => unfold commaList; infer_instance
  | succ n ih => unfold commaList; infer_instance

instance [Locating text p] : Locating text (untilParen p) := by
  unfold untilParen
  infer_instance

instance [Locating text p] (t : Token) : Locating text (unlessAt t p) := by
  unfold unlessAt
  infer_instance

end
end Parser

/-! ## The grammar -/

/-- The parsers for what lies deeper have errors that begin in a text, and so do the expressions
that they read. -/
class Deeper.Locating (text : List Char) (d : Deeper) : Prop where
  expression : d.expression.Locates text (·.span.Opens text)
  unary : d.unary.Locates text (·.span.Opens text)
  statement : Parser.Locating text d.statement

attribute [instance] Deeper.Locating.statement

namespace Parser

section
variable {d : Deeper} [d.Locating text]

open Deeper (Locating)

instance : Parser.Locating text d.expression := Locating.expression.locating

instance (ends : List Token) (n : Nat) (done : List Statement) :
    Parser.Locating text (statements d ends n done) := by
  induction n generalizing done with
  | zero =>
    unfold statements
    refine .bind fun ended => ?_
    split
    · infer_instance
    · exact ⟨.bind .span fun _ opens => .throw opens⟩
  | succ n ih =>
    unfold statements
    refine .bind fun ended => ?_
    split
    · infer_instance
    · refine .bind fun start => ⟨.bind (.attempt Parser.Locating.locates) fun r failed => ?_⟩
      split
      · exact Parser.Locating.locates
      · rename_i e
        exact .bind (.record (failed e rfl)) fun _ _ => Parser.Locating.locates

instance : Parser.Locating text (block d) := by
  unfold block
  infer_instance

/-- A function begins where its first token does. -/
theorem locates_function (named : Bool) : Locates text (function d named) (·.span.Opens text) := by
  unfold function
  refine .bind .span fun start opens => .after fun _ => .after fun id => .after fun name => ?_
  have rest : Locates text (do
      let _ ← expect (.sym .leftParen)
      let params ← untilParen ident
      let body ← block d
      return (⟨id, name, params, body, start.through body.span⟩ : Func)) (·.span.Opens text) :=
    .after fun _ => .after fun params => .after fun body => .done (opens.through _)
  dsimp only
  split
  · exact .after fun _ => rest
  · exact rest

instance (named : Bool) : Parser.Locating text (function d named) :=
  (locates_function named).locating

/-! ### Expressions -/

theorem locates_primary : Locates text (primary d) (·.span.Opens text) := by
  unfold primary
  refine .bind .span fun start opens => .after fun token => ?_
  split
  case h_7 =>
    exact .after fun _ => Locating.expression.bind fun inner inside => .after fun _ => .done inside
  case h_8 => exact (locates_function false).bind fun f inside => .done inside
  case h_9 =>
    refine .after fun _ => .after fun _ => .after fun bindings => .bind (.look ?_) fun span => .done
    exact fun c _ => opens.through _
  case h_10 => exact .unexpected _
  all_goals exact .after fun _ => .done opens

theorem locates_suffixes (n : Nat) {e : Expr} (opens : e.span.Opens text) :
    Locates text (suffixes d n e) (·.span.Opens text) := by
  induction n generalizing e with
  | zero => exact .done opens
  | succ n ih =>
    unfold suffixes
    refine .after fun token => ?_
    split
    · refine .after fun _ => .after fun arguments => .bind (.look ?_) fun span inside => ih inside
      exact fun c _ => opens.through _
    · exact .after fun _ => .after fun property => ih (opens.through _)
    · exact .done opens

theorem locates_unary : Locates text (unary d) (·.span.Opens text) := by
  unfold unary
  refine .bind .span fun start opens => .after fun token => ?_
  split
  · refine .after fun _ => .bind (.nested Locating.unary "unary") fun operand _ => ?_
    exact .done (opens.through _)
  · exact .bind locates_primary fun e inside => .after fun n => locates_suffixes n inside

theorem locates_operators {right : Precedence → Parser Expr}
    (each : ∀ level, Locates text (right level) (·.span.Opens text)) (least : Precedence) (n : Nat)
    {left : Expr} (opens : left.span.Opens text) :
    Locates text (operators right least n left) (·.span.Opens text) := by
  induction n generalizing left with
  | zero => exact .done opens
  | succ n ih =>
    unfold operators
    refine .after fun token => ?_
    split
    · exact .after fun _ => (each _).bind fun operand _ => ih (opens.through _)
    · exact .done opens

theorem locates_climb (levels : Nat) (least : Precedence) :
    Locates text (climb d levels least) (·.span.Opens text) := by
  induction levels generalizing least with
  | zero => exact locates_unary
  | succ levels ih =>
    unfold climb
    exact .bind locates_unary fun left inside => .after fun n =>
      locates_operators (fun _ => ih _) least n inside

/-! ### Statements -/

instance (declarations : Bool) : Parser.Locating text (simple d declarations) := by
  unfold simple
  refine ⟨.bind .span fun start opens => .after fun seen => ?_⟩
  split
  · exact .unless opens Parser.Locating.locates
  · refine .after fun id => Locating.expression.bind fun target inside => .after fun assigned => ?_
    split
    · exact .unless inside Parser.Locating.locates
    · exact Parser.Locating.locates

instance : Parser.Locating text (condition d) := by
  unfold condition
  infer_instance

instance : Parser.Locating text (branch d) := by
  unfold branch
  infer_instance

instance (n : Nat) (done : List Arm) (otherwise : Option Block) :
    Parser.Locating text (arms d n done otherwise) := by
  induction n generalizing done otherwise with
  | zero =>
    unfold arms
    refine .bind fun ended => ?_
    split
    · infer_instance
    · exact ⟨.bind .span fun _ opens => .throw opens⟩
  | succ n ih =>
    unfold arms
    refine .bind fun ended => ?_
    split
    · infer_instance
    · refine ⟨.bind .span fun start opens => .after fun isCase => ?_⟩
      split
      · exact Parser.Locating.locates
      · refine .after fun isDefault => ?_
        split
        · refine .after fun _ => .after fun id => .after fun ss => ?_
          exact .unless opens Parser.Locating.locates
        · exact .unexpected _

instance : Parser.Locating text (switch d) := by
  unfold switch
  infer_instance

instance (first : Token) : Parser.Locating text (headAndBody d first) := by
  unfold headAndBody
  split <;> infer_instance

instance (label : Option Ident) (start : Span) : Parser.Locating text (loop d label start) := by
  unfold loop
  infer_instance

omit [d.Locating text] in
instance (kind : JumpKind) : Parser.Locating text (jump kind) := by
  unfold jump
  infer_instance

instance : Parser.Locating text (labelled d) := by
  unfold labelled
  refine .bind fun start => ⟨locates_ident.bind fun label opens => ?_⟩
  refine .after fun _ => .after fun next => ?_
  split
  · exact Parser.Locating.locates
  · exact .throw opens

instance : Parser.Locating text (simpleLine d) := by
  unfold simpleLine
  infer_instance

instance : Parser.Locating text (statement d) := by
  unfold statement
  refine .bind fun start => .bind fun token => ?_
  split <;> infer_instance

end
end Parser

namespace Deeper

instance locating_levels (n : Nat) : (levels n).Locating text := by
  induction n with
  | zero => exact ⟨.noRoom _, .noRoom _, ⟨.noRoom _⟩⟩
  | succ n ih =>
    unfold levels Parser.binary
    exact ⟨(Parser.locates_climb _ _).nested _, Parser.locates_unary, inferInstance⟩

instance : Locating text all := locating_levels Limit.nesting

end Deeper

/-! ## Texts -/

instance Parser.locating_functions (n : Nat) (done : List Func) :
    Locating text (functions n done) := by
  induction n generalizing done with
  | zero => unfold functions; infer_instance
  | succ n ih =>
    unfold functions
    refine .bind fun ends => ?_
    split
    · infer_instance
    · refine ⟨.bind (.attempt Parser.Locating.locates) fun r failed => ?_⟩
      split
      · exact Parser.Locating.locates
      · rename_i e
        exact .bind (.record (failed e rfl)) fun _ _ => Parser.Locating.locates

/-- The errors of a text that was read to its end. -/
theorem Parser.opens_of_wholeModule {c : Cursor} (opens : c.Opens text) {es : List SyntaxError}
    (failed : wholeModule c = .error es) : ∀ e ∈ es, e.span.Opens text := by
  have reached := Locating.locates (p := functions c.tokens.size []) c opens
  unfold wholeModule at failed
  rcases run : functions c.tokens.size [] c with ⟨_ | fs, d⟩ <;> rw [run] at reached failed
  · cases failed
    intro e he
    obtain recorded | last := List.mem_append.mp he
    · exact reached.1.recorded e (List.mem_reverse.mp recorded)
    · rw [List.mem_singleton.mp last]
      exact reached.2
  · dsimp only at failed
    split at failed
    · split at failed <;> cases failed
    · cases failed
      exact fun e he => reached.1.recorded e (List.mem_reverse.mp he)

/-- What is no token of a text begins in the text. -/
theorem Lexer.opens_of_words_error {source : String} {es : List LexError}
    (failed : words source = .error es) : ∀ e ∈ es, e.span.Opens source.toList := by
  unfold words at failed
  dsimp only at failed
  split at failed
  · cases failed
  · cases failed
    intro e he
    obtain ⟨⟨lexeme, span⟩, found, fault⟩ := List.mem_filterMap.mp he
    cases lexeme with
    | fault f =>
      cases fault
      exact (placed_lexemes found).opens
    | _ => cases fault

/-- The tokens of a text begin in the text. -/
theorem Lexer.opens_of_words {source : String} {ws : List Located} (ok : words source = .ok ws) :
    (Cursor.onTokens ws (endOf source.toList)).Opens source.toList := by
  have tiled := tiled_of_words ok
  constructor
  case tokens => exact fun w hw => (tiled.placed rfl (List.mem_toArray.mp hw)).opens
  case recorded => exact List.forall_mem_nil _

theorem Parser.wholeModule_error_ne_nil {c : Cursor} {es : List SyntaxError}
    (failed : wholeModule c = .error es) : es ≠ [] := by
  unfold wholeModule at failed
  split at failed
  · split at failed
    · split at failed <;> cases failed
    · rename_i some
      cases failed
      exact some
  · cases failed
    exact List.append_ne_nil_of_right_ne_nil _ (List.cons_ne_nil _ _)

theorem Lexer.words_error_ne_nil {source : String} {es : List LexError}
    (failed : words source = .error es) : es ≠ [] := by
  unfold words at failed
  dsimp only at failed
  split at failed
  · cases failed
  · rename_i some
    cases failed
    exact some

/-- A text that cannot be read has an error. -/
theorem Module.parse_error_ne_nil {source : String} {es : List SyntaxError}
    (failed : parse source = .error es) : es ≠ [] := by
  unfold parse Cursor.ofSource at failed
  cases words : Lexer.words source with
  | error errors =>
    rw [words] at failed
    cases failed
    exact fun nothing => Lexer.words_error_ne_nil words (List.map_eq_nil_iff.mp nothing)
  | ok ws =>
    rw [words] at failed
    exact Parser.wholeModule_error_ne_nil failed

/-- **Every error of a text begins in the text**, with the line and the column it says. -/
theorem Module.opens_of_parse_error {source : String} {es : List SyntaxError}
    (failed : parse source = .error es) : ∀ e ∈ es, e.span.Opens source.toList := by
  unfold parse Cursor.ofSource at failed
  cases words : Lexer.words source with
  | error errors =>
    rw [words] at failed
    cases failed
    exact List.forall_mem_map.mpr (Lexer.opens_of_words_error words)
  | ok ws =>
    rw [words] at failed
    exact Parser.opens_of_wholeModule (Lexer.opens_of_words words) failed

end WaitDefer
