import WaitDefer.Proofs.Grammar.Progress

/-!
# Rounds

The loops of the grammar, round by round:

* `Parser.functionRound`, `statementRound`, `armRound`, `suffixRound`, `operatorRound`: what a round
  of each loop does;
* `Parser.folds`: operators one after another, told by what they are and what follows them;
* `Parser.GetsThrough`, `getsThrough`: every round passes a token or is the last one, nothing is cut
  off by a bound that stands for no limit, and a module comes out only if no error was met and the
  end of the text was reached.
-/

namespace WaitDefer

set_option synthInstance.maxSize 512

namespace Parser

variable {α β : Type}

theorem look_bind (f : Cursor → α) (k : α → Parser β) (c : Cursor) :
    (look f >>= k) c = k (f c) c := rfl

/-! ## What a round does -/

/-- One more function. An error in its place is recorded, and the reading goes on at the next
function. -/
def functionRound (done : List Func) : Parser (List Func) := do
  match ← attempt (function Deeper.all true) with
  | .ok f => return f :: done
  | .error e =>
    move (·.record e)
    move (·.toFunction)
    return done

theorem functions_succ (n : Nat) (done : List Func) : functions (n + 1) done = (do
    if ← look (·.atEnd) then return done.reverse else functionRound done >>= functions n) := by
  rw [functions]
  refine bind_congr fun ended => ?_
  split
  · rfl
  · rw [functionRound, bind_assoc]
    refine bind_congr fun r => ?_
    cases r with
    | ok f => rw [pure_bind]
    | error e => simp only [bind_assoc, pure_bind]

section
variable (d : Deeper)

/-- One more statement. An error in its place is recorded, and the reading goes on at the next place
where a statement may begin, past the present token. -/
def statementRound (done : List Statement) : Parser (List Statement) := do
  let start ← look (·.pos)
  match ← attempt d.statement with
  | .ok s => return s :: done
  | .error e =>
    move (·.record e)
    move (·.toStatementBoundary)
    if (← look (·.pos)) == start then move (·.advance)
    return done

theorem statements_succ (ends : List Token) (n : Nat) (done : List Statement) :
    statements d ends (n + 1) done = (do
      if ← look fun c => c.atEnd || ends.any c.sees then return done.reverse
      else statementRound d done >>= statements d ends n) := by
  rw [statements]
  refine bind_congr fun ended => ?_
  split
  · rfl
  · rw [statementRound, bind_assoc]
    refine bind_congr fun start => ?_
    rw [bind_assoc]
    refine bind_congr fun r => ?_
    cases r with
    | ok s => rw [pure_bind]
    | error e =>
      simp only [bind_assoc]
      refine bind_congr fun _ => bind_congr fun _ => bind_congr fun pos => ?_
      split <;> simp only [bind_assoc, pure_bind]

/-- One more arm of a switch, which is a `case` or the arm for all other values. -/
def armRound (done : List Arm × Option Block) : Parser (List Arm × Option Block) := do
  let start ← look (·.span)
  if ← eat (.word .case) then
    let test ← d.expression
    let _ ← expect (.sym .colon)
    let blockId ← freshId
    let ss ← statements d armEnds Limit.rounds []
    let span ← look (·.spanFrom start)
    return (⟨test, ⟨blockId, ss, span⟩, span⟩ :: done.1, done.2)
  else if ← eat (.word .default) then
    let _ ← expect (.sym .colon)
    let blockId ← freshId
    let ss ← statements d armEnds Limit.rounds []
    if done.2.isSome then
      throw (.malformed "switch has more than one default arm" start)
    return (done.1, some ⟨blockId, ss, ← look (·.spanFrom start)⟩)
  else
    unexpected armEnds

theorem arms_succ (n : Nat) (done : List Arm × Option Block) :
    arms d (n + 1) done.1 done.2 = (do
      if ← look fun c => c.sees (.sym .rightBrace) || c.atEnd then return (done.1.reverse, done.2)
      else armRound d done >>= fun done => arms d n done.1 done.2) := by
  rw [arms]
  refine bind_congr fun ended => ?_
  split
  · rfl
  · rw [armRound]
    simp only [bind_assoc]
    refine bind_congr fun start => bind_congr fun isCase => ?_
    split
    · simp only [bind_assoc, pure_bind]
    · simp only [bind_assoc]
      refine bind_congr fun isDefault => ?_
      split
      · simp only [bind_assoc]
        refine bind_congr fun _ => bind_congr fun _ => bind_congr fun _ => ?_
        split <;> simp only [bind_assoc, pure_bind]
      · rfl

/-- No call and no member access follows. -/
def noSuffix (c : Cursor) : Bool :=
  match c.token with
  | .sym .leftParen | .sym .dot => false
  | _ => true

/-- One more call or member access. -/
def suffixRound (e : Expr) : Parser Expr := do
  match ← look (·.token) with
  | .sym .leftParen =>
    let _ ← advance
    let arguments ← untilParen d.expression
    return .call e arguments (← look (·.spanFrom e.span))
  | .sym .dot =>
    let _ ← advance
    let property ← property
    return .member e property (e.span.through property.span)
  | _ => return e

theorem suffixes_succ (n : Nat) (e : Expr) : suffixes d (n + 1) e = (do
    if ← look noSuffix then return e else suffixRound d e >>= suffixes d n) := by
  funext c
  rw [suffixes, suffixRound, look_bind, look_bind, bind_assoc, noSuffix]
  split
  · rename_i opens
    simp only [Bool.false_eq_true, if_false, look_bind, opens, bind_assoc]
    rfl
  · rename_i dot
    simp only [Bool.false_eq_true, if_false, look_bind, dot, bind_assoc]
    rfl
  · refine congrFun ?_ c
    split <;> first | contradiction | rfl

end

section
variable (find : Token → Option BinaryOp) (right : BinaryOp → Parser Expr)

/-- Goes on with operators that `find` knows, each with an operand that `right` reads, and folds to
the left; `n` bounds their number. -/
def folds : Nat → Expr → Parser Expr
  | 0, left => return left
  | n + 1, left => do
    match find (← look (·.token)) with
    | some op =>
      let _ ← advance
      let operand ← right op
      folds n (.binary op left operand (left.span.through operand.span))
    | none => return left

/-- No operator that `find` knows follows. -/
def noOperator (c : Cursor) : Bool := (find c.token).isNone

/-- One more operator with its operand. -/
def operatorRound (left : Expr) : Parser Expr := do
  match find (← look (·.token)) with
  | some op =>
    let _ ← advance
    let operand ← right op
    return .binary op left operand (left.span.through operand.span)
  | none => return left

theorem folds_succ (n : Nat) (left : Expr) : folds find right (n + 1) left = (do
    if ← look (noOperator find) then return left
    else operatorRound find right left >>= folds find right n) := by
  funext c
  rw [folds, operatorRound, look_bind, look_bind, bind_assoc, noOperator]
  cases found : find c.token with
  | none => rfl
  | some op =>
    simp only [Option.isNone_some, Bool.false_eq_true, if_false, look_bind, found, bind_assoc]
    rfl

end

theorem operators_eq_folds (right : Precedence → Parser Expr) (least : Precedence) (n : Nat) :
    operators right least n = folds (operator? least) (fun op => right op.precedence.tighter) n := by
  induction n with
  | zero => rfl
  | succ n ih =>
    funext left
    rw [operators, ih]
    rfl

/-! ## Rounds pass tokens -/

end Parser

namespace Cursor

variable {c d : Cursor}

/-- Wherever a reading got to, one more token from there is past the place where it began. -/
theorem Leads.lt_advance (h : c.Leads d) (ends : c.Ends) (more : c.token ≠ .eof) :
    c.pos < d.advance.pos := by
  rcases Nat.lt_or_ge c.pos d.pos with further | back
  · exact further.trans_le d.leads_advance.pos
  · have same : d.pos = c.pos := Nat.le_antisymm back h.pos
    rw [← same]
    exact (h.ends ends).lt_advance (token_eq h.tokens same ▸ more)

/-- Passing tokens ends at one that is not to be passed. -/
theorem Ends.skipWhile_stops (ends : c.Ends) (skip : Token → Bool) (last : skip .eof = false)
    {n : Nat} (enough : c.rest.length ≤ n) : skip (c.skipWhile skip n).token = false := by
  have inside := c.inBounds
  rw [c.length_rest] at enough
  induction n generalizing c with
  | zero => omega
  | succ n ih =>
    unfold skipWhile
    split
    · rename_i skips
      have more : c.token ≠ .eof := fun eof => by simp [eof, last] at skips
      have further := ends.lt_advance more
      refine ih (c.leads_advance.ends ends) ?_ c.advance.inBounds
      rw [c.leads_advance.tokens]
      omega
    · rename_i stops
      exact Bool.eq_false_iff.mpr stops

end Cursor

namespace Parser

section
variable {c : Cursor}

theorem token_ne_eof_of_atEnd (more : c.atEnd = false) : c.token ≠ .eof := by
  intro eof
  simp [Cursor.atEnd, eof] at more

/-- Recovery for a function: the error is recorded, and at least one token is passed. -/
theorem functionRound_passes (ends : c.Ends) (more : c.atEnd = false) (done : List Func) :
    c.pos < (functionRound done c).2.pos := by
  have kept := Keeps.leads (p := function Deeper.all true) c
  have further := advances_function (d := Deeper.all) true c
  rw [functionRound, bind_apply]
  unfold attempt
  rcases run : function Deeper.all true c with ⟨e | f, d⟩ <;> rw [run] at kept further
  · exact ((kept.trans (d.leads_record e)).lt_advance ends (token_ne_eof_of_atEnd more)).trans_le
      (Cursor.leads_skipWhile _ _ _).pos
  · exact further f ends rfl

/-- Recovery for a statement: where it got nowhere, one token is passed. -/
theorem statementRound_passes (n : Nat) (ends : c.Ends) (more : c.atEnd = false)
    (done : List Statement) : c.pos < (statementRound (Deeper.levels n) done c).2.pos := by
  have kept := Keeps.leads (p := (Deeper.levels n).statement) c
  have further := advances_levels n c
  rw [statementRound, look_bind, bind_apply]
  unfold attempt
  rcases run : (Deeper.levels n).statement c with ⟨e | s, d⟩ <;> rw [run] at kept further
  · have back := kept.trans ((d.leads_record e).trans (Cursor.leads_toStatementBoundary _))
    change c.pos < (Prod.snd ((if (d.record e).toStatementBoundary.pos == c.pos then
      move (·.advance) >>= fun _ => pure done else pure done : Parser _) _)).pos
    split
    · exact back.lt_advance ends (token_ne_eof_of_atEnd more)
    · rename_i moved
      exact back.pos.lt_of_ne fun same => moved (beq_iff_eq.mpr same.symm)
  · exact further s ends rfl

end

theorem advances_armRound (d : Deeper) [d.Keeps] (done : List Arm × Option Block) :
    Advances (armRound d done) := by
  refine .after fun start => .after fun isCase => ?_
  split
  · exact .after fun _ => .bind (advances_expect rfl)
  · refine .after fun isDefault => ?_
    split
    · exact .bind (advances_expect rfl)
    · exact .failing fun _ _ h => nomatch h

section
variable {c : Cursor} {f : Token → Parser α} [∀ t, Keeps (f t)]

theorem advance_passes (ends : c.Ends) (more : c.token ≠ .eof) :
    c.pos < ((advance >>= f) c).2.pos := by
  rw [bind_apply]
  exact (ends.lt_advance more).trans_le (Keeps.leads (p := f c.token) c.advance).pos

end

theorem suffixRound_passes (d : Deeper) [d.Keeps] {c : Cursor} (ends : c.Ends)
    (more : noSuffix c = false) (e : Expr) : c.pos < (suffixRound d e c).2.pos := by
  rw [suffixRound, look_bind]
  unfold noSuffix at more
  split at more
  · rename_i opens
    rw [opens]
    exact advance_passes ends (by simp [opens])
  · rename_i dot
    rw [dot]
    exact advance_passes ends (by simp [dot])
  · cases more

theorem operatorRound_passes {find : Token → Option BinaryOp} (last : find .eof = none)
    (right : BinaryOp → Parser Expr) [∀ op, Keeps (right op)] {c : Cursor} (ends : c.Ends)
    (more : noOperator find c = false) (left : Expr) :
    c.pos < (operatorRound find right left c).2.pos := by
  rw [operatorRound, look_bind]
  cases found : find c.token with
  | none => simp [noOperator, found] at more
  | some op => exact advance_passes ends fun eof => by simp [eof, last] at found

instance (d : Deeper) [d.Keeps] (e : Expr) : Keeps (suffixRound d e) := by
  unfold suffixRound
  refine .bind fun token => ?_
  split <;> infer_instance

instance (find : Token → Option BinaryOp) (right : BinaryOp → Parser Expr)
    [∀ op, Keeps (right op)] (left : Expr) : Keeps (operatorRound find right left) := by
  unfold operatorRound
  refine .bind fun token => ?_
  split <;> infer_instance

instance (done : List Func) : Keeps (functionRound done) := by
  unfold functionRound
  refine .bind fun r => ?_
  split <;> infer_instance

instance (d : Deeper) [d.Keeps] (done : List Statement) : Keeps (statementRound d done) := by
  unfold statementRound
  refine .bind fun start => .bind fun r => ?_
  split <;> infer_instance

instance (d : Deeper) [d.Keeps] (done : List Arm × Option Block) : Keeps (armRound d done) := by
  unfold armRound
  infer_instance

/-- Commas are not cut off: the list is the same for all bounds that are no less than the number of
tokens left. -/
theorem commaList_enough (item : Parser α) [Keeps item] {n k : Nat} {c : Cursor} (ends : c.Ends)
    (hn : c.rest.length ≤ n) (hk : c.rest.length ≤ k) :
    commaList item n c = commaList item k c := by
  have inside := c.inBounds
  rw [c.length_rest] at hn hk
  induction n generalizing k c with
  | zero => omega
  | succ n ih =>
    obtain ⟨k, rfl⟩ : ∃ l, k = l + 1 := ⟨k - 1, by omega⟩
    have kept := Keeps.leads (p := item) c
    rw [commaList, commaList, bind_apply, bind_apply]
    rcases run : item c with ⟨e | x, d⟩
    · rfl
    rw [run] at kept
    change (eat (.sym .comma) >>= _) d = (eat (.sym .comma) >>= _) d
    rw [bind_apply, bind_apply, eat]
    by_cases comma : d.sees (.sym .comma) = true
    · have further : d.pos < d.advance.pos :=
        (kept.ends ends).lt_advance (Cursor.token_ne_eof comma rfl)
      have fewer : d.advance.tokens.size - d.advance.pos + 1 ≤ c.tokens.size - c.pos := by
        rw [d.leads_advance.tokens, kept.tokens]
        have back : c.pos ≤ d.pos := kept.pos
        have inside := d.advance.inBounds
        rw [d.leads_advance.tokens, kept.tokens] at inside
        omega
      have same : commaList item n d.advance = commaList item k d.advance :=
        ih (d.leads_advance.ends (kept.ends ends)) (by omega) (by omega) d.advance.inBounds
      rw [if_pos comma]
      change (commaList item n >>= _) d.advance = (commaList item k >>= _) d.advance
      rw [bind_apply, bind_apply, same]
    · rw [if_neg comma]
      rfl

/-! ## Getting through -/

/-- How the reading goes from a cursor on, whatever the tokens ahead. -/
structure GetsThrough (c : Cursor) : Prop where
  /-- What a round of the loops over functions, statements and arms is. -/
  functions_rounds : ∀ n done, functions (n + 1) done c =
    if c.atEnd then (.ok done.reverse, c) else (functionRound done >>= functions n) c
  statements_rounds : ∀ level ends n done, statements (Deeper.levels level) ends (n + 1) done c =
    if c.atEnd || ends.any c.sees then (.ok done.reverse, c)
    else (statementRound (Deeper.levels level) done >>=
      statements (Deeper.levels level) ends n) c
  arms_rounds : ∀ level n done, arms (Deeper.levels level) (n + 1) done.1 done.2 c =
    if c.sees (.sym .rightBrace) || c.atEnd then (.ok (done.1.reverse, done.2), c)
    else (armRound (Deeper.levels level) done >>=
      fun done => arms (Deeper.levels level) n done.1 done.2) c
  /-- Each round passes a token, after an error as well; an arm that cannot be read ends its loop. -/
  function_passes : c.atEnd = false → ∀ done, c.pos < (functionRound done c).2.pos
  statement_passes : c.atEnd = false → ∀ level done,
    c.pos < (statementRound (Deeper.levels level) done c).2.pos
  arm_passes : ∀ level done done', (armRound (Deeper.levels level) done c).1 = .ok done' →
    c.pos < (armRound (Deeper.levels level) done c).2.pos
  /-- So rounds come to an end of their own, and no token count cuts them off. -/
  functions_end : Loops (fun _ c => c.atEnd) functionRound List.reverse [] c
    (functions c.tokens.size [] c)
  suffixes_end : ∀ level e, Loops (fun _ => noSuffix) (suffixRound (Deeper.levels level)) id e c
    (suffixes (Deeper.levels level) c.tokens.size e c)
  operators_end : ∀ level climbs least left,
    Loops (fun _ => noOperator (operator? least))
      (operatorRound (operator? least) fun op =>
        climb (Deeper.levels level) climbs op.precedence.tighter) id left c
      (operators (climb (Deeper.levels level) climbs) least c.tokens.size left c)
  items_end : ∀ level n, c.tokens.size ≤ n →
    commaList (Deeper.levels level).expression n c =
        commaList (Deeper.levels level).expression c.tokens.size c ∧
      commaList ident n c = commaList ident c.tokens.size c
  boundary_ends : Cursor.isInsideStatement
    (c.skipWhile Cursor.isInsideStatement c.tokens.size).token = false
  function_ends : c.toFunction.token = .eof ∨ c.toFunction.token = .word .function
  /-- The reading never goes back and never forgets an error; no cursor stands behind the last
  token. -/
  functions_lead : ∀ n done, c.Leads (functions n done c).2
  statements_lead : ∀ level ends n done, c.Leads (statements (Deeper.levels level) ends n done c).2
  arms_lead : ∀ level n done otherwise, c.Leads (arms (Deeper.levels level) n done otherwise c).2
  statement_leads : ∀ level, c.Leads ((Deeper.levels level).statement c).2
  expression_leads : ∀ level, c.Leads ((Deeper.levels level).expression c).2
  /-- An error in the place of a function or a statement is recorded. -/
  function_error : ∀ e done, (function Deeper.all true c).1 = .error e →
    e ∈ (functionRound done c).2.recorded
  statement_error : ∀ level e done, ((Deeper.levels level).statement c).1 = .error e →
    e ∈ (statementRound (Deeper.levels level) done c).2.recorded
  /-- A module comes out only if no error was, at the end of the text. -/
  accepted : ∀ m, wholeModule c = .ok m → ∃ d, functions c.tokens.size [] c = (.ok m.functions, d) ∧
    d.recorded = [] ∧ d.token = .eof ∧
    ((∀ t ∈ c.tokens.pop, t.token ≠ .eof) → d.pos + 1 = c.tokens.size)

/-- Errors met in a round are recorded in it. -/
theorem functionRound_error {c : Cursor} {e : SyntaxError} (done : List Func)
    (failed : (function Deeper.all true c).1 = .error e) :
    e ∈ (functionRound done c).2.recorded := by
  rw [functionRound, bind_apply]
  unfold attempt
  rcases run : function Deeper.all true c with ⟨r, d⟩
  rw [run] at failed
  cases failed
  exact (d.record e).leads_toFunction.recorded.mem List.mem_cons_self

theorem statementRound_error {d : Deeper} {c : Cursor} {e : SyntaxError} (done : List Statement)
    (failed : (d.statement c).1 = .error e) : e ∈ (statementRound d done c).2.recorded := by
  rw [statementRound, look_bind, bind_apply]
  unfold attempt
  rcases run : d.statement c with ⟨r, d⟩
  rw [run] at failed
  cases failed
  refine List.IsSuffix.mem List.mem_cons_self (Cursor.Leads.recorded (c := d.record e) ?_)
  refine (Cursor.leads_toStatementBoundary _).trans ?_
  exact Keeps.leads (p := (do if (← look (·.pos)) == c.pos then move (·.advance)
                              return done : Parser _)) _

theorem Loops.ofEnds {stop : σ → Cursor → Bool} {round : σ → Parser σ} {out : σ → α}
    [∀ s, Keeps (round s)] {loop : Nat → σ → Parser α}
    (step : ∀ n s, loop (n + 1) s = (do
      if ← look (stop s) then return out s else round s >>= loop n))
    (passes : ∀ s c, c.Ends → stop s c = false → c.pos < (round s c).2.pos) (s : σ) {c : Cursor}
    (ends : c.Ends) : Loops stop round out s c (loop c.tokens.size s c) :=
  .of_bound (I := fun ts => ts.back?.map Located.token = some .eof) step
    (fun s c _ ends more _ => passes s c ends more) _ s
    c.length_rest_le ends

/-- A module comes out only if no error was met. -/
theorem wholeModule_ok {c : Cursor} {m : Module} (ok : wholeModule c = .ok m) :
    ∃ d, functions c.tokens.size [] c = (.ok m.functions, d) ∧ d.recorded = [] := by
  unfold wholeModule at ok
  rcases run : functions c.tokens.size [] c with ⟨e | fs, d⟩ <;> rw [run] at ok
  · cases ok
  · dsimp only at ok
    split at ok
    · rename_i clean
      refine ⟨d, ?_, List.reverse_eq_nil_iff.mp clean⟩
      cases last : fs.getLast? with
      | none =>
        rw [last] at ok
        cases ok
        rw [List.getLast?_eq_none_iff.mp last]
      | some f =>
        rw [last] at ok
        cases ok
        rfl
    · cases ok

theorem loops_functions {c : Cursor} (ends : c.Ends) :
    Loops (fun _ c => c.atEnd) functionRound List.reverse [] c (functions c.tokens.size [] c) :=
  .ofEnds functions_succ (fun done _ ends more => functionRound_passes ends more done) [] ends

/-- A module comes out only at the end of the text. -/
theorem wholeModule_atEnd {c : Cursor} {m : Module} (ends : c.Ends) (ok : wholeModule c = .ok m) :
    ∃ d, functions c.tokens.size [] c = (.ok m.functions, d) ∧ d.recorded = [] ∧ d.token = .eof ∧
      ((∀ t ∈ c.tokens.pop, t.token ≠ .eof) → d.pos + 1 = c.tokens.size) := by
  obtain ⟨d, run, clean⟩ := wholeModule_ok ok
  have all := loops_functions ends
  have kept := Keeps.leads (p := functions c.tokens.size []) c
  rw [run] at all kept
  obtain ⟨-, last, -⟩ := all.stopped
  have eof : d.token = .eof := by simpa [Cursor.atEnd] using last
  refine ⟨d, run, clean, eof, fun only => ?_⟩
  have inside := d.inBounds
  by_contra before
  have earlier : d.here ∈ d.tokens.pop := by
    have short : d.pos < d.tokens.pop.size := by
      rw [Array.size_pop, kept.tokens]
      rw [kept.tokens] at inside
      omega
    exact Array.mem_of_getElem (h := short) (Array.getElem_pop short)
  exact only d.here (kept.tokens ▸ earlier) eof

/-- However a text is formed, the reading gets through it. -/
theorem getsThrough {c : Cursor} (ends : c.Ends) : GetsThrough c := by
  have endless : c.rest.length ≤ c.tokens.size := c.length_rest_le
  exact {
    functions_rounds := fun n done => by
      rw [functions_succ, look_bind]
      cases c.atEnd <;> rfl
    statements_rounds := fun level closers n done => by
      rw [statements_succ, look_bind]
      cases c.atEnd || closers.any c.sees <;> rfl
    arms_rounds := fun level n done => by
      rw [arms_succ, look_bind]
      cases c.sees (.sym .rightBrace) || c.atEnd <;> rfl
    function_passes := fun more done => functionRound_passes ends more done
    statement_passes := fun more level done => statementRound_passes level ends more done
    arm_passes := fun level done done' ok => advances_armRound _ done c done' ends ok
    functions_end := loops_functions ends
    suffixes_end := fun level e => .ofEnds (suffixes_succ _)
      (fun e c ends more => suffixRound_passes _ ends more e) e ends
    operators_end := fun level climbs least left => by
      rw [operators_eq_folds]
      exact .ofEnds (folds_succ _ _)
        (fun left c ends more => operatorRound_passes rfl _ ends more left) left ends
    items_end := fun level n enough =>
      ⟨commaList_enough _ ends (endless.trans enough) endless,
        commaList_enough _ ends (endless.trans enough) endless⟩
    boundary_ends := ends.skipWhile_stops _ rfl endless
    function_ends := by
      have stops := (c.leads_advance.ends ends).skipWhile_stops
        (fun t => !(t == .eof || t == .word .function)) rfl c.advance.length_rest_le
      rw [c.leads_advance.tokens] at stops
      simpa [Cursor.toFunction, or_iff_not_imp_left] using stops
    functions_lead := fun n done => Keeps.leads c
    statements_lead := fun level closers n done => Keeps.leads c
    arms_lead := fun level n done otherwise => Keeps.leads c
    statement_leads := fun level => Keeps.leads c
    expression_leads := fun level => Keeps.leads c
    function_error := fun e done failed => functionRound_error done failed
    statement_error := fun level e done failed => statementRound_error done failed
    accepted := fun m ok => wholeModule_atEnd ends ok }

/-- A function without a name, a brace too many and half a function. -/
def broken : Cursor :=
  .onTokens ([.word .function, .sym .leftParen, .sym .rightBrace, .sym .rightBrace, .word .function,
    .ident "f"].map (⟨·, default⟩)) ⟨.eof, default⟩

theorem getsThrough_broken : broken.Ends ∧ GetsThrough broken := ⟨rfl, getsThrough rfl⟩

end Parser
end WaitDefer
