import WaitDefer.Proofs.Grammar.Laying
import WaitDefer.Proofs.Grammar.Rounds
import WaitDefer.Proofs.Token.Tiling

/-!
# Where a tree stands in its text

Every parser of the grammar lays what it reads over the tokens it passes, so ids and spans of a
module are those of a tree that is laid out over the tokens of its text:

* `Deeper.Lays`, `Deeper.lays_levels`: the parsers at every level of nesting;
* `Module.laid_of_parse`: a module that was read, over the tokens of its text;
* `Module.WellNumbered`, `Module.Spanned`: what this says of its ids, and of its spans.
-/

namespace WaitDefer

set_option synthInstance.maxSize 512

/-- The parsers for what lies deeper lay what they read over the tokens they pass. -/
structure Deeper.Lays (ts : Array Located) (d : Deeper) : Prop where
  expression : Parser.Lays ts 1 d.expression fun e => [.expr e]
  unary : Parser.Lays ts 1 d.unary fun e => [.expr e]
  statement : Parser.Lays ts 0 d.statement fun s => [.statement s]

namespace Parser

section
variable {ts : Array Located} {d : Deeper} [d.Keeps] (lays : d.Lays ts)
include lays

/-! ## Blocks and functions -/

theorem from_statements (ends : List Token) (count : Nat) {done : List Statement}
    {i n j m : Nat} (l : Laying ts 0 i n j m (done.reverse.map .statement)) :
    From ts j m (statements d ends count done)
      fun ss k l => Laying ts 0 i n k l (ss.map .statement) := by
  induction count generalizing done j m with
  | zero =>
    unfold statements
    refine .look fun ended => ?_
    split
    · exact .done l
    · exact .look fun span => .throw
  | succ count ih =>
    unfold statements
    refine .look fun ended => ?_
    split
    · exact .done l
    · refine .look fun start => (lays.statement j m).attempt (fun s k m' l' => ih ?_) fun e c => ?_
      · rw [List.reverse_cons, List.map_append]
        exact l.append l'
      · exact recorded_record e c

theorem lays_body (ends : List Token) :
    Lays ts 0 (statements d ends Limit.rounds []) fun ss => ss.map .statement :=
  fun _ _ => from_statements lays ends _ .nil

theorem lays_block : Lays ts 1 (block d) fun b => [.block b] := by
  refine fun i n => .span (.expect rfl fun _ => .freshId ?_)
  refine (lays_body lays _ _ _).bind fun ss j m l => .expect rfl fun _ => .spanFrom (.done ?_)
  exact l.passed.after.numbered rfl rfl rfl

theorem lays_function (named : Bool) : Lays ts 1 (function d named) fun f => [.func f] := by
  refine fun i n => .span (.expect rfl fun _ => .freshId ?_)
  refine (Lays.ident? _ _).bind fun name j m ln => ?_
  have rest : From ts j m (do
      let _ ← expect (.sym .leftParen)
      let params ← untilParen ident
      let body ← block d
      return (⟨IdSupply.nth n, name, params, body, (spanAt ts i).through body.span⟩ : Func))
      fun f k l => Laying ts 1 i n k l [.func f] := by
    refine .expect rfl fun _ => (Lays.ident.untilParen _ _).bind fun params j' m' lp => ?_
    refine (lays_block lays _ _).bind fun body k l lb => .done ?_
    have before := (ln.append lp.after).after
    exact (before.closed_numbered lb rfl rfl (Spot.holds_inside _)).less (by omega)
  dsimp only
  split
  · exact ((From.unexpected _).suggesting _).bind (T := fun _ _ _ => False) fun _ _ _ h => h.elim
  · exact rest

/-! ## Expressions -/

theorem lays_primary : Lays ts 1 (primary d) fun e => [.expr e] := by
  refine fun i n => .span (.token ?_)
  split
  · exact .advance (by simp [*]) (.done (.leaf rfl rfl (.refl _)))
  · exact .advance (by simp [*]) (.done (.leaf rfl rfl (.refl _)))
  · exact .advance (by simp [*]) (.done (.leaf rfl rfl (.refl _)))
  · exact .advance (by simp [*]) (.done (.leaf rfl rfl (.refl _)))
  · exact .advance (by simp [*]) (.done (.leaf rfl rfl (.refl _)))
  · rename_i name _
    refine .advance (by simp [*]) (.done ?_)
    have leaf : Laying ts 1 i n (i + 1) n [.ident ⟨name, spanAt ts i⟩] := .leaf rfl rfl (.refl _)
    exact leaf.same rfl rfl (.refl _)
  · refine .advance (by simp [*]) ((lays.expression _ _).bind fun inner j m l => ?_)
    exact .expect rfl fun _ => .done (l.passed.after.less (by omega))
  · refine (lays_function lays false i n).bind fun f j m l => .done ?_
    exact l.same rfl rfl (.refl _)
  · refine .advance (by simp [*]) (.expect rfl fun _ => ?_)
    refine ((Lays.ident.suggesting _).untilParen _ _).bind fun bindings j m l => ?_
    refine .spanFrom (.done ?_)
    exact (l.after.after.plain rfl rfl (Spot.holds_inside _)).less (by omega)
  · exact .unexpected _

theorem from_suffixes (count : Nat) {e : Expr} {i n j m : Nat}
    (l : Laying ts 1 i n j m [.expr e]) :
    From ts j m (suffixes d count e) fun e k l => Laying ts 1 i n k l [.expr e] := by
  induction count generalizing e j m with
  | zero => exact .done l
  | succ count ih =>
    unfold suffixes
    refine .token ?_
    split
    · refine .advance (by simp [*]) ((lays.expression.untilParen _ _).bind fun as k m' la => ?_)
      exact .spanFrom (ih (l.extend la.after rfl rfl (.refl _)))
    · refine .advance (by simp [*]) (From.property.bind ?_)
      rintro property k m' ⟨span, rfl, rfl⟩
      have name : Laying ts 1 (j + 1) m' (j + 1 + 1) m' [.ident property] :=
        .leaf span rfl (Spot.holds_inside _)
      exact ih (l.join name rfl rfl (Spot.holds_inside _))
    · exact .done l

theorem lays_unary : Lays ts 1 (unary d) fun e => [.expr e] := by
  refine fun i n => .span (.token ?_)
  split
  · rename_i op found
    have more : tokenAt ts i ≠ .eof := by
      intro eof
      rw [eof] at found
      cases found
    refine .advance more ((lays.unary.nested _ _ _).bind fun operand j m l => .done ?_)
    have before : Laying ts 1 i n (i + 1) n [] := Laying.nil.passed
    exact (before.closed l rfl rfl (Spot.holds_inside _)).less (by omega)
  · refine (lays_primary lays i n).bind fun e j m l => .look fun count => ?_
    exact from_suffixes lays count l

omit [d.Keeps] lays in
theorem from_operators {right : Precedence → Parser Expr} [∀ level, Keeps (right level)]
    (hright : ∀ level, Lays ts 1 (right level) fun e => [.expr e]) (least : Precedence)
    (count : Nat) {left : Expr} {i n j m : Nat} (l : Laying ts 1 i n j m [.expr left]) :
    From ts j m (operators right least count left) fun e k l => Laying ts 1 i n k l [.expr e] := by
  induction count generalizing left j m with
  | zero => exact .done l
  | succ count ih =>
    unfold operators
    refine .token ?_
    split
    · rename_i op found
      have more : tokenAt ts j ≠ .eof := by
        intro eof
        rw [eof] at found
        cases found
      refine .advance more ((hright _ _ _).bind fun operand k m' l' => ?_)
      exact ih (l.join l' rfl rfl (Spot.holds_inside _))
    · exact .done l

theorem lays_climb (levels : Nat) (least : Precedence) :
    Lays ts 1 (climb d levels least) fun e => [.expr e] := by
  induction levels generalizing least with
  | zero => exact lays_unary lays
  | succ levels ih =>
    refine fun i n => (lays_unary lays i n).bind fun left j m l => .look fun count => ?_
    exact from_operators ih least count l

/-! ## Statements -/

theorem lays_simple (declarations : Bool) :
    Lays ts 0 (simple d declarations) fun s => [.statement s] := by
  refine fun i n => .span (.sees rfl (fun more => ?_) ?_)
  · rw [if_pos rfl]
    refine .guarded fun _ => .advance more (.freshId (From.name.bind ?_))
    rintro name _ _ ⟨span, rfl, rfl⟩
    have declared : Laying ts 1 (i + 1) (n + 1) (i + 1 + 1) (n + 1) [.ident name] :=
      .leaf span rfl (.refl _)
    refine .eat rfl ?_ ?_
    · rw [if_pos rfl, bind_map_left]
      refine (lays.expression _ _).bind fun init j m l => .spanFrom (.done ?_)
      have parts := (declared.append l.after).after
      exact (parts.numbered rfl rfl (Spot.holds_inside _)).less (Nat.zero_le _)
    · rw [if_neg Bool.false_ne_true, pure_bind]
      refine .spanFrom (.done ?_)
      exact (declared.after.numbered rfl rfl (Spot.holds_inside _)).less (Nat.zero_le _)
  · refine .freshId ((lays.expression _ _).bind fun target j m l => .eat rfl ?_ ?_)
    · rw [if_pos rfl]
      refine .guarded fun _ => (lays.expression _ _).bind fun value k m' l' => .spanFrom (.done ?_)
      have parts := l.append l'.after
      exact (parts.numbered rfl rfl (Spot.holds_inside _)).less (Nat.zero_le _)
    · exact .spanFrom (.done (l.numbered rfl rfl (Spot.holds_inside _)))

theorem lays_condition : Lays ts 3 (condition d) fun e => [.expr e] := by
  refine fun i n => .expect rfl fun _ => (lays.expression _ _).bind fun e j m l => ?_
  exact .expect rfl fun _ => .done l.passed.after

theorem lays_branch : Lays ts 0 (branch d) fun s => [.statement s] := by
  refine fun i n => .span (.expect rfl fun _ => .freshId ?_)
  refine (lays_condition lays _ _).bind fun test j m l => ?_
  refine (lays_block lays _ _).bind fun yes j' m' l' => ?_
  have both := (l.append l').after
  refine .eat rfl ?_ ?_
  · rw [if_pos rfl]
    refine .look fun again => ?_
    split
    · refine .freshId ((lays.statement _ _).bind fun s k m'' ls => ?_)
      rw [pure_bind]
      refine .spanFrom (.done ?_)
      have no : Laying ts 0 j' m' k m'' [.block ⟨IdSupply.nth m', [s], s.span⟩] :=
        ls.after.wrapped rfl rfl rfl
      exact ((both.append no).numbered rfl rfl (Spot.holds_inside _)).less (Nat.zero_le _)
    · rw [bind_map_left]
      refine (lays_block lays _ _).bind fun no k m'' ls => .spanFrom (.done ?_)
      have parts := both.append ls.after
      exact (parts.numbered rfl rfl (Spot.holds_inside _)).less (Nat.zero_le _)
  · rw [if_neg Bool.false_ne_true, pure_bind]
    refine .spanFrom (.done ?_)
    exact (both.numbered rfl rfl (Spot.holds_inside _)).less (Nat.zero_le _)

/-- The arms of a switch, in any order. -/
def armSpots (arms : List Arm) (otherwise : Option Block) : List Spot :=
  arms.map .arm ++ otherwise.toList.map .block

theorem from_arms (count : Nat) {done : List Arm} {otherwise : Option Block} {i n j m : Nat}
    {ps : List Spot} (l : Laying ts 0 i n j m ps) (perm : ps.Perm (armSpots done otherwise)) :
    From ts j m (arms d count done otherwise)
      fun r k l => ∃ ps, Laying ts 0 i n k l ps ∧ ps.Perm (armSpots r.1 r.2) := by
  have ended : ∀ {done : List Arm} {otherwise : Option Block} {j m : Nat} {ps : List Spot},
      Laying ts 0 i n j m ps → ps.Perm (armSpots done otherwise) →
      From ts j m (Pure.pure (done.reverse, otherwise))
        fun r k l => ∃ ps, Laying ts 0 i n k l ps ∧ ps.Perm (armSpots r.1 r.2) :=
    fun {done} _ _ _ ps l perm =>
      .done ⟨ps, l, perm.trans (((List.reverse_perm done).symm.map _).append_right _)⟩
  induction count generalizing done otherwise j m ps with
  | zero =>
    unfold arms
    refine .look fun stop => ?_
    split
    · exact ended l perm
    · exact .look fun span => .throw
  | succ count ih =>
    unfold arms
    refine .look fun stop => ?_
    split
    · exact ended l perm
    refine .span (.eat rfl ?_ ?_)
    · rw [if_pos rfl]
      refine (lays.expression _ _).bind fun test j' m' lt => .expect rfl fun _ => .freshId ?_
      refine (lays_body lays _ _ _).bind fun ss k l' lb => .spanFrom ?_
      exact ih (l.append (lt.arm lb)) ((List.perm_append_singleton _ _).trans (perm.cons _))
    · rw [if_neg Bool.false_ne_true]
      refine .eat rfl ?_ (.unexpected _)
      rw [if_pos rfl]
      refine .expect rfl fun _ => .freshId ((lays_body lays _ _ _).bind fun ss k l' lb => ?_)
      refine .guarded fun first => .spanFrom ?_
      have none : otherwise = none := by simpa using first
      subst none
      have last : Laying ts 1 j m k l' [.block ⟨IdSupply.nth m, ss, stretch ts j k⟩] :=
        lb.after.after.numbered rfl rfl rfl
      rw [armSpots, Option.toList_none, List.map_nil, List.append_nil] at perm
      exact ih ((l.append last).less (Nat.zero_le _)) (perm.append_right _)

theorem lays_switch : Lays ts 0 (switch d) fun s => [.statement s] := by
  refine fun i n => .span (.expect rfl fun _ => .freshId ?_)
  refine (lays_condition lays _ _).bind fun subject j m l => .expect rfl fun _ => ?_
  refine (from_arms lays _ .nil (.refl _)).bind fun r k m' ⟨ps, lp, perm⟩ => ?_
  refine .expect rfl fun _ => .spanFrom (.done ?_)
  have parts := (l.append lp.after).passed.after
  have holds :
      (Spot.statement ⟨IdSupply.nth n, .switch subject r.1 r.2, stretch ts i (k + 1)⟩).Holds
      ([.expr subject] ++ ps) := perm.cons _
  exact (parts.numbered rfl rfl holds).less (Nat.zero_le _)

theorem lays_headAndBody (first : Token) :
    Lays ts 0 (headAndBody d first) fun r => r.1.spots r.2 := by
  intro i n
  unfold headAndBody
  split
  · refine (lays_condition lays _ _).bind fun test j m l => ?_
    refine (lays_block lays _ _).bind fun body k m' l' => .done ?_
    exact (l.append l').less (Nat.zero_le _)
  · refine (lays_block lays _ _).bind fun body j m l => .expect rfl fun _ => ?_
    refine (lays_condition lays _ _).bind fun test k m' l' => .expect rfl fun _ => .done ?_
    exact (l.append l'.after).passed.less (Nat.zero_le _)
  · refine .expect rfl fun _ => ?_
    refine ((lays_simple lays true).unlessAt _ _ _).bind fun init j m l => .expect rfl fun _ => ?_
    refine (lays.expression.unlessAt _ _ _).bind fun test j' m' l' => .expect rfl fun _ => ?_
    refine ((lays_simple lays false).unlessAt _ _ _).bind fun update k m'' l'' => ?_
    refine .expect rfl fun _ => (lays_block lays _ _).bind fun body k' m₃ lb => .done ?_
    exact ((((l.append l'.after).append l''.after).append lb.after).after).less (Nat.zero_le _)

theorem from_loop {label : Option Ident} {i n j : Nat} (more : tokenAt ts j ≠ .eof)
    (hl : Laying ts 0 i (n + 1) j (n + 1) (label.toList.map .ident)) :
    From ts j n (loop d label (spanAt ts i)) fun s k l => Laying ts 0 i n k l [.statement s] := by
  refine .advance more (.freshId ((lays_headAndBody lays _ _ _).bind fun r k m l => ?_))
  refine .spanFrom (.done ?_)
  exact (hl.append l.after).numbered rfl rfl (Spot.holds_inside _)

omit [d.Keeps] lays in
theorem from_jump {i n : Nat} (more : tokenAt ts i ≠ .eof) (kind : JumpKind) :
    From ts i n (jump kind) fun s k l => Laying ts 0 i n k l [.statement s] := by
  refine .span (.advance more (.freshId ((Lays.ident? _ _).bind fun label j m l => ?_)))
  refine .expect rfl fun _ => .spanFrom (.done ?_)
  exact (l.passed.after.numbered rfl rfl (Spot.holds_inside _)).less (Nat.zero_le _)

theorem lays_labelled : Lays ts 0 (labelled d) fun s => [.statement s] := by
  refine fun i n => .span (From.name.bind ?_)
  rintro label j m ⟨span, rfl, rfl⟩
  refine .expect rfl fun _ => .token ?_
  dsimp only
  split
  · rename_i starts
    have more : tokenAt ts (i + 1 + 1) ≠ .eof := by
      intro eof
      rw [eof] at starts
      cases starts
    have name : Laying ts 1 i (m + 1) (i + 1) (m + 1) [.ident label] :=
      .leaf span rfl (Spot.holds_inside _)
    exact from_loop lays more (name.passed.less (Nat.zero_le _))
  · exact .throw

theorem lays_simpleLine : Lays ts 0 (simpleLine d) fun s => [.statement s] := by
  refine fun i n => .span ((lays_simple lays true _ _).bind fun s j m l => ?_)
  exact .expect rfl fun _ => .spanFrom (.done (l.terminated.less (Nat.zero_le _)))

theorem lays_statement : Lays ts 0 (statement d) fun s => [.statement s] := by
  refine fun i n => .span (.token ?_)
  split
  · refine .freshId ((lays_function lays true _ _).bind fun f j m l => .done ?_)
    exact l.wrapped rfl rfl (Spot.holds_inside _)
  · exact lays_branch lays i n
  · exact lays_switch lays i n
  · exact from_loop lays (by simp [*]) .nil
  · exact from_loop lays (by simp [*]) .nil
  · exact from_loop lays (by simp [*]) .nil
  · refine .look fun next => ?_
    split
    · exact lays_labelled lays i n
    · exact lays_simpleLine lays i n
  · exact from_jump (by simp [*]) .leave
  · exact from_jump (by simp [*]) .resume
  · refine .advance (by simp [*]) (.freshId ?_)
    refine (lays.expression.unlessAt _ _ _).bind fun value j m l => .expect rfl fun _ => ?_
    refine .spanFrom (.done ?_)
    exact (l.passed.after.numbered rfl rfl (Spot.holds_inside _)).less (Nat.zero_le _)
  · refine .advance (by simp [*]) (.freshId ?_)
    refine (lays_block lays _ _).bind fun body j m l => .spanFrom (.done ?_)
    exact (l.after.numbered rfl rfl (Spot.holds_inside _)).less (Nat.zero_le _)
  · refine .freshId ((lays_block lays _ _).bind fun body j m l => .done ?_)
    exact l.wrapped rfl rfl (Spot.holds_inside _)
  · exact lays_simpleLine lays i n

end
end Parser

/-! ## The whole grammar -/

theorem Deeper.lays_levels (ts : Array Located) (count : Nat) : (levels count).Lays ts := by
  induction count with
  | zero => exact ⟨fun _ _ => .noRoom _, fun _ _ => .noRoom _, fun _ _ => .noRoom _⟩
  | succ count ih =>
    exact ⟨(Parser.lays_climb ih _ _).nested _, Parser.lays_unary ih,
      (Parser.lays_statement ih).nested _⟩

namespace Parser

theorem from_functions {ts : Array Located} (count : Nat) {done : List Func} {i n j m : Nat}
    (l : Laying ts 0 i n j m (done.reverse.map .func)) :
    From ts j m (functions count done) fun fs k l => Laying ts 0 i n k l (fs.map .func) := by
  induction count generalizing done j m with
  | zero => exact .done l
  | succ count ih =>
    unfold functions
    refine .look fun ended => ?_
    split
    · exact .done l
    · have one := lays_function (Deeper.lays_levels ts Limit.nesting) true j m
      refine one.attempt (fun f k m' l' => ih ?_) fun e c => recorded_record e c
      rw [List.reverse_cons, List.map_append]
      exact l.append (l'.less (Nat.zero_le _))

/-- A module goes from the first token to the end of its last function. -/
theorem span_of_wholeModule {c : Cursor} {m : Module} (ok : wholeModule c = .ok m) :
    m.span = match m.functions.getLast? with
      | some last => c.span.through last.span
      | none => c.span := by
  unfold wholeModule at ok
  split at ok
  · rename_i fs d run
    split at ok
    · cases last : fs.getLast? with
      | some f =>
        rw [last] at ok
        cases ok
        simp [last]
      | none =>
        rw [last] at ok
        cases ok
        rfl
    · cases ok
  · cases ok

end Parser

/-! ## Modules -/

theorem Lexer.Tiled.spread {text : List Char} {ts : List Located} (h : Tiled [] text ts) :
    Spread text ts.toArray :=
  ⟨fun _ hw => h.placed rfl (by simpa using hw), by simpa using h.apart⟩

namespace Module

variable {source : String} {m : Module}

/-- A module that was read lies over the tokens of its text, which outnumber the ids. -/
theorem laid_of_parse (h : parse source = .ok m) : ∃ ts j n, Spread source.toList ts ∧
    ts.size ≤ source.utf8ByteSize + 1 ∧ n ≤ j ∧ j < ts.size ∧
    Laid ts 0 0 j n (m.functions.map .func) ∧
    m.span = match m.functions.getLast? with
      | some last => (spanAt ts 0).through last.span
      | none => spanAt ts 0 := by
  unfold parse at h
  split at h
  case h_2 => cases h
  case h_1 c start =>
    cases words : Lexer.words source with
    | error e =>
      rw [Cursor.ofSource, words] at start
      cases start
    | ok ws =>
      rw [Cursor.ofSource, words] at start
      cases start
      have tiled := Lexer.tiled_of_words words
      have here : (Cursor.onTokens ws (Lexer.endOf source.toList)).At
          (ws ++ [Lexer.endOf source.toList]).toArray 0 0 := ⟨rfl, rfl, rfl⟩
      have ends : (Cursor.onTokens ws (Lexer.endOf source.toList)).Ends := by
        simp [Cursor.Ends, Cursor.onTokens, Lexer.endOf]
      obtain ⟨d, run, clean⟩ := Parser.wholeModule_ok h
      obtain ⟨j, n, there, l⟩ := Parser.from_functions _ .nil _ _ d here ends run clean
      have few := tiled.length_le
      have room := l.room
      refine ⟨_, j, n, tiled.spread, ?_, by omega, there.inside, l.laid, ?_⟩
      · rwa [List.size_toArray, ← String.utf8Len_toList]
      · rw [Parser.span_of_wholeModule h, here.span]

/-! ### Ids -/

theorem ids_perm_of_laid {ts : Array Located} {j n : Nat} (room : n ≤ NodeId.last + 1)
    (laid : Laid ts 0 0 j n (m.functions.map .func)) : m.ids.Perm (List.range n) := by
  have own : (↑m.ids : Multiset NodeId) = bagOf Spot.bag (m.functions.map .func) := by
    rw [bagOf_map]
    exact Node.bag_flatMap Func.allNodes m.functions
  have below : (Multiset.Ico 0 n).map IdSupply.nth = (Multiset.Ico 0 n).map id := by
    refine Multiset.map_congr rfl fun a ha => Nat.min_eq_left ?_
    have lt := (Multiset.mem_Ico.mp ha).2
    omega
  have range : Multiset.Ico 0 n = Multiset.range n := congrArg Finset.val (Nat.Ico_zero_eq_range n)
  rw [laid.bag, below, Multiset.map_id, range] at own
  exact Multiset.coe_eq_coe.mp own

theorem maxId?_of_perm {n : Nat} (perm : m.ids.Perm (List.range n)) :
    m.maxId? = if m.functions = [] then none else some (n - 1) := by
  split
  · rename_i none
    rw [maxId?, ids, allNodes, none]
    rfl
  · rename_i some
    obtain ⟨f, hf⟩ := List.exists_mem_of_ne_nil _ some
    have root : Node.func f ∈ m.allNodes := by
      refine List.mem_flatMap.mpr ⟨f, hf, ?_⟩
      rw [Func.allNodes_eq]
      exact List.mem_cons_self
    have lt : f.id < n := List.mem_range.mp
      (perm.mem_iff.mp (List.mem_filterMap.mpr ⟨.func f, root, rfl⟩))
    have last : n - 1 < n := Nat.sub_lt (Nat.zero_lt_of_lt lt) Nat.one_pos
    refine List.max?_eq_some_iff.mpr ⟨perm.mem_iff.mpr (List.mem_range.mpr last), ?_⟩
    intro a ha
    exact Nat.le_sub_one_of_lt (List.mem_range.mp (perm.mem_iff.mp ha))

/-- The ids of a module are 0, 1, 2 and so on. They grow inwards and from one function or statement
to the next. -/
structure WellNumbered (m : Module) : Prop where
  /-- Each number below the count of the ids is one of them, once, and no other number is. -/
  dense : m.ids.Perm (List.range m.ids.length)
  inside : ∀ x y, m.Has x → y.Within x → x.Before y
  functions : m.functions.Pairwise fun f g => f.id < g.id
  statements : ∀ b, m.Has (.block b) → b.statements.Pairwise fun s t => s.id < t.id
  maxId : m.maxId? = if m.functions = [] then none else some (m.ids.length - 1)

/-- Reading numbers the nodes of a module from zero on, if the text is not longer than there are
ids. -/
theorem numbered_of_parse (short : source.utf8ByteSize < 2 ^ 32) (h : parse source = .ok m) :
    m.WellNumbered := by
  obtain ⟨ts, j, n, -, few, le, inside, laid, -⟩ := laid_of_parse h
  have room : n ≤ NodeId.last + 1 := show n ≤ 2 ^ 32 by omega
  have perm := ids_perm_of_laid room laid
  have count : m.ids.length = n := by rw [perm.length_eq, List.length_range]
  have ordered : ∀ f ∈ m.functions, (Spot.func f).Every Spot.Ordered := fun f hf =>
    laid.ordered room _ (List.mem_map_of_mem hf)
  constructor
  case dense => rwa [count]
  case inside =>
    intro x y hx hy a ha b hb
    exact (hx.of_every ordered).inside a ha b (Spot.mem_bag_of_within hy hb)
  case functions =>
    have before := laid.pairwise_before room
    rw [List.pairwise_map] at before
    exact before.imp fun h => h _ rfl _ rfl
  case statements => exact fun b hb => (hb.of_every ordered).statements b rfl
  case maxId => rw [count, maxId?_of_perm perm]

/-- Two functions, the first with a loop, an `else if` and a switch with a function in one arm. -/
def nestedSource : String :=
  "function f(a) { l: for (let i; a;) { if (a) {} else if (1) { break l; } }
  switch ((a.b)) { default: g(function (x) { return -x; }); case 1: wait {} } } function g() {}"

theorem exists_parse_nestedSource : ∃ m, parse nestedSource = .ok m := by
  have check : (parse nestedSource).toBool := by decide +kernel
  cases read : parse nestedSource with
  | ok m => exact ⟨m, rfl⟩
  | error e =>
    rw [read] at check
    cases check

theorem numbered_nestedSource :
    nestedSource.utf8ByteSize < 2 ^ 32 ∧ ∃ m, parse nestedSource = .ok m ∧ m.WellNumbered := by
  have short : nestedSource.utf8ByteSize < 2 ^ 32 := by decide +kernel
  obtain ⟨m, read⟩ := exists_parse_nestedSource
  exact ⟨short, m, read, numbered_of_parse short read⟩

/-! ### Spans -/

/-- The spans of a module stand in its text, each inside the span around it. -/
structure Spanned (source : String) (m : Module) : Prop where
  sound : ∀ x, m.Has x → x.span.Sound source
  inside : ∀ x, m.Has x → ∀ y ∈ x.inside, x.span.Encloses y.span
  functions : ∀ f ∈ m.functions, m.span.Encloses f.span
  /-- The statements of a block come one after the other. -/
  statements : ∀ b, m.Has (.block b) → b.statements.Pairwise fun s t => s.span.stop ≤ t.span.start

/-- Reading places everything in a module where it stands in the text. -/
theorem spanned_of_parse (h : parse source = .ok m) : m.Spanned source := by
  obtain ⟨ts, j, n, spread, -, -, inside, laid, span⟩ := laid_of_parse h
  have framed : ∀ f ∈ m.functions, (Spot.func f).Every (Spot.Framed source.toList) := fun f hf =>
    laid.framed spread inside.le _ (List.mem_map_of_mem hf)
  constructor
  case sound => exact fun x hx => (hx.of_every framed).placed.sound
  case inside => exact fun x hx => (hx.of_every framed).inside
  case functions =>
    intro f hf
    have within := laid.encloses spread inside.le _ (List.mem_map_of_mem hf)
    cases last : m.functions.getLast? with
    | none =>
      rw [List.getLast?_eq_none_iff] at last
      rw [last] at hf
      cases hf
    | some g =>
      rw [last] at span
      obtain ⟨before, all⟩ := List.getLast?_eq_some_iff.mp last
      have apart := laid.pairwise_apart spread inside.le
      rw [all, List.map_append, List.pairwise_append] at apart
      refine ⟨by rw [span]; exact within.start, ?_⟩
      rw [span]
      rw [all] at hf
      obtain earlier | same := List.mem_append.mp hf
      · have apart := apart.2.2 _ (List.mem_map_of_mem earlier) _ List.mem_cons_self
        have ordered := (framed g (by rw [all]; simp)).1.placed.ordered
        exact apart.trans ordered
      · rw [List.mem_singleton.mp same]
        exact le_rfl
  case statements => exact fun b hb => (hb.of_every framed).statements b rfl

theorem spanned_nestedSource : ∃ m, parse nestedSource = .ok m ∧ m.Spanned nestedSource := by
  obtain ⟨m, read⟩ := exists_parse_nestedSource
  exact ⟨m, read, spanned_of_parse read⟩

end Module
end WaitDefer
