import WaitDefer.Proofs.Compile.Source
import WaitDefer.Proofs.Compile.Weighed
import WaitDefer.Proofs.Grammar.Overlay
import WaitDefer.Proofs.Marking.Varied
import WaitDefer.Proofs.Report.Rules
import WaitDefer.Proofs.Report.Syntax
import WaitDefer.Proofs.Tree.Scopes

/-!
# Where everything that goes wrong is

A session marks each function after those inside it were rotated, which is nothing that marking
looks at. So whatever a session notes has its place in the text, not in code that was made up.

* `Func.marking_unit`: a unit is marked as the function it was;
* `Func.in_transform`, `Module.in_session`: what a session notes about a unit, and in all;
* `Module.points_of_compileSource`: the reports of a text point where the text was read.
-/

namespace WaitDefer

/-! ## Units keep their own code -/

/-- Nothing varies. -/
def Variation.same : Variation := ⟨fun i i' => i' = i, fun x x' => x' = x, fun x x' => x' = x⟩

/-- Two functions have one name. -/
def Func.Namesake (f f' : Func) : Prop := f'.name = f.name

theorem Variation.steady_same : same.Steady Func.Namesake :=
  ⟨fun h => h, fun h => h, fun h => h⟩

section
variable {F : Func → Func → Prop}

/-- Code that is the same but for its parts does not vary if these do not. -/
theorem Expr.Congruent.same {e e' : Expr} (h : e.Congruent (Expr.Varies .same F) F e') :
    e.Varies .same F e' := by
  have unchanged : ∀ x : Ident, x.Varies Variation.same.refers x := fun _ => ⟨rfl, rfl⟩
  cases h with
  | leaf e operands functions =>
    cases e with
    | ident name => exact .ident (unchanged name)
    | defer bindings span => exact .defer span (List.forall₂_same.mpr fun x _ => unchanged x)
    | _ => exact .parts rfl (.leaf _ operands functions)
  | unary op span operand => exact .parts rfl (.unary op span operand)
  | binary op span left right => exact .parts rfl (.binary op span left right)
  | call span callee arguments => exact .parts rfl (.call span callee arguments)
  | member property span object => exact .parts rfl (.member property span object)
  | func function => exact .parts rfl (.func function)

theorem StatementKind.Congruent.same {k k' : StatementKind}
    (h : k.Congruent (Expr.Varies .same F) (Statement.Varies .same F) (Block.Varies .same F) F k')
    (id : NodeId) (span : Span) : Statement.Varies .same F ⟨id, k, span⟩ ⟨id, k', span⟩ := by
  cases k with
  | declare name init =>
    cases h with
    | declare _ init => exact .declare span rfl ⟨rfl, rfl⟩ init
  | _ => exact .parts span rfl rfl h

end

variable {config : Config} {max : NodeId} {P : Span → Prop}

/-- A unit is marked as the function it was before those inside it were compiled. -/
theorem Func.marking_unit {f : Func} {b : Block} (h : f.body.Varies .same Func.Namesake b) :
    Func.marking config { f with body := b } = f.marking config := by
  let config' := config.calling config.runtime.newCounter
  have same : Func.marking config' { f with body := b } = f.marking config' :=
    Func.marking_varies Variation.steady_same h
  exact same

/-- Hoisting and rotating keeps a function's name. -/
theorem Func.name_of_lower {ctx : RotationContext} {f g : Func} {s s' : Supply}
    (ran : f.lower ctx s = (.ok g, s')) : g.name = f.name := by
  have rotated (h : Func) (σ : Supply) : h.rotate ctx σ =
      (ExceptT.bindCont (fun body => (pure { h with body } : Rotation Func))
        (h.body.rotate ctx none σ).1 : StateM Supply _) (h.body.rotate ctx none σ).2 := rfl
  have unfolded : f.lower ctx s =
      (f.hoist s.ids).1.1.rotate ctx { s with ids := (f.hoist s.ids).2 } := rfl
  rw [unfolded, rotated] at ran
  generalize ((f.hoist s.ids).1.1.body.rotate ctx none _) = r at ran
  obtain ⟨_ | b, σ⟩ := r
  · cases ran
  · cases ran
    rfl

/-! ## What a session notes -/

/-- An error names places, all of them among some spans. -/
structure CompileError.In (P : Span → Prop) (e : CompileError) : Prop where
  places : e.spans ≠ []
  spans : ∀ x ∈ e.spans, P x

theorem CompileError.In.rules {function : String} {vs : List Violation} (some : vs ≠ [])
    (all : ∀ v ∈ vs, v.In P) : (CompileError.rules function vs).In P := by
  refine ⟨fun nothing => ?_, fun x hx => ?_⟩
  · obtain ⟨v, hv⟩ := List.exists_mem_of_ne_nil vs some
    exact v.spans_ne_nil (List.flatMap_eq_nil_iff.mp nothing v hv)
  · obtain ⟨v, hv, hx⟩ := List.mem_flatMap.mp hx
    exact all v hv x hx

theorem CompileError.In.denied {function : String} {ws : List EmptyWait} (some : ws ≠ [])
    (all : ∀ w ∈ ws, P w.span) : (CompileError.denied function ws).In P :=
  ⟨fun nothing => some (List.map_eq_nil_iff.mp nothing), List.forall_mem_map.mpr all⟩

theorem CompileError.In.syntactic {es : List SyntaxError} (some : es ≠ [])
    (all : ∀ e ∈ es, P e.span) : (CompileError.syntactic es).In P :=
  ⟨fun nothing => some (List.map_eq_nil_iff.mp nothing), List.forall_mem_map.mpr all⟩

theorem CompileError.In.internal {function : String} {error : InternalError} (here : P error.span) :
    (CompileError.internal function error).In P :=
  ⟨List.cons_ne_nil _ _, List.forall_mem_singleton.mpr here⟩

/-- A session with its supply. Everything it has noted has its place among some spans. -/
structure Session.In (config : Config) (max : NodeId) (P : Span → Prop) (s : Session) : Prop
    extends s.Supplied config max where
  warnings : ∀ w ∈ s.warnings, P w.span
  errors : ∀ e ∈ s.errors, e.In P

namespace Session

variable {s : Session}

theorem In.fail (h : s.In config max P) {e : CompileError} (here : e.In P) :
    (s.fail e).In config max P :=
  ⟨⟨h.reserved, h.promises⟩, h.warnings,
    List.forall_mem_append.mpr ⟨h.errors, List.forall_mem_singleton.mpr here⟩⟩

theorem In.warn (h : s.In config max P) {ws : List EmptyWait} (here : ∀ w ∈ ws, P w.span) :
    (s.warn ws).In config max P :=
  ⟨⟨h.reserved, h.promises⟩, List.forall_mem_append.mpr ⟨h.warnings, here⟩, h.errors⟩

theorem In.at_depth (h : s.In config max P) (depth : Nat) :
    { s with depth }.In config max P :=
  ⟨⟨h.reserved, h.promises⟩, h.warnings, h.errors⟩

theorem In.supplied (h : s.In config max P) {supply : Supply}
    (supplied : { s with supply }.Supplied config max) : { s with supply }.In config max P :=
  ⟨supplied, h.warnings, h.errors⟩

end Session

section
variable {s : Session}

/-- One unit. What goes wrong with it is found in the function that it was. -/
theorem Func.in_transform {f : Func} {b : Block} (all : (Spot.func f).AllIn P)
    (varies : f.body.Varies .same Func.Namesake b) (fit : { f with body := b }.Fit max)
    (room : max < NodeId.last) (h : s.In config max P) :
    (Func.transform config max { f with body := b } s).2.In config max P ∧
      f.Namesake (Func.transform config max { f with body := b } s).1 := by
  have marked := Func.marking_in config all
  rw [← Func.marking_unit varies] at marked
  unfold transform
  split
  · rename_i violations failed
    rw [failed] at marked
    exact ⟨h.fail (.rules (Func.marking_error_ne_nil failed) marked), rfl⟩
  · rename_i marking ok
    rw [ok] at marked
    have warned : Session.In config max P
        (if config.severity EmptyWait.name EmptyWait.severity = .warn then s.warn marking.warnings
          else s) := by
      split
      · exact h.warn marked
      · exact h
    dsimp only
    split
    · rename_i refused
      rw [Bool.and_eq_true, Bool.not_eq_true', List.isEmpty_eq_false_iff] at refused
      exact ⟨warned.fail (.denied refused.2 marked), rfl⟩
    · split
      · obtain ⟨r, s', run, reserved, promises, -, ⟨g, rfl, -⟩ | ⟨-, rfl⟩⟩ :=
          lowerChecked_error fit ok room warned.reserved warned.promises
        · rw [run]
          have named := name_of_lower (lowerChecked_eq_ok run).1
          exact ⟨warned.supplied ⟨reserved, promises⟩, named⟩
        · rw [run]
          exact ⟨(warned.supplied ⟨reserved, promises⟩).fail (.internal all.1), rfl⟩
      · exact ⟨warned, rfl⟩

/-- Functions after the functions inside them. -/
theorem in_units (room : max < NodeId.last) :
    let T := Triples.keeping (Session.In config max P)
    let r := Rewriting.transformUnits config max
    Cases
      (fun e => AllFit max (e.nodes fun _ => true) → (Spot.expr e).AllIn P →
        T.Of (e.rewrite r) fun _ => e.Varies .same Func.Namesake)
      (fun f => AllFit max f.allNodes → (Spot.func f).AllIn P →
        T.Of (f.rewrite r) fun _ => f.Namesake)
      (fun b => AllFit max (b.nodes fun _ => true) → (Spot.block b).AllIn P →
        T.Of (b.rewrite r) fun _ => b.Varies .same Func.Namesake)
      fun s => AllFit max (s.nodes fun _ => true) → (Spot.statement s).AllIn P →
        T.Of (s.rewrite r) fun _ => s.Varies .same Func.Namesake where
  expr e operands functions := by
    intro fit all
    refine Triples.weaken _ (Expr.congruent_rewrite _ (fun _ => rfl)
      (fun o ho => operands o ho ?_ ?_) fun f hf => functions f hf ?_ ?_)
      fun _ _ congruent => congruent.same
    · exact fit.mono fun n hn => Expr.mem_nodes_of_operand ho hn
    · exact all.within (Expr.within_operand ho)
    · exact fit.mono fun n hn => Expr.mem_nodes_of_function hf hn
    · exact all.within (Expr.within_function hf)
  func f body := by
    intro fit all s h
    have inBody := body (fit.mono fun n hn => f.mem_allNodes_of_body hn)
      (all.within (.of_inside (List.mem_append_right _ List.mem_cons_self)))
    rw [Func.rewrite_transformUnits]
    split
    · have here : (⟨.nestingTooDeep config.maxDepth, f.span⟩ : Violation).In P :=
        List.forall_mem_singleton.mpr all.1
      exact ⟨h.fail (.rules (List.cons_ne_nil _ _) (List.forall_mem_singleton.mpr here)), rfl⟩
    · -- inside, the session is one deeper
      have deeper := h.at_depth (s.depth + 1)
      obtain ⟨after, varies⟩ := inBody _ deeper
      obtain ⟨unitFit, -⟩ := Func.fit_unit room fit deeper.toSupplied
      exact Func.in_transform all varies unitFit room (after.at_depth s.depth)
  block b statements := by
    intro fit all
    obtain ⟨id, ss, span⟩ := b
    refine Triples.bind _ (Statement.alike_listRewrite _ fun s hs => statements s hs ?_ ?_)
      fun ss' => Triples.pure _ fun _ same => .block span rfl same
    · exact fit.mono fun n hn => Block.mem_nodes_of_statement hs hn
    · exact all.within (.of_inside (List.mem_map_of_mem hs))
  statement s exprs headers blocks functions := by
    intro fit all
    obtain ⟨id, kind, span⟩ := s
    refine Triples.bind _ (StatementKind.congruent_rewrite _ (fun e he => exprs e he ?_ ?_)
      (fun h hh => headers h hh ?_ ?_) (fun b hb => blocks b hb ?_ ?_)
      fun f hf => functions f hf ?_ ?_)
      fun k' => Triples.pure _ fun _ congruent => congruent.same id span
    · exact fit.mono fun n hn => Statement.mem_nodes_of_expr he hn
    · exact all.within (Statement.within_expr he)
    · exact fit.mono fun n hn => Statement.mem_nodes_of_header hh hn
    · exact all.within (Statement.within_header hh)
    · exact fit.mono fun n hn => Statement.mem_nodes_of_block hb hn
    · exact all.within (Statement.within_block hb)
    · exact fit.mono fun n hn => Statement.mem_nodes_of_function hf hn
    · exact all.within (Statement.within_function hf)

end

namespace Module

variable {m : Module}

variable (config) in
/-- What a session over a module notes has its place in the module. -/
theorem in_session (room : m.lastId < NodeId.last) (fit : AllFit m.lastId m.allNodes)
    (all : ∀ f ∈ m.functions, (Spot.func f).AllIn P) :
    (m.session config).In config m.lastId P := by
  have functions : ∀ fs : List Func, (∀ f ∈ fs, AllFit m.lastId f.allNodes) →
      (∀ f ∈ fs, (Spot.func f).AllIn P) → (Triples.keeping (Session.In config m.lastId P)).Of
        (fs.mapM (Func.rewrite (.transformUnits config m.lastId))) fun _ _ => True := by
    intro fs fits alls
    induction fs with
    | nil => exact Triples.pure _ fun _ => trivial
    | cons f fs ih =>
      obtain ⟨fit, fits⟩ := List.forall_mem_cons.mp fits
      obtain ⟨all, alls⟩ := List.forall_mem_cons.mp alls
      rw [List.mapM_cons]
      refine Triples.bind _ (Func.whole (in_units room) f fit all) fun f' =>
        Triples.bind _ (ih fits alls) fun fs' => ?_
      exact Triples.pure _ fun _ _ _ => trivial
  have start : (Session.new config m.lastId).In config m.lastId P :=
    ⟨Session.supplied_new, nofun, nofun⟩
  refine (functions m.functions (fun f hf => ?_) all _ start).1
  exact fit.mono fun n hn => List.mem_flatMap.mpr ⟨f, hf, hn⟩

/-- What comes of a module has its place in the module, be it errors or warnings. -/
theorem in_compile (room : m.lastId < NodeId.last) (fit : AllFit m.lastId m.allNodes)
    (all : ∀ f ∈ m.functions, (Spot.func f).AllIn P) :
    match m.compile config with
    | .ok (_, ws) => ∀ w ∈ ws, P w.span
    | .error es => es ≠ [] ∧ ∀ e ∈ es, e.In P := by
  have inside := in_session config room fit all
  have finished : m.compile config = (m.session config).finish
      (m.rewrite (.transformUnits config m.lastId) (.new config m.lastId)).1 := rfl
  rw [finished, Session.finish]
  cases none : (m.session config).errors.isEmpty with
  | true => exact inside.warnings
  | false => exact ⟨List.isEmpty_eq_false_iff.mp none, inside.errors⟩

variable {source : String}

/-- In a text that is not longer than there are ids, ids are left. -/
theorem lastId_lt_of_parse (short : source.utf8ByteSize < 2 ^ 32) (h : parse source = .ok m) :
    m.lastId < NodeId.last := by
  obtain ⟨ts, j, n, -, few, le, inside, laid, -⟩ := laid_of_parse h
  have room : n ≤ NodeId.last + 1 := show n ≤ 2 ^ 32 by omega
  rw [lastId, maxId?_of_perm (ids_perm_of_laid room laid)]
  split
  · decide
  · exact show n - 1 < 2 ^ 32 - 1 by omega

/-- The functions of a text, and everything inside, begin where they say. -/
theorem opens_of_parse (h : parse source = .ok m) :
    ∀ f ∈ m.functions, (Spot.func f).AllIn (Span.Opens source.toList) := by
  obtain ⟨ts, j, n, spread, -, -, inside, laid, -⟩ := laid_of_parse h
  intro f hf
  have framed := laid.framed spread inside.le _ (List.mem_map_of_mem hf)
  exact framed.mono fun x framed => framed.placed.opens

/-- **Reports point where the text was read.** Whatever goes wrong with a text, and whatever there
is to warn of, is reported: the labels are made from just the places that it names, and in JSON all
are there, each in the line and the column that were counted when its span was read. -/
theorem points_of_compileSource (config : Config) (source name : String)
    (short : source.utf8ByteSize < 2 ^ 32) :
    match compileSource config source with
    | .ok (_, ws) => ∀ w ∈ ws, w.ReportedIn ⟨name, source⟩
    | .error es => es ≠ [] ∧ ∀ e ∈ es, e.ReportedIn ⟨name, source⟩ := by
  have drawn : match compileSource config source with
      | .ok (_, ws) => ∀ w ∈ ws, w.span.Opens source.toList
      | .error es => es ≠ [] ∧ ∀ e ∈ es, e.In (Span.Opens source.toList) := by
    unfold compileSource
    cases read : parse source with
    | error errors =>
      refine ⟨List.cons_ne_nil _ _, List.forall_mem_singleton.mpr ?_⟩
      exact .syntactic (parse_error_ne_nil read) (opens_of_parse_error read)
    | ok m =>
      have room := lastId_lt_of_parse short read
      exact in_compile room (allFit_of_parse read room) (opens_of_parse read)
  cases result : compileSource config source with
  | ok out =>
    rw [result] at drawn
    exact fun w hw => EmptyWait.reportedIn (drawn w hw)
  | error es =>
    rw [result] at drawn
    exact ⟨drawn.1, fun e he => CompileError.reportedIn (drawn.2 e he).places (drawn.2 e he).spans⟩

/-- A jump out of a wait-block, after a comment over two lines. -/
def leavingWait : String :=
  "/* é\n */ function f() \x7b while (a) \x7b wait \x7b break; \x7d \x7d \x7d"

theorem points_of_compileSource_leavingWait : leavingWait.utf8ByteSize < 2 ^ 32 ∧
    ∃ es, compileSource {} leavingWait = .error es ∧
      es.map (fun e => (e.codes, e.spans.map fun s => (s.line, s.column))) =
        [(["E1005"], [(2, 39), (2, 32)])] ∧
      ∀ e ∈ es, e.ReportedIn ⟨"é.strand", leavingWait⟩ := by
  have short : leavingWait.utf8ByteSize < 2 ^ 32 := by decide +kernel
  have points := points_of_compileSource {} leavingWait "é.strand" short
  have found : (match compileSource {} leavingWait with
      | .ok _ => []
      | .error es => es.map fun e => (e.codes, e.spans.map fun s => (s.line, s.column))) =
        [(["E1005"], [(2, 39), (2, 32)])] := by decide +kernel
  cases result : compileSource {} leavingWait with
  | ok out =>
    rw [result] at found
    cases found
  | error es =>
    rw [result] at found points
    exact ⟨short, es, rfl, found, points.2⟩

end Module
end WaitDefer
