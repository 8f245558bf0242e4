import WaitDefer.Proofs.Grammar.Giving
import WaitDefer.Proofs.Grammar.Ids
import WaitDefer.Proofs.Grammar.Layers
import WaitDefer.Proofs.Grammar.RoundTrip
import WaitDefer.Proofs.Tree.Heights

/-!
# How high a tree is that was read

Nesting is limited, so a tree that was read is bounded in height, if what stands in front of an
operator, a call or a dot is left out. With it, it is not: the loops of the grammar put one
operation in front of the next without going a level deeper.

* `Deeper.low_levels`: how much higher a tree may be for one more level of nesting;
* `Module.within_of_parse`: the bound on all chains of a module;
* `Module.exists_chain`, `Module.not_bounded`: chains of any length.
-/

namespace WaitDefer

/-- The parsers for what lies deeper read trees that are bounded in height. With expressions two
nodes higher than statements, one more level of nesting adds the same to both. -/
structure Deeper.Low (d : Deeper) (bound : Nat) : Prop where
  expression : Parser.Gives d.expression fun e => (Node.expr e).Within (bound + 2)
  unary : Parser.Gives d.unary fun e => (Node.expr e).Within (bound + 2)
  statement : Parser.Gives d.statement fun s => (Node.statement s).Within bound

/-! ## Nodes and their parts -/

section
variable {bound : Nat}

theorem Block.within {b : Block} (h : ∀ s ∈ b.statements, (Node.statement s).Within bound) :
    (Node.block b).Within (bound + 1) :=
  .of_others rfl fun m hm => by
    obtain ⟨s, hs, rfl⟩ := List.mem_map.mp hm
    exact h s hs

theorem Func.within {f : Func} (h : (Node.block f.body).Within bound) :
    (Node.func f).Within (bound + 1) :=
  .of_others rfl fun m hm => by
    cases List.mem_singleton.mp hm
    exact h

/-- An expression that holds no other. -/
theorem Expr.within_leaf {e : Expr} (h : (Node.expr e).inside = []) :
    (Node.expr e).Within (bound + 1) := by
  refine .of_parts (fun m first => ?_) fun m hm => ?_
  · have inside : m ∈ (Node.expr e).inside := by
      rw [Node.inside_eq, List.mem_append, Option.mem_toList]
      exact .inl first
    simp [h] at inside
  · simp [Node.others, h] at hm

theorem Statement.within_iff {s : Statement} : (Node.statement s).Within (bound + 1) ↔
    (∀ e ∈ s.kind.tests ++ s.kind.operands, (Node.expr e).Within bound) ∧
      (∀ h ∈ s.kind.headers, (Node.statement h).Within bound) ∧
        (∀ b ∈ s.kind.blocks, (Node.block b).Within bound) ∧
          ∀ f ∈ s.kind.functions, (Node.func f).Within bound := by
  rw [Node.within_iff_of_others rfl]
  simp only [Node.others, Node.inside, Node.front?, Option.toList_none, List.length_nil,
    List.drop_zero, List.forall_mem_append, List.forall_mem_map, and_assoc]

theorem Statement.within {s : Statement}
    (exprs : ∀ e ∈ s.kind.tests ++ s.kind.operands, (Node.expr e).Within bound)
    (headers : ∀ h ∈ s.kind.headers, (Node.statement h).Within bound)
    (blocks : ∀ b ∈ s.kind.blocks, (Node.block b).Within bound)
    (functions : ∀ f ∈ s.kind.functions, (Node.func f).Within bound) :
    (Node.statement s).Within (bound + 1) :=
  within_iff.mpr ⟨exprs, headers, blocks, functions⟩

/-- A bound on the parts of an arm. -/
structure Arm.Within (a : Arm) (bound : Nat) : Prop where
  test : (Node.expr a.test).Within bound
  body : (Node.block a.body).Within bound

/-- A statement in which there are only expressions. -/
theorem Statement.within_of_exprs {s : Statement} (headers : s.kind.headers = [])
    (blocks : s.kind.blocks = []) (functions : s.kind.functions = [])
    (exprs : ∀ e ∈ s.kind.tests ++ s.kind.operands, (Node.expr e).Within bound) :
    (Node.statement s).Within (bound + 1) :=
  within exprs (by simp [headers]) (by simp [blocks]) (by simp [functions])

/-- A statement in which there are only blocks. -/
theorem Statement.within_of_blocks {s : Statement} (exprs : s.kind.tests ++ s.kind.operands = [])
    (headers : s.kind.headers = []) (functions : s.kind.functions = [])
    (blocks : ∀ b ∈ s.kind.blocks, (Node.block b).Within bound) :
    (Node.statement s).Within (bound + 1) :=
  within (by simp [exprs]) (by simp [headers]) blocks (by simp [functions])

end

namespace Parser

section
variable {d : Deeper} {bound : Nat} (low : d.Low bound)
include low

theorem within_statements (ends : List Token) (n : Nat) {done : List Statement}
    (h : ∀ s ∈ done, (Node.statement s).Within bound) :
    Gives (statements d ends n done) fun ss => ∀ s ∈ ss, (Node.statement s).Within bound := by
  have ended : ∀ {done : List Statement}, (∀ s ∈ done, (Node.statement s).Within bound) →
      Gives (pure done.reverse) fun ss => ∀ s ∈ ss, (Node.statement s).Within bound :=
    fun h => .done (by simpa using h)
  induction n generalizing done with
  | zero =>
    unfold statements
    refine .after fun stop => ?_
    split
    · exact ended h
    · exact .after fun span => .throw
  | succ n ih =>
    unfold statements
    refine .after fun stop => ?_
    split
    · exact ended h
    · refine .after fun start => low.statement.attempt.bind fun r hr => ?_
      cases r with
      | ok s => exact ih (List.forall_mem_cons.mpr ⟨hr s rfl, h⟩)
      | error e =>
        refine .after fun _ => .after fun _ => .after fun pos => ?_
        dsimp only
        split
        · exact .after fun _ => ih h
        · exact ih h

theorem within_block : Gives (block d) fun b => (Node.block b).Within (bound + 1) := by
  refine .after fun start => .after fun _ => .after fun id => ?_
  refine (within_statements low _ _ (List.forall_mem_nil _)).bind fun ss hss => ?_
  exact .after fun _ => .after fun span => .done (Block.within hss)

theorem within_function (named : Bool) :
    Gives (function d named) fun f => (Node.func f).Within (bound + 2) := by
  refine .after fun start => .after fun _ => .after fun id => .after fun name => ?_
  have rest : Gives (do
      let _ ← expect (.sym .leftParen)
      let params ← untilParen ident
      let body ← block d
      return (⟨id, name, params, body, start.through body.span⟩ : Func))
      fun f => (Node.func f).Within (bound + 2) :=
    .after fun _ => .after fun params => (within_block low).bind fun body hbody =>
      .done (Func.within hbody)
  dsimp only
  split
  · exact .after fun _ => rest
  · exact rest

theorem within_primary : Gives (primary d) fun e => (Node.expr e).Within (bound + 3) := by
  refine .after fun start => .after fun token => ?_
  split
  · exact .after fun _ => .done (Expr.within_leaf rfl)
  · exact .after fun _ => .done (Expr.within_leaf rfl)
  · exact .after fun _ => .done (Expr.within_leaf rfl)
  · exact .after fun _ => .done (Expr.within_leaf rfl)
  · exact .after fun _ => .done (Expr.within_leaf rfl)
  · exact .after fun _ => .done (Expr.within_leaf rfl)
  · refine .after fun _ => low.expression.bind fun e he => .after fun _ => .done ?_
    exact he.mono (by omega)
  · refine (within_function low false).bind fun f hf => .done (.of_others rfl fun m hm => ?_)
    cases List.mem_singleton.mp hm
    exact hf
  · exact .after fun _ => .after fun _ => .after fun bindings => .after fun span =>
      .done (Expr.within_leaf rfl)
  · exact .unexpected _

theorem within_suffixes (n : Nat) {e : Expr} (he : (Node.expr e).Within (bound + 3)) :
    Gives (suffixes d n e) fun e => (Node.expr e).Within (bound + 3) := by
  induction n generalizing e with
  | zero => exact .done he
  | succ n ih =>
    unfold suffixes
    refine .after fun token => ?_
    split
    · refine .after fun _ => low.expression.untilParen.bind fun arguments hargs => ?_
      refine .after fun span => ih (.of_parts (fun m first => ?_) fun m hm => ?_)
      · cases first
        exact he
      · obtain ⟨a, ha, rfl⟩ : ∃ a ∈ arguments, Node.expr a = m := by
          simpa [Node.others, Node.inside, Node.front?, Expr.front?, Expr.operands, Expr.functions]
            using hm
        exact hargs a ha
    · refine .after fun _ => .after fun property => ?_
      refine ih (.of_parts (fun m first => ?_) fun m hm => ?_)
      · cases first
        exact he
      · cases hm
    · exact .done he

theorem within_unary : Gives (unary d) fun e => (Node.expr e).Within (bound + 3) := by
  refine .after fun start => .after fun token => ?_
  split
  · refine .after fun _ => (low.unary.nested _).bind fun e he => ?_
    refine .done (.of_others rfl fun m hm => ?_)
    cases List.mem_singleton.mp hm
    exact he
  · exact (within_primary low).bind fun e he => .after fun n => within_suffixes low n he

omit low in
/-- Each operator puts all operands before it in front of itself, so a chain of them grows in its
fronts only. -/
theorem within_operators {right : Precedence → Parser Expr}
    (hright : ∀ place, Gives (right place) fun e => (Node.expr e).Within bound) (least : Precedence)
    (n : Nat) {left : Expr} (hleft : (Node.expr left).Within (bound + 1)) :
    Gives (operators right least n left) fun e => (Node.expr e).Within (bound + 1) := by
  induction n generalizing left with
  | zero => exact .done hleft
  | succ n ih =>
    unfold operators
    refine .after fun token => ?_
    split
    · refine .after fun _ => (hright _).bind fun operand hop => ?_
      refine ih (.of_parts (fun m first => ?_) ?_)
      · cases first
        exact hleft
      · intro m hm
        cases List.mem_singleton.mp hm
        exact hop
    · exact .done hleft

/-- Each level that is climbed nests one operation in another. -/
theorem within_climb (levels : Nat) (least : Precedence) :
    Gives (climb d levels least) fun e => (Node.expr e).Within (bound + 3 + levels) := by
  induction levels generalizing least with
  | zero => exact within_unary low
  | succ levels ih =>
    refine (within_unary low).bind fun left hleft => .after fun n => ?_
    exact within_operators ih least n (hleft.mono (by omega))

/-! ## Statements -/

theorem within_simple (declarations : Bool) :
    Gives (simple d declarations) fun s => (Node.statement s).Within (bound + 3) := by
  refine .after fun start => .after fun isLet => ?_
  split
  · refine .unless fun _ => .after fun _ => .after fun id => .after fun name => ?_
    refine .after fun equal => ?_
    have declared : ∀ init, (∀ e ∈ init, (Node.expr e).Within (bound + 2)) → Gives (do
        let span ← look (·.spanFrom start)
        return (⟨id, .declare name init, span⟩ : Statement))
        fun s => (Node.statement s).Within (bound + 3) := by
      refine fun init hinit => .after fun span => .done (Statement.within_of_exprs rfl rfl rfl ?_)
      simpa [StatementKind.tests, StatementKind.operands] using hinit
    dsimp only
    split
    · exact (low.expression.map fun _ he _ hx => Option.some.inj hx ▸ he).bind declared
    · exact Gives.bind (.done (by simp)) declared
  · refine .after fun id => low.expression.bind fun target htarget => .after fun equal => ?_
    split
    · refine .unless fun _ => low.expression.bind fun value hvalue => .after fun span => .done ?_
      refine Statement.within_of_exprs rfl rfl rfl ?_
      simp [StatementKind.tests, StatementKind.operands, htarget, hvalue]
    · refine .after fun span => .done (Statement.within_of_exprs rfl rfl rfl ?_)
      simp [StatementKind.tests, StatementKind.operands, htarget]

theorem within_condition : Gives (condition d) fun e => (Node.expr e).Within (bound + 2) :=
  .after fun _ => low.expression.bind fun _ he => .after fun _ => .done he

theorem within_branch : Gives (branch d) fun s => (Node.statement s).Within (bound + 3) := by
  refine .after fun start => .after fun _ => .after fun id => ?_
  refine (within_condition low).bind fun test htest => (within_block low).bind fun yes hyes => ?_
  have chosen : ∀ no, (∀ b ∈ no, (Node.block b).Within (bound + 1)) → Gives (do
      let span ← look (·.spanFrom start)
      return (⟨id, .branch test yes no, span⟩ : Statement))
      fun s => (Node.statement s).Within (bound + 3) := by
    refine fun no hno => .after fun span => .done ?_
    refine Statement.within ?_ (List.forall_mem_nil _) ?_ (List.forall_mem_nil _)
    · simpa [StatementKind.tests, StatementKind.operands] using htest
    · have blocks : ∀ b ∈ yes :: no.toList, (Node.block b).Within (bound + 1) := by
        simpa using ⟨hyes, hno⟩
      exact fun b hb => (blocks b hb).mono (by omega)
  refine .after fun more => ?_
  dsimp only
  split
  · refine .after fun again => ?_
    split
    · refine .after fun blockId => low.statement.bind fun s hs => ?_
      refine Gives.bind (.done fun b hb => ?_) chosen
      exact Option.some.inj hb ▸ Block.within (by simpa using hs)
    · exact ((within_block low).map fun b hb x hx => Option.some.inj hx ▸ hb).bind chosen
  · exact Gives.bind (.done (by simp)) chosen

theorem within_arms (n : Nat) {done : List Arm} {otherwise : Option Block}
    (hdone : ∀ a ∈ done, a.Within (bound + 2))
    (hother : ∀ b ∈ otherwise, (Node.block b).Within (bound + 1)) :
    Gives (arms d n done otherwise) fun r => (∀ a ∈ r.1, a.Within (bound + 2)) ∧
      ∀ b ∈ r.2, (Node.block b).Within (bound + 1) := by
  induction n generalizing done otherwise with
  | zero =>
    unfold arms
    refine .after fun stop => ?_
    split
    · exact .done ⟨by simpa using hdone, hother⟩
    · exact .after fun span => .throw
  | succ n ih =>
    unfold arms
    refine .after fun stop => ?_
    split
    · exact .done ⟨by simpa using hdone, hother⟩
    refine .after fun start => .after fun isCase => ?_
    split
    · refine low.expression.bind fun test htest => .after fun _ => .after fun blockId => ?_
      refine (within_statements low _ _ (List.forall_mem_nil _)).bind fun ss hss => ?_
      have arm : ∀ span, Arm.Within ⟨test, ⟨blockId, ss, span⟩, span⟩ (bound + 2) :=
        fun span => ⟨htest, (Block.within hss).mono (by omega)⟩
      exact .after fun span => ih (List.forall_mem_cons.mpr ⟨arm span, hdone⟩) hother
    refine .after fun isDefault => ?_
    split
    · refine .after fun _ => .after fun blockId => ?_
      refine (within_statements low _ _ (List.forall_mem_nil _)).bind fun ss hss => ?_
      refine .unless fun _ => .after fun span => ih hdone fun b hb => ?_
      cases hb
      exact Block.within hss
    · exact .unexpected _

theorem within_switch : Gives (switch d) fun s => (Node.statement s).Within (bound + 3) := by
  refine .after fun start => .after fun _ => .after fun id => ?_
  refine (within_condition low).bind fun subject hsubject => .after fun _ => ?_
  refine (within_arms low _ (List.forall_mem_nil _) (by simp)).bind fun r hr => ?_
  obtain ⟨harms, hother⟩ := hr
  refine .after fun _ => .after fun span => .done ?_
  refine Statement.within ?_ (List.forall_mem_nil _) ?_ (List.forall_mem_nil _)
  · have tests : ∀ e ∈ subject :: r.1.map Arm.test, (Node.expr e).Within (bound + 2) :=
      List.forall_mem_cons.mpr ⟨hsubject, List.forall_mem_map.mpr fun a ha => (harms a ha).test⟩
    simpa [StatementKind.tests, StatementKind.operands] using tests
  · have others : ∀ b ∈ r.2.toList, (Node.block b).Within (bound + 2) := fun b hb =>
      (hother b (Option.mem_toList.mp hb)).mono (by omega)
    exact List.forall_mem_append.mpr
      ⟨List.forall_mem_map.mpr fun a ha => (harms a ha).body, others⟩

/-- A declaration, an assignment or an expression may stand in the head of a loop. -/
theorem within_headAndBody (first : Token) : Gives (headAndBody d first) fun r =>
    (∀ e ∈ r.1.test?, (Node.expr e).Within (bound + 2)) ∧
      (∀ s ∈ r.1.statements, (Node.statement s).Within (bound + 3)) ∧
        (Node.block r.2).Within (bound + 1) := by
  unfold headAndBody
  split
  · refine (within_condition low).bind fun test htest => ?_
    refine (within_block low).bind fun body hbody => ?_
    exact .done ⟨by simpa [LoopHead.test?] using htest, List.forall_mem_nil _, hbody⟩
  · refine (within_block low).bind fun body hbody => .after fun _ => ?_
    refine (within_condition low).bind fun test htest => .after fun _ => ?_
    exact .done ⟨by simpa [LoopHead.test?] using htest, List.forall_mem_nil _, hbody⟩
  · refine .after fun _ => ((within_simple low true).unlessAt _).bind fun init hinit => ?_
    refine .after fun _ => (low.expression.unlessAt _).bind fun test htest => ?_
    refine .after fun _ => ((within_simple low false).unlessAt _).bind fun update hupdate => ?_
    refine .after fun _ => ?_
    refine (within_block low).bind fun body hbody => .done ⟨htest, ?_, hbody⟩
    exact List.forall_mem_append.mpr ⟨by simpa using hinit, by simpa using hupdate⟩

theorem within_loop (label : Option Ident) (start : Span) :
    Gives (loop d label start) fun s => (Node.statement s).Within (bound + 4) := by
  refine .after fun first => .after fun id => (within_headAndBody low first).bind fun r hr => ?_
  obtain ⟨htest, hheaders, hbody⟩ := hr
  refine .after fun span => .done ?_
  refine Statement.within (fun e he => ?_) hheaders (fun b hb => ?_) (List.forall_mem_nil _)
  · have test : e ∈ r.1.test? := by simpa [StatementKind.tests, StatementKind.operands] using he
    exact (htest e test).mono (by omega)
  · cases List.mem_singleton.mp hb
    exact hbody.mono (by omega)

omit low in
theorem within_jump (kind : JumpKind) :
    Gives (jump kind) fun s => (Node.statement s).Within (bound + 4) :=
  .after fun _ => .after fun _ => .after fun _ => .after fun _ => .after fun _ => .after fun _ =>
    .done (Statement.within_of_exprs rfl rfl rfl (List.forall_mem_nil _))

theorem within_labelled : Gives (labelled d) fun s => (Node.statement s).Within (bound + 4) := by
  refine .after fun start => .after fun label => .after fun _ => .after fun token => ?_
  split
  · exact within_loop low (some label) start
  · exact .throw

theorem within_simpleLine :
    Gives (simpleLine d) fun s => (Node.statement s).Within (bound + 4) := by
  refine .after fun start => (within_simple low true).bind fun s hs => .after fun _ => ?_
  refine .after fun span => .done (Statement.within_iff.mpr ?_)
  exact (Statement.within_iff (s := s)).mp (hs.mono (by omega))

theorem within_statement : Gives (statement d) fun s => (Node.statement s).Within (bound + 4) := by
  refine .after fun start => .after fun token => ?_
  split
  · refine .after fun id => (within_function low true).bind fun f hf => .done ?_
    refine Statement.within (List.forall_mem_nil _) (List.forall_mem_nil _)
      (List.forall_mem_nil _) fun g hg => ?_
    cases List.mem_singleton.mp hg
    exact hf.mono (by omega)
  · exact (within_branch low).weaken fun s hs => hs.mono (by omega)
  · exact (within_switch low).weaken fun s hs => hs.mono (by omega)
  · exact within_loop low none start
  · exact within_loop low none start
  · exact within_loop low none start
  · refine .after fun next => ?_
    split
    · exact within_labelled low
    · exact within_simpleLine low
  · exact within_jump .leave
  · exact within_jump .resume
  · refine .after fun _ => .after fun id => (low.expression.unlessAt _).bind fun value hvalue => ?_
    refine .after fun _ => .after fun span => .done ?_
    refine Statement.within_of_exprs rfl rfl rfl fun e he => ?_
    have inside : e ∈ value := by simpa [StatementKind.tests, StatementKind.operands] using he
    exact (hvalue e inside).mono (by omega)
  · refine .after fun _ => .after fun id => (within_block low).bind fun body hbody => ?_
    refine .after fun span => .done (Statement.within_of_blocks rfl rfl rfl fun b hb => ?_)
    cases List.mem_singleton.mp hb
    exact hbody.mono (by omega)
  · refine .after fun id => (within_block low).bind fun body hbody => .done ?_
    refine Statement.within_of_blocks rfl rfl rfl fun b hb => ?_
    cases List.mem_singleton.mp hb
    exact hbody.mono (by omega)
  · exact within_simpleLine low

end
end Parser

/-! ## The whole grammar -/

/-- Each level of nesting adds at most seven nodes to a chain: most of all for an operand behind an
operator of each of the six levels of binding. -/
theorem Deeper.low_levels (n : Nat) : (levels n).Low (7 * n) := by
  induction n with
  | zero => exact ⟨.noRoom _, .noRoom _, .noRoom _⟩
  | succ n ih =>
    -- the loosest operators are read first: of the seven levels, six are left to climb
    have climbs : Parser.binary (levels n) = Parser.climb (levels n) 6 .logicalOr :=
      Parser.climb_of_enough _ (by decide) (by decide)
    refine ⟨?_, ?_, ?_⟩
    · change Parser.Gives (Parser.nested _ (Parser.binary (levels n))) _
      rw [climbs]
      exact (Parser.within_climb ih 6 _).nested _
    · exact (Parser.within_unary ih).weaken fun e he => he.mono (by omega)
    · exact ((Parser.within_statement ih).nested _).weaken fun s hs => hs.mono (by omega)

theorem Parser.within_functions (n : Nat) {done : List Func}
    (h : ∀ f ∈ done, (Node.func f).Within (7 * Limit.nesting + 2)) :
    Gives (functions n done) fun fs => ∀ f ∈ fs, (Node.func f).Within (7 * Limit.nesting + 2) := by
  induction n generalizing done with
  | zero => exact .done (by simpa using h)
  | succ n ih =>
    unfold functions
    refine .after fun ended => ?_
    split
    · exact .done (by simpa using h)
    have one := within_function (Deeper.low_levels Limit.nesting) true
    refine one.attempt.bind fun r hr => ?_
    cases r with
    | ok f => exact ih (List.forall_mem_cons.mpr ⟨hr f rfl, h⟩)
    | error e => exact .after fun _ => .after fun _ => ih h

/-! ## Sums of any length -/

/-- A name and `n` more, all added up. -/
def Expr.sum : Nat → Expr
  | 0 => .ident ⟨"a", default⟩
  | n + 1 => .binary .add (sum n) (.ident ⟨"a", default⟩) default

/-- A module with such a sum as its only statement. -/
def Module.summing (n : Nat) : Module :=
  ⟨[⟨0, some ⟨"f", default⟩, [], ⟨0, [⟨0, .expr (.sum n), default⟩], default⟩, default⟩], default⟩

namespace Expr

theorem room_sum (n : Nat) : (sum n).room = 0 := by
  induction n with
  | zero => rfl
  | succ n ih =>
    have ungrouped : (sum n).isLooserThan .additive = false := by cases n <;> rfl
    rw [sum, room, ih, BinaryOp.precedence, ungrouped]
    rfl

/-- A sum begins with a name. -/
theorem opensWithFunction_sum (n : Nat) : (sum n).opensWithFunction = false := by
  induction n with
  | zero => rfl
  | succ n ih => rw [sum, opensWithFunction, ih, Bool.and_false]

theorem isPrintable_sum (n : Nat) : (sum n).Every (·.isPrintable) := by
  have name : (Expr.ident ⟨"a", default⟩).Every (·.isPrintable) := by
    simp only [Every, nodes]
    decide
  induction n with
  | zero => exact name
  | succ n ih =>
    have operands : ∀ o ∈ [sum n, .ident ⟨"a", default⟩], o.Every (·.isPrintable) := by
      simpa using ⟨ih, name⟩
    exact every_iff.mpr ⟨rfl, operands, List.forall_mem_nil _, List.forall_mem_nil _⟩

theorem front?_shape (e : Expr) : e.shape.front? = e.front?.map shape := by
  cases e <;> rw [shape] <;> rfl

/-- Each operator of a sum stands in front of the next. -/
theorem chain_sum {n : Nat} {e : Expr} (same : e.shape = (sum n).shape) :
    (Node.expr e).Chain (n + 1) n := by
  induction n generalizing e with
  | zero => exact .last _
  | succ n ih =>
    have first := e.front?_shape
    rw [same, sum, shape] at first
    obtain ⟨left, front, same'⟩ := Option.map_eq_some_iff.mp first.symm
    exact .front (by rw [Node.front?, front]; rfl) (ih same')

end Expr

theorem Func.isPrintable_summing (n : Nat) :
    ∀ f ∈ (Module.summing n).functions, f.Every (·.isPrintable) := by
  intro f hf
  cases List.mem_singleton.mp hf
  refine Func.every_iff.mpr ⟨rfl, ?_, List.forall_mem_nil _, Block.every_iff.mpr ⟨?_, ?_⟩⟩
  · rintro _ ⟨⟩
    decide
  · simp [Node.isPrintable, Block.isPrintable, Limit.rounds, StatementKind.opensWithFunction,
      Expr.opensWithFunction_sum]
  · intro s hs
    cases List.mem_singleton.mp hs
    have operands : ∀ o ∈ [Expr.sum n], o.Every (·.isPrintable) := by
      simpa using Expr.isPrintable_sum n
    exact Statement.every_iff.mpr ⟨rfl, List.forall_mem_nil _, List.forall_mem_nil _, operands,
      List.forall_mem_nil _, List.forall_mem_nil _, List.forall_mem_nil _⟩

theorem Func.room_summing (n : Nat) : ∀ f ∈ (Module.summing n).functions, f.room = 2 := by
  intro f hf
  cases List.mem_singleton.mp hf
  simp [room, Block.room, Statement.listRoom, Statement.room, StatementKind.room, Expr.room_sum]

theorem StatementKind.of_shape_expr {kind : StatementKind} {e : Expr} (h : kind.shape = .expr e) :
    ∃ e', kind = .expr e' ∧ e'.shape = e := by
  unfold shape at h
  split at h <;> cases h
  exact ⟨_, rfl, rfl⟩

/-- Whatever has the shape of a sum as its only statement has a chain down the operators. -/
theorem Func.chain_summing {n : Nat} {m : Module} (same : m.shape = (Module.summing n).shape) :
    ∃ f ∈ m.functions, (Node.func f).Chain (n + 4) n := by
  have shapes : m.functions.map shape = (Module.summing n).functions.map shape :=
    congrArg Module.functions same
  obtain ⟨f, only, shape⟩ := List.map_eq_singleton_iff.mp shapes
  refine ⟨f, by simp [only], ?_⟩
  obtain ⟨_, _, _, ⟨_, ss, _⟩, _⟩ := f
  have statements : Statement.listShape ss = [⟨0, .expr (Expr.sum n).shape, default⟩] := by
    have body := congrArg (·.body.statements) shape
    simpa [Func.shape, Block.shape, Statement.listShape, Statement.shape, StatementKind.shape]
      using body
  rcases ss with _ | ⟨⟨_, kind, _⟩, _ | ⟨_, _⟩⟩ <;>
    simp only [Statement.listShape, Statement.shape, List.cons.injEq, reduceCtorEq, and_false]
      at statements
  obtain ⟨e, rfl, sum⟩ := StatementKind.of_shape_expr (Statement.mk.inj statements.1).2.1
  refine .other (List.mem_singleton_self _) (.other (List.mem_singleton_self _) ?_)
  exact .other (List.mem_singleton_self _) (Expr.chain_sum sum)

/-- Sums of any length are read. -/
theorem Module.exists_chain (n : Nat) : ∃ source m, parse source = .ok m ∧
    ∃ f ∈ m.functions, (Node.func f).Chain (n + 4) n := by
  have nodes : ∀ x ∈ (summing n).allNodes, x.Fits True := by
    intro x hx
    obtain ⟨f, hf, inside⟩ := List.mem_flatMap.mp hx
    exact Node.fits_of_isPrintable (Func.isPrintable_summing n f hf x inside)
  have room : ∀ f ∈ (summing n).functions, f.room ≤ Limit.nesting := by
    intro f hf
    rw [Func.room_summing n f hf]
    decide
  obtain ⟨m, read, same⟩ | ⟨unsure, -⟩ := reads_print (by simp [summing]) nodes fun _ => room
  · exact ⟨_, m, read, Func.chain_summing same⟩
  · exact absurd trivial unsure

/-! ## What is bounded and what is not -/

/-- **Bounded but for what stands in front.** Of the nodes in a chain of a module that was read, all
but so many stand in front of an operator, a call or a dot. -/
theorem Module.within_of_parse {source : String} {m : Module} (read : parse source = .ok m) :
    ∀ n ∈ m.allNodes, n.Within (7 * Limit.nesting + 2) := by
  obtain ⟨c, d, -, run⟩ := functions_of_parse read
  have roots : ∀ f ∈ m.functions, (Node.func f).Within (7 * Limit.nesting + 2) :=
    Parser.within_functions _ (List.forall_mem_nil _) c m.functions (by rw [run])
  intro n hn
  obtain ⟨f, hf, inside⟩ := List.mem_flatMap.mp hn
  exact Func.every_of_inside (p := (·.Within _)) (Node.within_ident · _)
    (fun _ _ hm h => h.inside hm) (roots f hf) n inside

theorem within_of_parse_sum : ∃ source m, Module.parse source = .ok m ∧
    (∃ f ∈ m.functions, (Node.func f).Chain 1004 1000) ∧
      ∀ n ∈ m.allNodes, n.Within (7 * Limit.nesting + 2) := by
  obtain ⟨source, m, read, chain⟩ := Module.exists_chain 1000
  exact ⟨source, m, read, chain, Module.within_of_parse read⟩

/-- However large the bound, some module is higher. -/
theorem Module.not_bounded : ¬ ∃ bound, ∀ source m, parse source = .ok m → ∀ f ∈ m.functions,
    ∀ length fronts, (Node.func f).Chain length fronts → length ≤ bound := by
  rintro ⟨bound, bounded⟩
  obtain ⟨source, m, read, f, hf, chain⟩ := exists_chain bound
  have := bounded source m read f hf _ _ chain
  omega

end WaitDefer
