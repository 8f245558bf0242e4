import WaitDefer.Proofs.Grammar.Reading
import WaitDefer.Proofs.Marking.Waits
import WaitDefer.Proofs.Tree.Whole

/-!
# What is read

* `Module.nodup_ids_of_parse`: no two nodes of a parsed text carry one id, as long as ids do not run
  out;
* `Module.legible_of_parse`: what is read can be written down again, but for lines that begin with a
  function;
* `Module.hasSimpleHead_of_parse`: the heads of its counting loops hold nothing but simple
  statements.
-/

namespace WaitDefer

/-! ## Ids of the parts -/

/-- The ids of some nodes, whatever their order. -/
def Node.bag (ns : List Node) : Multiset NodeId := ↑(ns.filterMap id?)

theorem Node.bag_append (ns ms : List Node) : bag (ns ++ ms) = bag ns + bag ms := by
  simp [bag, List.filterMap_append]

theorem Node.bag_flatMap {α : Type} (g : α → List Node) (as : List α) :
    bag (as.flatMap g) = bagOf (fun a => bag (g a)) as := by
  induction as with
  | nil => rfl
  | cons a as ih =>
    rw [List.flatMap_cons, bag_append, ih, bagOf_cons]

theorem Node.bag_idents (is : List Ident) : bag (is.map .ident) = 0 := by
  induction is with
  | nil => rfl
  | cons i is ih => exact ih

theorem Node.bag_perm {ns ms : List Node} (h : ns.Perm ms) : bag ns = bag ms :=
  Multiset.coe_eq_coe.mpr (h.filterMap id?)

theorem Node.bag_cons {n : Node} {i : NodeId} (h : n.id? = some i) (ns : List Node) :
    bag (n :: ns) = {i} + bag ns := by
  simp [bag, h]

theorem Node.bag_expr (e : Expr) (ns : List Node) : bag (.expr e :: ns) = bag ns := rfl

/-- The ids inside an expression. -/
def Expr.bag (e : Expr) : Multiset NodeId := Node.bag (e.nodes fun _ => true)

def Func.bag (f : Func) : Multiset NodeId := Node.bag f.allNodes

def Block.bag (b : Block) : Multiset NodeId := Node.bag (b.nodes fun _ => true)

def Statement.bag (s : Statement) : Multiset NodeId := Node.bag (s.nodes fun _ => true)

theorem Expr.bag_eq (e : Expr) :
    e.bag = bagOf Expr.bag e.operands + bagOf Func.bag e.functions := by
  rw [bag, nodes_parts, Node.bag_expr]
  simp only [Node.bag_append, Node.bag_flatMap, Node.bag_idents, add_zero]
  rfl

theorem Func.bag_eq (f : Func) : f.bag = {f.id} + f.body.bag := by
  rw [bag, allNodes_eq, Node.bag_cons rfl]
  simp only [Node.bag_append, Node.bag_idents, zero_add]
  rfl

theorem Block.bag_eq (b : Block) : b.bag = {b.id} + bagOf Statement.bag b.statements := by
  rw [bag, nodes_eq, Node.bag_cons rfl, Node.bag_flatMap]
  rfl

theorem Statement.bag_eq (s : Statement) :
    s.bag = {s.id} + (bagOf Expr.bag s.kind.tests + bagOf Expr.bag s.kind.operands +
      bagOf Statement.bag s.kind.headers + bagOf Block.bag s.kind.blocks +
      bagOf Func.bag s.kind.functions) := by
  rw [bag, nodes_eq, Node.bag_cons rfl, Node.bag_perm (StatementKind.nodes_perm _ _)]
  simp only [Node.bag_append, Node.bag_flatMap, Node.bag_idents, zero_add]
  rfl

/-! ## Blocks and functions -/

/-- The parsers for what lies deeper account for the ids they draw, and what they read is
legible. -/
structure Deeper.Accounts (d : Deeper) : Prop where
  expression : Parser.Makes 0 d.expression Expr.bag Expr.Legible
  unary : Parser.Makes 0 d.unary Expr.bag Expr.Legible
  statement : Parser.Makes 0 d.statement Statement.bag Statement.Legible

namespace Parser

section
variable {d : Deeper} [d.Keeps] (accounts : d.Accounts)
include accounts

theorem makes_statements (ends : List Token) (n : Nat) {done : List Statement}
    (legible : ∀ s ∈ done, s.Legible) :
    Makes (bagOf Statement.bag done) (statements d ends n done) (bagOf Statement.bag)
      fun ss => (∀ s ∈ ss, s.Legible) ∧ ss.length ≤ done.length + n := by
  have ended : ∀ (n : Nat) {done : List Statement}, (∀ s ∈ done, s.Legible) →
      Makes (bagOf Statement.bag done) (Pure.pure done.reverse) (bagOf Statement.bag)
        fun ss => (∀ s ∈ ss, s.Legible) ∧ ss.length ≤ done.length + n :=
    fun n done legible => .done ⟨by simpa using legible, by simp⟩ (bagOf_reverse done)
  induction n generalizing done with
  | zero =>
    unfold statements
    refine .after (quiet_look _) fun ends => ?_
    split
    · exact ended 0 legible
    · exact .after (quiet_look _) fun span => makes_throw _
  | succ n ih =>
    unfold statements
    refine .after (quiet_look _) fun ends => ?_
    split
    · exact ended _ legible
    · refine .after (quiet_look _) fun start => ?_
      refine (accounts.statement.attempt.beside _).bind fun r hr => ?_
      cases r with
      | ok s =>
        have legible : ∀ x ∈ s :: done, x.Legible := List.forall_mem_cons.mpr ⟨hr s rfl, legible⟩
        have next := (ih legible).weaken le_rfl (fun ss hss =>
          (⟨hss.1, hss.2.trans (by simp; omega)⟩ :
            (∀ s ∈ ss, s.Legible) ∧ ss.length ≤ done.length + (n + 1))) fun _ => le_rfl
        rwa [bagOf_cons] at next
      | error e =>
        have next := (ih legible).weaken le_rfl (fun ss hss =>
          (⟨hss.1, hss.2.trans (by omega)⟩ :
            (∀ s ∈ ss, s.Legible) ∧ ss.length ≤ done.length + (n + 1))) fun _ => le_rfl
        rw [← zero_add (bagOf Statement.bag done)] at next
        refine .after (quiet_move fun _ => rfl) fun _ => ?_
        refine .after (quiet_move Cursor.ids_toStatementBoundary) fun _ => ?_
        refine .after (quiet_look _) fun pos => ?_
        dsimp only
        split
        · exact .after (quiet_move Cursor.ids_advance) fun _ => next
        · exact next

/-- The statements of a block. -/
theorem makes_body (ends : List Token) (more : Multiset NodeId) :
    Makes more (statements d ends Limit.rounds []) (fun ss => bagOf Statement.bag ss + more)
      fun ss => ∀ id span, (⟨id, ss, span⟩ : Block).Legible := by
  have none : ∀ s ∈ ([] : List Statement), s.Legible := by simp
  refine ((makes_statements accounts ends Limit.rounds none).beside more).weaken le_rfl
    (fun ss hss id span => Block.legible_iff.mpr ⟨?_, hss.1⟩) fun _ => le_rfl
  simpa using hss.2

theorem makes_block : Makes 0 (block d) Block.bag Block.Legible := by
  refine .after (quiet_look _) fun start => .after (quiet_expect _) fun _ => .freshId fun id => ?_
  refine (makes_body accounts _ _).bind fun ss legible => .after (quiet_expect _) fun _ => ?_
  refine .after (quiet_look _) fun span => .done (legible id span) ?_
  rw [Block.bag_eq, add_zero, add_comm]

theorem makes_function (named : Bool) : Makes 0 (function d named) Func.bag
    fun f => f.Legible ∧ (named → f.name.isSome) := by
  refine .after (quiet_look _) fun start => .after (quiet_expect _) fun _ => .freshId fun id => ?_
  refine .told tells_ident? fun name hname => ?_
  have rest (allowed : named → name.isSome) : Makes ({id} + 0) (do
      let _ ← expect (.sym .leftParen)
      let params ← untilParen ident
      let body ← block d
      return (⟨id, name, params, body, start.through body.span⟩ : Func)) Func.bag
        fun f => f.Legible ∧ (named → f.name.isSome) := by
    refine .after (quiet_expect _) fun _ => ?_
    refine (tells_ident.makes.untilParen.beside _).bind fun params hparams => ?_
    refine ((makes_block accounts).beside _).bind fun body hbody => ?_
    refine .done ⟨Func.legible_iff.mpr ⟨hname, hparams, hbody⟩, allowed⟩ ?_
    rw [Func.bag_eq]
    simp only [bagOf_none, zero_add, add_comm]
  dsimp only
  split
  · have never : Makes ({id} + 0) (suggesting "function declarations need a name"
        (unexpected [anyName] : Parser Unit)) (fun _ => {id} + 0) fun _ => False :=
      .failing ((quiet_unexpected _).suggesting _) fun _ _ h => nomatch h
    exact never.bind fun _ absurd => absurd.elim
  · rename_i allowed
    refine rest fun must => ?_
    cases name with
    | none => exact absurd must (by simpa using allowed)
    | some i => rfl

/-! ## Expressions -/

omit [d.Keeps] accounts in
/-- An expression that holds no other. -/
theorem Makes.leaf {e : Expr} (own : e.isPrintable) (operands : e.operands = [])
    (functions : e.functions = []) (names : ∀ i ∈ e.names, Lexer.isName i.name) :
    Makes 0 (Pure.pure e) Expr.bag Expr.Legible := by
  refine .done (Expr.legible_iff.mpr ⟨own, ?_, names, ?_⟩) ?_
  · simp [operands]
  · simp [functions]
  · simp [Expr.bag_eq e, operands, functions]

omit [d.Keeps] accounts in
/-- An expression that is legible because its parts are. -/
theorem legible_of_parts {e : Expr} (own : e.isPrintable) (operands : ∀ o ∈ e.operands, o.Legible)
    (names : e.names = []) (functions : ∀ f ∈ e.functions, f.Legible) : e.Legible :=
  Expr.legible_iff.mpr ⟨own, operands, by simp [names], functions⟩

theorem makes_primary : Makes 0 (primary d) Expr.bag Expr.Legible := by
  refine .after (quiet_look _) fun start => .told tells_token fun token lexical => ?_
  split
  · exact .after quiet_advance fun _ => .leaf lexical rfl rfl (by simp [Expr.names])
  · exact .after quiet_advance fun _ => .leaf rfl rfl rfl (by simp [Expr.names])
  · exact .after quiet_advance fun _ => .leaf rfl rfl rfl (by simp [Expr.names])
  · exact .after quiet_advance fun _ => .leaf rfl rfl rfl (by simp [Expr.names])
  · exact .after quiet_advance fun _ => .leaf rfl rfl rfl (by simp [Expr.names])
  · exact .after quiet_advance fun _ => .leaf rfl rfl rfl (by
      simpa [Expr.names, Token.isLexical] using lexical)
  · refine .after quiet_advance fun _ => accounts.expression.bind fun e he => ?_
    exact .after (quiet_expect _) fun _ => .done he rfl
  · refine (makes_function accounts false).bind fun f hf => .done ?_ ?_
    · exact legible_of_parts rfl (by simp [Expr.operands]) rfl
        (by simpa [Expr.functions] using hf.1)
    · simp [Expr.bag_eq (.func f), Expr.operands, Expr.functions]
  · refine .after quiet_advance fun _ => .after (quiet_expect _) fun _ => ?_
    refine (tells_ident.suggesting _).makes.untilParen.bind fun bindings named => ?_
    rw [bagOf_none]
    exact .after (quiet_look _) fun span => .leaf rfl rfl rfl named
  · exact makes_unexpected _

theorem makes_suffixes (n : Nat) {e : Expr} (legible : e.Legible) :
    Makes e.bag (suffixes d n e) Expr.bag Expr.Legible := by
  induction n generalizing e with
  | zero => exact .done legible rfl
  | succ n ih =>
    unfold suffixes
    refine .after (quiet_look _) fun token => ?_
    split
    · refine .after quiet_advance fun _ => ?_
      refine (accounts.expression.untilParen.beside _).bind fun arguments hargs => ?_
      refine .after (quiet_look _) fun span => ?_
      have call : (Expr.call e arguments span).Legible := legible_of_parts rfl
        (List.forall_mem_cons.mpr ⟨legible, hargs⟩) rfl (by simp [Expr.functions])
      refine (ih call).weaken (le_of_eq ?_) (fun _ h => h) fun _ => le_rfl
      simp [Expr.bag_eq (.call ..), Expr.operands, Expr.functions, add_comm]
    · refine .after quiet_advance fun _ => .told tells_property fun property named => ?_
      have member : (Expr.member e property (e.span.through property.span)).Legible :=
        legible_of_parts named (by simpa [Expr.operands] using legible) rfl
          (by simp [Expr.functions])
      refine (ih member).weaken (le_of_eq ?_) (fun _ h => h) fun _ => le_rfl
      simp [Expr.bag_eq (.member ..), Expr.operands, Expr.functions]
    · exact .done legible rfl

theorem makes_unary : Makes 0 (unary d) Expr.bag Expr.Legible := by
  refine .after (quiet_look _) fun start => .after (quiet_look _) fun token => ?_
  split
  · refine .after quiet_advance fun _ => (accounts.unary.nested _).bind fun e he => ?_
    refine .done ?_ ?_
    · exact legible_of_parts rfl (by simpa [Expr.operands] using he) rfl (by simp [Expr.functions])
    · simp [Expr.bag_eq (.unary ..), Expr.operands, Expr.functions]
  · refine (makes_primary accounts).bind fun e he => .after (quiet_look _) fun n => ?_
    exact makes_suffixes accounts n he

omit [d.Keeps] accounts in
theorem makes_operators {right : Precedence → Parser Expr} [∀ level, Keeps (right level)]
    (hright : ∀ level, Makes 0 (right level) Expr.bag Expr.Legible) (least : Precedence) (n : Nat)
    {left : Expr} (legible : left.Legible) :
    Makes left.bag (operators right least n left) Expr.bag Expr.Legible := by
  induction n generalizing left with
  | zero => exact .done legible rfl
  | succ n ih =>
    unfold operators
    refine .after (quiet_look _) fun token => ?_
    split
    · rename_i op _
      refine .after quiet_advance fun _ => ((hright _).beside _).bind fun operand hop => ?_
      have both : (Expr.binary op left operand (left.span.through operand.span)).Legible :=
        legible_of_parts rfl (by simpa [Expr.operands] using ⟨legible, hop⟩) rfl
          (by simp [Expr.functions])
      refine (ih both).weaken (le_of_eq ?_) (fun _ h => h) fun _ => le_rfl
      simp [Expr.bag_eq (.binary ..), Expr.operands, Expr.functions, add_comm]
    · exact .done legible rfl

theorem makes_climb (levels : Nat) (least : Precedence) :
    Makes 0 (climb d levels least) Expr.bag Expr.Legible := by
  induction levels generalizing least with
  | zero => exact makes_unary accounts
  | succ levels ih =>
    refine (makes_unary accounts).bind fun e he => .after (quiet_look _) fun n => ?_
    exact makes_operators ih least n he

/-! ## Statements -/

/-- A legible statement that may stand in the head of a loop; without declarations, also at its
end. -/
structure StandsInHead (declarations : Bool) (s : Statement) : Prop where
  legible : s.Legible
  isSimple : s.kind.isSimple
  isUpdate : declarations = false → s.kind.isUpdate

omit [d.Keeps] accounts in
theorem Makes.simple {id : NodeId} {kind : StatementKind} {span : Span} {given : Multiset NodeId}
    {declarations : Bool} (isSimple : kind.isSimple) (isUpdate : declarations = false → kind.isUpdate)
    (own : kind.isPrintable) (declared : ∀ i ∈ kind.declared, Lexer.isName i.name)
    (operands : ∀ e ∈ kind.operands, e.Legible)
    (all : {id} + bagOf Expr.bag kind.operands = given) :
    Makes given (Pure.pure ⟨id, kind, span⟩) Statement.bag (StandsInHead declarations) := by
  have parts : kind.tests = [] ∧ kind.headers = [] ∧ kind.blocks = [] ∧ kind.functions = [] := by
    cases kind <;> first | exact ⟨rfl, rfl, rfl, rfl⟩ | cases isSimple
  obtain ⟨tests, headers, blocks, functions⟩ := parts
  refine .done ⟨Statement.legible_iff.mpr ⟨own, declared, ?_⟩, isSimple, isUpdate⟩ ?_
  · simpa [tests, headers, blocks, functions] using operands
  · rw [Statement.bag_eq, ← all]
    simp [tests, headers, blocks, functions]

theorem makes_simple (declarations : Bool) :
    Makes 0 (simple d declarations) Statement.bag (StandsInHead declarations) := by
  refine .after (quiet_look _) fun start => .after (quiet_look _) fun declares => ?_
  split
  · refine .unless fun allowed => ?_
    have may : declarations = false → False := fun none => by simp [none] at allowed
    refine .after quiet_advance fun _ => .freshId fun id => .told tells_ident fun name named => ?_
    have rest : ∀ init : Option Expr, (∀ e ∈ init, e.Legible) →
        Makes (bagOf Expr.bag init.toList + ({id} + 0))
          (do return (⟨id, .declare name init, ← look (·.spanFrom start)⟩ : Statement))
          Statement.bag (StandsInHead declarations) := by
      intro init hinit
      refine .after (quiet_look _) fun span => .simple rfl (fun none => (may none).elim) rfl ?_ ?_ ?_
      · simpa [StatementKind.declared] using named
      · simpa [StatementKind.operands] using hinit
      · simp [StatementKind.operands, add_comm]
    refine .after (quiet_eat _) fun hasInit => ?_
    split
    · exact (accounts.expression.some.beside _).bind rest
    · exact (Makes.none.beside _).bind rest
  · refine .freshId fun id => (accounts.expression.beside _).bind fun target htarget => ?_
    refine .after (quiet_eat _) fun assigns => ?_
    split
    · refine .unless fun assignable => (accounts.expression.beside _).bind fun value hvalue => ?_
      refine .after (quiet_look _) fun span => .simple rfl (fun _ => rfl) ?_ ?_ ?_ ?_
      · simpa [StatementKind.isPrintable] using assignable
      · simp [StatementKind.declared]
      · simpa [StatementKind.operands] using ⟨htarget, hvalue⟩
      · simp only [StatementKind.operands, bagOf_cons, bagOf_nil]
        abel
    · refine .after (quiet_look _) fun span => .simple rfl (fun _ => rfl) rfl ?_ ?_ ?_
      · simp [StatementKind.declared]
      · simpa [StatementKind.operands] using htarget
      · simp [StatementKind.operands, add_comm]

theorem makes_condition : Makes 0 (condition d) Expr.bag Expr.Legible := by
  refine .after (quiet_expect _) fun _ => accounts.expression.bind fun e he => ?_
  exact .after (quiet_expect _) fun _ => .done he rfl

theorem makes_branch : Makes 0 (branch d) Statement.bag Statement.Legible := by
  refine .after (quiet_look _) fun start => .after (quiet_expect _) fun _ => .freshId fun id => ?_
  refine ((makes_condition accounts).beside _).bind fun test htest => ?_
  refine ((makes_block accounts).beside _).bind fun yes hyes => .after (quiet_eat _) fun more => ?_
  have rest : ∀ no : Option Block, (∀ b ∈ no, b.Legible) →
      Makes (bagOf Block.bag no.toList + (yes.bag + (test.bag + ({id} + 0))))
        (do return (⟨id, .branch test yes no, ← look (·.spanFrom start)⟩ : Statement))
        Statement.bag Statement.Legible := by
    intro no hno
    refine .after (quiet_look _) fun span => .done (Statement.legible_iff.mpr ⟨rfl, ?_⟩) ?_
    · simpa [StatementKind.declared, StatementKind.tests, StatementKind.operands,
        StatementKind.headers, StatementKind.blocks, StatementKind.functions] using
        ⟨htest, hyes, hno⟩
    · rw [Statement.bag_eq]
      simp only [StatementKind.tests, StatementKind.operands, StatementKind.headers,
        StatementKind.blocks, StatementKind.functions, bagOf_cons, bagOf_nil]
      abel
  dsimp only
  split
  · refine .after (quiet_look _) fun again => ?_
    split
    · refine .freshId fun blockId => (accounts.statement.beside _).bind fun s hs => ?_
      refine Makes.bind (.done ?_ ?_) rest
      · rintro b ⟨⟩
        exact Block.legible_iff.mpr ⟨by simp [Limit.rounds], by simpa using hs⟩
      · simp only [Option.toList, bagOf_cons, bagOf_nil, Block.bag_eq]
        abel
    · exact ((makes_block accounts).some.beside _).bind rest
  · exact (Makes.none.beside _).bind rest

/-- The ids of the arms of a switch, that for all other values included. -/
def armIds (r : List Arm × Option Block) : Multiset NodeId :=
  bagOf Expr.bag (r.1.map Arm.test) + bagOf Block.bag (r.1.map Arm.body) +
    bagOf Block.bag r.2.toList

/-- Legible arms, at most `n` of them. -/
structure ArmsLegible (n : Nat) (r : List Arm × Option Block) : Prop where
  each : ∀ arm ∈ r.1, arm.test.Legible ∧ arm.body.Legible
  otherwise : ∀ b ∈ r.2, b.Legible
  short : r.1.length + r.2.toList.length ≤ n

theorem makes_arms (n : Nat) {done : List Arm} {otherwise : Option Block} {most : Nat}
    (legible : ArmsLegible most (done, otherwise)) :
    Makes (armIds (done, otherwise)) (arms d n done otherwise) armIds
      (ArmsLegible (most + n)) := by
  have ended : ∀ {done : List Arm} {otherwise : Option Block} {most n : Nat},
      ArmsLegible most (done, otherwise) →
      Makes (armIds (done, otherwise)) (Pure.pure (done.reverse, otherwise)) armIds
        (ArmsLegible (most + n)) := by
    intro done otherwise most n legible
    have short := legible.short
    refine .done ⟨by simpa using legible.each, legible.otherwise, ?_⟩ (by simp [armIds])
    simp only [List.length_reverse]
    exact short.trans (Nat.le_add_right _ _)
  induction n generalizing done otherwise most with
  | zero =>
    unfold arms
    refine .after (quiet_look _) fun ends => ?_
    split
    · exact ended legible
    · exact .after (quiet_look _) fun span => makes_throw _
  | succ n ih =>
    have room : most + 1 + n = most + (n + 1) := by omega
    have short : done.length + otherwise.toList.length ≤ most := legible.short
    unfold arms
    refine .after (quiet_look _) fun ends => ?_
    split
    · exact ended legible
    · refine .after (quiet_look _) fun start => .after (quiet_eat _) fun isCase => ?_
      split
      · refine (accounts.expression.beside _).bind fun test htest => ?_
        refine .after (quiet_expect _) fun _ => .freshId fun id => ?_
        refine (makes_body accounts _ _).bind fun ss hss => .after (quiet_look _) fun span => ?_
        have more : ArmsLegible (most + 1) (⟨test, ⟨id, ss, span⟩, span⟩ :: done, otherwise) :=
          ⟨List.forall_mem_cons.mpr ⟨⟨htest, hss id span⟩, legible.each⟩, legible.otherwise, by
            simp only [List.length_cons]
            omega⟩
        have next := ih more
        rw [room] at next
        refine next.weaken (le_of_eq ?_) (fun _ h => h) fun _ => le_rfl
        simp only [armIds, List.map_cons, bagOf_cons, Block.bag_eq ⟨id, ss, span⟩]
        abel
      · refine .after (quiet_eat _) fun isDefault => ?_
        split
        · refine .after (quiet_expect _) fun _ => .freshId fun id => ?_
          refine (makes_body accounts _ _).bind fun ss hss => .unless fun _ => ?_
          refine .after (quiet_look _) fun span => ?_
          have more : ArmsLegible (most + 1) (done, some ⟨id, ss, span⟩) :=
            ⟨legible.each, by rintro b ⟨⟩; exact hss id span, by
              simp only [Option.toList_some, List.length_singleton]
              omega⟩
          have next := ih more
          rw [room] at next
          refine next.weaken ?_ (fun _ h => h) fun _ => le_rfl
          -- A second such arm is refused, so that no block is dropped.
          simp only [armIds, Option.toList, bagOf_cons, bagOf_nil, Block.bag_eq ⟨id, ss, span⟩]
          refine (Multiset.le_add_right _ (bagOf Block.bag otherwise.toList)).trans (le_of_eq ?_)
          abel
        · exact makes_unexpected _

theorem makes_switch : Makes 0 (switch d) Statement.bag Statement.Legible := by
  refine .after (quiet_look _) fun start => .after (quiet_expect _) fun _ => .freshId fun id => ?_
  refine ((makes_condition accounts).beside _).bind fun subject hsubject => ?_
  refine .after (quiet_expect _) fun _ => ?_
  have none : ArmsLegible 0 ([], none) := ⟨by simp, by simp, by simp⟩
  have inside := makes_arms accounts Limit.rounds none
  refine (inside.beside _).bind fun r hr => .after (quiet_expect _) fun _ => ?_
  refine .after (quiet_look _) fun span => .done (Statement.legible_iff.mpr ⟨?_, ?_⟩) ?_
  · exact decide_eq_true (hr.short.trans (Nat.zero_add _).le)
  · simp only [StatementKind.declared, StatementKind.tests, StatementKind.operands,
      StatementKind.headers, StatementKind.blocks, StatementKind.functions, List.forall_mem_cons,
      List.forall_mem_append, List.forall_mem_map, Option.mem_toList]
    have arms := hr.each
    exact ⟨by simp, ⟨hsubject, fun a ha => (arms a ha).1⟩, by simp, by simp,
      ⟨fun a ha => (arms a ha).2, hr.otherwise⟩, by simp⟩
  · rw [Statement.bag_eq]
    simp only [armIds, StatementKind.tests, StatementKind.operands, StatementKind.headers,
      StatementKind.blocks, StatementKind.functions, bagOf_cons, bagOf_nil, bagOf_append]
    abel

/-- A legible loop without its label. -/
structure LoopLegible (r : LoopHead × Block) : Prop where
  own : (StatementKind.loop none r.1 r.2).isPrintable
  tests : ∀ e ∈ r.1.test?, e.Legible
  headers : ∀ h ∈ r.1.statements, h.Legible
  body : r.2.Legible

theorem makes_headAndBody (first : Token) :
    Makes 0 (headAndBody d first)
      (fun r => bagOf Expr.bag r.1.test?.toList + bagOf Statement.bag r.1.statements + r.2.bag)
      LoopLegible := by
  unfold headAndBody
  split
  · refine (makes_condition accounts).bind fun test htest => ?_
    refine ((makes_block accounts).beside _).bind fun body hbody => .done ?_ ?_
    · exact ⟨rfl, by simpa [LoopHead.test?] using htest, by simp [LoopHead.statements], hbody⟩
    · simp [LoopHead.test?, LoopHead.statements, add_comm]
  · refine (makes_block accounts).bind fun body hbody => .after (quiet_expect _) fun _ => ?_
    refine ((makes_condition accounts).beside _).bind fun test htest => ?_
    refine .after (quiet_expect _) fun _ => .done ?_ ?_
    · exact ⟨rfl, by simpa [LoopHead.test?] using htest, by simp [LoopHead.statements], hbody⟩
    · simp [LoopHead.test?, LoopHead.statements]
  · refine .after (quiet_expect _) fun _ => ?_
    refine ((makes_simple accounts true).unlessAt _).bind fun init hinit => ?_
    refine .after (quiet_expect _) fun _ => ?_
    refine ((accounts.expression.unlessAt _).beside _).bind fun test htest => ?_
    refine .after (quiet_expect _) fun _ => ?_
    refine (((makes_simple accounts false).unlessAt _).beside _).bind fun update hupdate => ?_
    refine .after (quiet_expect _) fun _ => ?_
    refine ((makes_block accounts).beside _).bind fun body hbody => .done ⟨?_, htest, ?_, hbody⟩ ?_
    · simp only [StatementKind.isPrintable, Option.all_none, Bool.true_and, Bool.and_eq_true,
        Option.all_eq_true]
      exact ⟨fun s hs => (hinit s hs).isSimple, fun s hs => (hupdate s hs).isUpdate rfl⟩
    · simp only [LoopHead.statements, List.forall_mem_append, Option.mem_toList]
      exact ⟨fun s hs => (hinit s hs).legible, fun s hs => (hupdate s hs).legible⟩
    · simp only [LoopHead.test?, LoopHead.statements, bagOf_append]
      abel

theorem makes_loop {label : Option Ident} (named : ∀ i ∈ label, Lexer.isName i.name)
    (start : Span) : Makes 0 (loop d label start) Statement.bag Statement.Legible := by
  refine .after quiet_advance fun first => .freshId fun id => ?_
  refine ((makes_headAndBody accounts first).beside _).bind fun r hr => ?_
  obtain ⟨own, tests, headers, body⟩ := hr
  refine .after (quiet_look _) fun span => .done (Statement.legible_iff.mpr ⟨?_, ?_⟩) ?_
  · have label : label.all (Lexer.isName ·.name) := (Option.all_eq_true _ _).mpr named
    obtain ⟨head, b⟩ := r
    cases head <;> simp_all [StatementKind.isPrintable]
  · simp only [StatementKind.declared, StatementKind.tests, StatementKind.operands,
      StatementKind.headers, StatementKind.blocks, StatementKind.functions, Option.mem_toList]
    exact ⟨by simp, tests, by simp, headers, by simpa using body, by simp⟩
  · rw [Statement.bag_eq]
    simp only [StatementKind.tests, StatementKind.operands, StatementKind.headers,
      StatementKind.blocks, StatementKind.functions, bagOf_cons, bagOf_nil]
    abel

omit [d.Keeps] accounts in
theorem makes_jump (kind : JumpKind) : Makes 0 (jump kind) Statement.bag Statement.Legible := by
  refine .after (quiet_look _) fun start => .after quiet_advance fun _ => .freshId fun id => ?_
  refine .told tells_ident? fun label named => .after (quiet_expect _) fun _ => ?_
  refine .after (quiet_look _) fun span => .done (Statement.legible_iff.mpr ⟨?_, ?_⟩) ?_
  · exact (Option.all_eq_true _ _).mpr named
  · simp [StatementKind.declared, StatementKind.tests, StatementKind.operands,
      StatementKind.headers, StatementKind.blocks, StatementKind.functions]
  · simp [Statement.bag_eq, StatementKind.tests, StatementKind.operands, StatementKind.headers,
      StatementKind.blocks, StatementKind.functions]

theorem makes_labelled : Makes 0 (labelled d) Statement.bag Statement.Legible := by
  refine .after (quiet_look _) fun start => .told tells_ident fun label named => ?_
  refine .after (quiet_expect _) fun _ => .after (quiet_look _) fun token => ?_
  split
  · exact makes_loop accounts (by rintro i ⟨⟩; exact named) start
  · exact makes_throw _

theorem makes_simpleLine : Makes 0 (simpleLine d) Statement.bag Statement.Legible := by
  refine .after (quiet_look _) fun start => (makes_simple accounts true).bind fun s hs => ?_
  refine .after (quiet_expect _) fun _ => .after (quiet_look _) fun span => .done ?_ ?_
  · have parts := Statement.legible_iff.mp hs.legible
    exact Statement.legible_iff.mpr parts
  · rw [Statement.bag_eq, Statement.bag_eq s]

theorem makes_statement : Makes 0 (statement d) Statement.bag Statement.Legible := by
  refine .after (quiet_look _) fun start => .after (quiet_look _) fun token => ?_
  have holdsBlock : ∀ {id : NodeId} {kind : StatementKind} {body : Block} {span : Span},
      kind.isPrintable → kind.declared = [] → kind.tests = [] → kind.operands = [] →
      kind.headers = [] → kind.blocks = [body] → kind.functions = [] → body.Legible →
      Makes (body.bag + ({id} + 0)) (Pure.pure ⟨id, kind, span⟩) Statement.bag
        Statement.Legible := by
    intro id kind body span own declared tests operands headers blocks functions hbody
    refine .done (Statement.legible_iff.mpr ⟨own, ?_⟩) ?_
    · simpa [declared, tests, operands, headers, blocks, functions] using hbody
    · simp [Statement.bag_eq, tests, operands, headers, blocks, functions, add_comm]
  have unlabelled : ∀ i ∈ (none : Option Ident), Lexer.isName i.name := by simp
  split
  · refine .freshId fun id => ((makes_function accounts true).beside _).bind fun f hf => ?_
    refine .done (Statement.legible_iff.mpr ⟨hf.2 rfl, ?_⟩) ?_
    · simpa [StatementKind.declared, StatementKind.tests, StatementKind.operands,
        StatementKind.headers, StatementKind.blocks, StatementKind.functions] using hf.1
    · simp [Statement.bag_eq, StatementKind.tests, StatementKind.operands, StatementKind.headers,
        StatementKind.blocks, StatementKind.functions, add_comm]
  · exact makes_branch accounts
  · exact makes_switch accounts
  · exact makes_loop accounts unlabelled start
  · exact makes_loop accounts unlabelled start
  · exact makes_loop accounts unlabelled start
  · refine .after (quiet_look _) fun next => ?_
    split
    · exact makes_labelled accounts
    · exact makes_simpleLine accounts
  · exact makes_jump .leave
  · exact makes_jump .resume
  · refine .after quiet_advance fun _ => .freshId fun id => ?_
    refine ((accounts.expression.unlessAt _).beside _).bind fun value hvalue => ?_
    refine .after (quiet_expect _) fun _ => .after (quiet_look _) fun span => ?_
    refine .done (Statement.legible_iff.mpr ⟨rfl, ?_⟩) ?_
    · simpa [StatementKind.declared, StatementKind.tests, StatementKind.operands,
        StatementKind.headers, StatementKind.blocks, StatementKind.functions] using hvalue
    · simp [Statement.bag_eq, StatementKind.tests, StatementKind.operands, StatementKind.headers,
        StatementKind.blocks, StatementKind.functions, add_comm]
  · refine .after quiet_advance fun _ => .freshId fun id => ?_
    refine ((makes_block accounts).beside _).bind fun body hbody => ?_
    exact .after (quiet_look _) fun span => holdsBlock rfl rfl rfl rfl rfl rfl rfl hbody
  · refine .freshId fun id => ((makes_block accounts).beside _).bind fun body hbody => ?_
    exact holdsBlock rfl rfl rfl rfl rfl rfl rfl hbody
  · exact makes_simpleLine accounts

end

end Parser

/-! ## The whole grammar -/

theorem Deeper.accounts_levels (n : Nat) : (levels n).Accounts := by
  have noRoom : ∀ {α : Type} {name : String} {ids : α → Multiset NodeId} {P : α → Prop},
      Parser.Makes 0 (Parser.noRoom name) ids P :=
    .failing (fun _ => rfl) fun _ _ h => nomatch h
  induction n with
  | zero => exact ⟨noRoom, noRoom, noRoom⟩
  | succ n ih =>
    exact ⟨(Parser.makes_climb ih _ _).nested _, Parser.makes_unary ih,
      (Parser.makes_statement ih).nested _⟩

theorem Parser.makes_functions (n : Nat) {done : List Func}
    (legible : ∀ f ∈ done, f.Legible ∧ f.name.isSome) :
    Makes (bagOf Func.bag done) (functions n done) (bagOf Func.bag)
      fun fs => ∀ f ∈ fs, f.Legible ∧ f.name.isSome := by
  have ended : ∀ {done : List Func}, (∀ f ∈ done, f.Legible ∧ f.name.isSome) →
      Makes (bagOf Func.bag done) (Pure.pure done.reverse) (bagOf Func.bag)
        fun fs => ∀ f ∈ fs, f.Legible ∧ f.name.isSome :=
    fun legible => .done (by simpa using legible) (bagOf_reverse _)
  induction n generalizing done with
  | zero => exact ended legible
  | succ n ih =>
    unfold functions
    refine .after (quiet_look _) fun ends => ?_
    split
    · exact ended legible
    · have one := makes_function (Deeper.accounts_levels Limit.nesting) true
      refine (one.attempt.beside _).bind fun r hr => ?_
      cases r with
      | ok f =>
        obtain ⟨own, named⟩ := hr f rfl
        have next := ih (List.forall_mem_cons.mpr ⟨⟨own, named rfl⟩, legible⟩)
        rwa [bagOf_cons] at next
      | error e =>
        have next := ih legible
        rw [← zero_add (bagOf Func.bag done)] at next
        refine .after (quiet_move fun _ => rfl) fun _ => ?_
        exact .after (quiet_move Cursor.ids_toFunction) fun _ => next

/-- The head of a legible counting loop holds nothing but simple statements. -/
theorem Node.hasSimpleHead_of_isLegible {n : Node} (h : n.isLegible) : n.HasSimpleHead := by
  have simple : ∀ kind : StatementKind, kind.isUpdate → kind.isSimple := by
    intro kind update
    cases kind <;> first | rfl | cases update
  cases n with
  | statement s =>
    obtain ⟨id, kind, span⟩ := s
    cases kind with
    | loop label head body =>
      cases head with
      | counting init test update =>
        have own : (StatementKind.loop label (.counting init test update) body).isPrintable := h
        simp only [StatementKind.isPrintable, Bool.and_eq_true, Option.all_eq_true] at own
        intro s hs
        rcases List.mem_append.mp hs with first | last
        · exact own.1.2 s (Option.mem_toList.mp first)
        · exact simple _ (own.2 s (Option.mem_toList.mp last))
      | _ => exact fun _ inside => nomatch inside
    | _ => exact fun _ inside => nomatch inside
  | _ => trivial

namespace Module

variable {source : String} {m : Module}

theorem functions_of_parse (h : parse source = .ok m) :
    ∃ c d : Cursor, c.Lexical ∧ Parser.functions c.tokens.size [] c = (.ok m.functions, d) := by
  unfold parse at h
  split at h
  case h_2 => cases h
  case h_1 c start =>
    unfold Parser.wholeModule at h
    split at h
    case h_2 => cases h
    case h_1 fs d run =>
      refine ⟨c, d, Cursor.lexical_ofSource start, ?_⟩
      rw [run]
      split at h
      case h_2 => cases h
      case h_1 => split at h <;> cases h <;> simp_all

/-- What is read has ids that were handed out, and is legible. -/
theorem gave_of_parse (h : parse source = .ok m) :
    (∃ s : IdSupply, s.Gave (Node.bag m.allNodes)) ∧
      ∀ f ∈ m.functions, f.Legible ∧ f.name.isSome := by
  obtain ⟨c, d, lexical, run⟩ := functions_of_parse h
  have start : c.ids.Gave (bagOf Func.bag [] + 0) := ⟨by simp, by simp⟩
  have read := (Parser.makes_functions c.tokens.size (by simp) c 0 lexical start).2
  rw [run] at read
  obtain ⟨legible, gave⟩ := read m.functions rfl
  refine ⟨⟨d.ids, ?_⟩, legible⟩
  rw [allNodes, Node.bag_flatMap]
  rwa [add_zero] at gave

/-- What is read can be written down again, but for lines that begin with a function. -/
theorem legible_of_parse (h : parse source = .ok m) :
    (∀ n ∈ m.allNodes, n.isLegible) ∧ ∀ f ∈ m.functions, f.name.isSome := by
  have legible := (gave_of_parse h).2
  refine ⟨fun n hn => ?_, fun f hf => (legible f hf).2⟩
  obtain ⟨f, hf, hn⟩ := List.mem_flatMap.mp hn
  exact (legible f hf).1 n hn

/-- The heads of counting loops hold nothing but simple statements. -/
theorem hasSimpleHead_of_parse (h : parse source = .ok m) : ∀ n ∈ m.allNodes, n.HasSimpleHead :=
  fun n hn => Node.hasSimpleHead_of_isLegible ((legible_of_parse h).1 n hn)

/-- As long as ids do not run out, no two nodes of a parsed text carry one id. -/
theorem nodup_ids_of_parse (h : parse source = .ok m) (room : ∀ i ∈ m.ids, i < NodeId.last) :
    m.ids.Nodup := by
  obtain ⟨⟨s, gave⟩, -⟩ := gave_of_parse h
  have all : (Node.bag m.allNodes).filter (· ≠ NodeId.last) = Node.bag m.allNodes :=
    Multiset.filter_eq_self.mpr fun i hi => Nat.ne_of_lt (room i (Multiset.mem_coe.mp hi))
  have distinct := gave.distinct
  rw [all] at distinct
  exact Multiset.coe_nodup.mp distinct

end Module
end WaitDefer
