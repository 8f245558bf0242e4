import WaitDefer.Config
import WaitDefer.Hoisting
import WaitDefer.Proofs.Tree.Paths

/-!
# Plain code

The transform rewrites two things in place: a declaration becomes an assignment, and a callback of
a wait-block becomes a call on a counter. The plain form of a piece of code undoes the second and
carries out the first, so two pieces of code with one plain form do the same:

* `Block.plain`, `Statement.plain`, `Expr.plain`: the plain form, functions inside left alone;
* `Node.children_plain`, `Node.Path.of_plain_eq`: it keeps ids, places and nesting;
* `Statement.plain_plain`: it is a fixed point;
* `Block.plain_undeclared`: hoisting does not change it.
-/

namespace WaitDefer

/-! ## Expressions -/

/-- The name that a statement of a lowered callback assigns. -/
def Statement.assigned? (s : Statement) : Option Ident :=
  match s.kind with
  | .assign (.ident name) (.ident _) => some name
  | _ => none

/-- The method of a counter that makes a callback. A counter is known by its reserved name only, so
the user's own call `__x.defer(..)` on a reserved name is taken for a lowered callback, too: its plain
form is that of a `defer`, and plain forms do not tell the two apart. -/
def Expr.isCallbackMethod (config : Config) : Expr → Bool
  | .member (.ident counter) method _ =>
    config.isReserved counter.name && method.name == config.runtime.defer
  | _ => false

/-- The names bound by what a callback is made with: nothing, or a function that only assigns. -/
def Expr.boundBy : List Expr → Option (List Ident)
  | [] => some []
  | [.func ⟨_, none, _, ⟨_, statements, _⟩, _⟩] => statements.mapM Statement.assigned?
  | _ => none

/-- The bound names of a lowered callback, given what is called and with what. -/
def Expr.callback? (config : Config) (callee : Expr) (arguments : List Expr) :
    Option (List Ident) :=
  if callee.isCallbackMethod config then boundBy arguments else none

section
variable (config : Config)

mutual

/-- The expression with every lowered callback as it was. -/
def Expr.plain : Expr → Expr
  | .unary op operand span => .unary op operand.plain span
  | .binary op left right span => .binary op left.plain right.plain span
  | .call callee arguments span =>
    match Expr.callback? config callee arguments with
    | some bindings => .defer bindings span
    | none => .call callee.plain (Expr.listPlain arguments) span
  | .member object property span => .member object.plain property span
  | .int value span => .int value span
  | .str value span => .str value span
  | .bool value span => .bool value span
  | .null span => .null span
  | .ident name => .ident name
  | .func f => .func f
  | .defer bindings span => .defer bindings span

def Expr.listPlain : List Expr → List Expr
  | [] => []
  | e :: es => e.plain :: Expr.listPlain es

end

/-! ## Statements -/

mutual

def Block.plain : Block → Block
  | ⟨id, ss, span⟩ => ⟨id, Statement.listPlain ss, span⟩

def Statement.listPlain : List Statement → List Statement
  | [] => []
  | s :: ss => s.plain :: Statement.listPlain ss

def Statement.plain : Statement → Statement
  | ⟨id, kind, span⟩ => ⟨id, kind.plain, span⟩

/-- The statement with assignments for declarations, and its expressions plain. -/
def StatementKind.plain : StatementKind → StatementKind
  | .declare name init => .assigning name (init.map (Expr.plain config))
  | .assign target value => .assign (target.plain config) (value.plain config)
  | .expr value => .expr (value.plain config)
  | .ret value => .ret (value.map (Expr.plain config))
  | .block body => .block body.plain
  | .branch condition yes none => .branch (condition.plain config) yes.plain none
  | .branch condition yes (some no) =>
    .branch (condition.plain config) yes.plain (some no.plain)
  | .switch subject arms none => .switch (subject.plain config) (Arm.listPlain arms) none
  | .switch subject arms (some otherwise) =>
    .switch (subject.plain config) (Arm.listPlain arms) (some otherwise.plain)
  | .loop label (.whileDo condition) body =>
    .loop label (.whileDo (condition.plain config)) body.plain
  | .loop label (.doWhile condition) body =>
    .loop label (.doWhile (condition.plain config)) body.plain
  | .loop label (.counting init test update) body =>
    .loop label
      (.counting
        (match init with
          | some s => some s.plain
          | none => none)
        (test.map (Expr.plain config))
        (match update with
          | some s => some s.plain
          | none => none))
      body.plain
  | .wait body => .wait body.plain
  | .jump kind label => .jump kind label
  | .func f => .func f

def Arm.listPlain : List Arm → List Arm
  | [] => []
  | ⟨test, body, span⟩ :: arms => ⟨test.plain config, body.plain, span⟩ :: Arm.listPlain arms

end

/-- The head of a loop, plain. -/
def LoopHead.plain : LoopHead → LoopHead
  | .whileDo condition => .whileDo (condition.plain config)
  | .doWhile condition => .doWhile (condition.plain config)
  | .counting init test update =>
    .counting (init.map (Statement.plain config)) (test.map (Expr.plain config))
      (update.map (Statement.plain config))

/-- The arm of a switch, plain. -/
def Arm.plain (a : Arm) : Arm := ⟨a.test.plain config, a.body.plain config, a.span⟩

/-! ## Part by part -/

namespace Expr

@[simp] theorem plain_ident (name : Ident) : (ident name).plain config = .ident name := rfl

@[simp] theorem plain_null (span : Span) : (null span).plain config = .null span := rfl

@[simp] theorem plain_func (f : Func) : (func f).plain config = .func f := rfl

@[simp] theorem plain_defer (bindings : List Ident) (span : Span) :
    (defer bindings span).plain config = .defer bindings span := rfl

@[simp] theorem plain_unary (op : UnaryOp) (operand : Expr) (span : Span) :
    (unary op operand span).plain config = .unary op (operand.plain config) span := rfl

@[simp] theorem plain_binary (op : BinaryOp) (left right : Expr) (span : Span) :
    (binary op left right span).plain config =
      .binary op (left.plain config) (right.plain config) span := rfl

@[simp] theorem plain_member (object : Expr) (property : Ident) (span : Span) :
    (member object property span).plain config = .member (object.plain config) property span := rfl

theorem listPlain_eq (es : List Expr) : listPlain config es = es.map (plain config) := by
  induction es with
  | nil => rfl
  | cons e es ih => rw [List.map_cons, ← ih]; rfl

theorem plain_call (callee : Expr) (arguments : List Expr) (span : Span) :
    (call callee arguments span).plain config =
      match callback? config callee arguments with
      | some bindings => .defer bindings span
      | none => .call (callee.plain config) (arguments.map (plain config)) span := by
  rw [← listPlain_eq]
  rfl

end Expr

theorem Statement.listPlain_eq (ss : List Statement) :
    Statement.listPlain config ss = ss.map (Statement.plain config) := by
  induction ss with
  | nil => rfl
  | cons s ss ih => rw [List.map_cons, ← ih]; rfl

theorem Arm.listPlain_eq (arms : List Arm) :
    Arm.listPlain config arms = arms.map (Arm.plain config) := by
  induction arms with
  | nil => rfl
  | cons a arms ih => obtain ⟨test, body, span⟩ := a; rw [List.map_cons, ← ih]; rfl

theorem Block.plain_eq (b : Block) :
    b.plain config = ⟨b.id, b.statements.map (Statement.plain config), b.span⟩ := by
  obtain ⟨id, statements, span⟩ := b
  rw [← Statement.listPlain_eq]
  rfl

theorem Statement.plain_eq (s : Statement) :
    s.plain config = ⟨s.id, s.kind.plain config, s.span⟩ := by
  obtain ⟨id, kind, span⟩ := s
  rfl

@[simp] theorem Block.plain_id (b : Block) : (b.plain config).id = b.id := by
  rw [plain_eq]

@[simp] theorem Block.plain_span (b : Block) : (b.plain config).span = b.span := by
  rw [plain_eq]

@[simp] theorem Block.plain_statements (b : Block) :
    (b.plain config).statements = b.statements.map (Statement.plain config) := by
  rw [plain_eq]

@[simp] theorem Statement.plain_id (s : Statement) : (s.plain config).id = s.id := by
  rw [plain_eq]

@[simp] theorem Statement.plain_span (s : Statement) : (s.plain config).span = s.span := by
  rw [plain_eq]

@[simp] theorem Statement.plain_kind (s : Statement) :
    (s.plain config).kind = s.kind.plain config := by
  rw [plain_eq]

namespace StatementKind

@[simp] theorem plain_declare (name : Ident) (init : Option Expr) :
    (declare name init).plain config =
      .assign (.ident name) ((init.map (Expr.plain config)).getD (.null name.span)) := rfl

@[simp] theorem plain_assign (target value : Expr) :
    (assign target value).plain config = .assign (target.plain config) (value.plain config) := rfl

@[simp] theorem plain_expr (value : Expr) : (expr value).plain config = .expr (value.plain config) :=
  rfl

@[simp] theorem plain_ret (value : Option Expr) :
    (ret value).plain config = .ret (value.map (Expr.plain config)) := rfl

@[simp] theorem plain_block (body : Block) : (block body).plain config = .block (body.plain config) :=
  rfl

@[simp] theorem plain_wait (body : Block) : (wait body).plain config = .wait (body.plain config) :=
  rfl

@[simp] theorem plain_jump (kind : JumpKind) (label : Option Ident) :
    (jump kind label).plain config = .jump kind label := rfl

@[simp] theorem plain_func (f : Func) : (func f).plain config = .func f := rfl

@[simp] theorem plain_branch (condition : Expr) (yes : Block) (no : Option Block) :
    (branch condition yes no).plain config =
      .branch (condition.plain config) (yes.plain config) (no.map (Block.plain config)) := by
  cases no <;> rfl

@[simp] theorem plain_switch (subject : Expr) (arms : List Arm) (otherwise : Option Block) :
    (switch subject arms otherwise).plain config =
      .switch (subject.plain config) (arms.map (Arm.plain config))
        (otherwise.map (Block.plain config)) := by
  rw [← Arm.listPlain_eq]
  cases otherwise <;> rfl

@[simp] theorem plain_loop (label : Option Ident) (head : LoopHead) (body : Block) :
    (loop label head body).plain config = .loop label (head.plain config) (body.plain config) := by
  cases head with
  | counting init test update => cases init <;> cases update <;> rfl
  | whileDo _ => rfl
  | doWhile _ => rfl

end StatementKind

theorem LoopHead.statements_plain (head : LoopHead) :
    (head.plain config).statements = head.statements.map (Statement.plain config) := by
  cases head with
  | counting init test update => cases init <;> cases update <;> rfl
  | whileDo _ => rfl
  | doWhile _ => rfl

theorem LoopHead.test?_plain (head : LoopHead) :
    (head.plain config).test? = head.test?.map (Expr.plain config) := by
  cases head <;> rfl

namespace StatementKind

theorem blocks_plain (kind : StatementKind) :
    (kind.plain config).blocks = kind.blocks.map (Block.plain config) := by
  cases kind with
  | branch condition yes no => cases no <;> simp [blocks]
  | switch subject arms otherwise => cases otherwise <;> simp [blocks, Arm.plain]
  | _ => simp [blocks]

theorem headers_plain (kind : StatementKind) :
    (kind.plain config).headers = kind.headers.map (Statement.plain config) := by
  cases kind <;> simp [headers, LoopHead.statements_plain]

theorem tests_plain (kind : StatementKind) :
    (kind.plain config).tests = kind.tests.map (Expr.plain config) := by
  cases kind with
  | loop label head body => cases h : head.test? <;> simp [tests, LoopHead.test?_plain, h]
  | _ => simp [tests, Arm.plain]

@[simp] theorem isWait_plain (kind : StatementKind) : (kind.plain config).isWait = kind.isWait := by
  cases kind <;> simp [isWait]

@[simp] theorem isJump_plain (kind : StatementKind) : (kind.plain config).isJump = kind.isJump := by
  cases kind <;> simp [isJump]

@[simp] theorem isLoop_plain (kind : StatementKind) : (kind.plain config).isLoop = kind.isLoop := by
  cases kind <;> simp [isLoop]

@[simp] theorem isNest_plain (kind : StatementKind) : (kind.plain config).isNest = kind.isNest := by
  cases kind <;> simp [isNest]

@[simp] theorem isSimple_plain (kind : StatementKind) :
    (kind.plain config).isSimple = kind.isSimple := by
  cases kind <;> simp [isSimple]

theorem plain_eq_jump {kind : StatementKind} {k : JumpKind} {label : Option Ident}
    (h : kind.plain config = .jump k label) : kind = .jump k label := by
  cases kind <;> simp_all

theorem plain_eq_wait {kind : StatementKind} {body : Block}
    (h : kind.plain config = .wait body) : ∃ b, kind = .wait b ∧ b.plain config = body := by
  cases kind <;> simp_all

theorem plain_eq_loop {kind : StatementKind} {label : Option Ident} {head : LoopHead}
    {body : Block} (h : kind.plain config = .loop label head body) :
    ∃ hd b, kind = .loop label hd b ∧ hd.plain config = head ∧ b.plain config = body := by
  cases kind <;> simp_all

end StatementKind

/-- The plain form of a block or statement; other nodes are left alone. -/
def Node.plain : Node → Node
  | .block b => .block (b.plain config)
  | .statement s => .statement (s.plain config)
  | n => n

theorem Node.children_plain (n : Node) :
    (n.plain config).children = n.children.map (Node.plain config) := by
  cases n with
  | block b => simp [plain, children, Function.comp_def]
  | statement s =>
    simp [plain, children, StatementKind.headers_plain, StatementKind.blocks_plain,
      Function.comp_def]
  | _ => rfl

@[simp] theorem Node.id?_plain (n : Node) : (n.plain config).id? = n.id? := by
  cases n <;> simp [plain, id?]

/-- The nodes of plain code are the plain nodes of the code, as far as they carry ids. -/
theorem Node.mem_ownNodes_plain {n m : Node} {i : NodeId} (hi : m.id? = some i) :
    m ∈ (n.plain config).ownNodes ↔ ∃ k ∈ n.ownNodes, k.plain config = m := by
  induction n using Node.inductOn with
  | step n ih =>
    rw [mem_ownNodes hi, children_plain]
    constructor
    · rintro (rfl | ⟨c, hc, hm⟩)
      · exact ⟨n, n.self_mem_ownNodes, rfl⟩
      · obtain ⟨d, hd, rfl⟩ := List.mem_map.mp hc
        obtain ⟨k, hk, same⟩ := (ih d hd).mp hm
        exact ⟨k, ownNodes_of_child hd hk, same⟩
    · rintro ⟨k, hk, rfl⟩
      rw [id?_plain] at hi
      rcases (mem_ownNodes hi).mp hk with rfl | ⟨c, hc, hkc⟩
      · exact .inl rfl
      · exact .inr ⟨_, List.mem_map_of_mem hc, (ih c hc).mpr ⟨k, hkc, rfl⟩⟩

/-- The ids of plain code are those of the code. -/
theorem Node.ownIds_plain (n : Node) : (n.plain config).ownIds.Perm n.ownIds := by
  induction n using Node.inductOn with
  | step n ih =>
    have children : ((n.plain config).children.flatMap ownIds).Perm
        (n.children.flatMap ownIds) := by
      rw [children_plain, List.flatMap_map]
      exact List.Perm.flatMap_left _ ih
    cases n with
    | block b =>
      rw [plain, ownIds_block, ownIds_block, Block.plain_id]
      exact children.cons _
    | statement s =>
      apply (ownIds_statement _).trans
      rw [Statement.plain_id]
      exact (children.cons _).trans (ownIds_statement s).symm
    | _ => exact .refl _

/-- Code with one plain form has the same ways down. -/
theorem Node.Path.of_plain_eq {n n' m : Node} {p : List Node} (path : Path n p m)
    (same : n'.plain config = n.plain config) : ∃ p' m', Path n' p' m' ∧
      p'.map (Node.plain config) = p.map (Node.plain config) ∧
      m'.plain config = m.plain config := by
  induction path generalizing n' with
  | here n => exact ⟨[n'], n', .here n', by simp [same], same⟩
  | @down n c m p child rest ih =>
    have mem : c.plain config ∈ (n'.plain config).children := by
      rw [same, children_plain]
      exact List.mem_map_of_mem child
    rw [children_plain] at mem
    obtain ⟨c', hc', sameChild⟩ := List.mem_map.mp mem
    obtain ⟨p', m', path, way, ends⟩ := ih sameChild
    exact ⟨n' :: p', m', .down hc' path, by simp [same, way], ends⟩

/-! ## A fixed point -/

namespace Expr

theorem isCallbackMethod_plain (e : Expr) :
    (e.plain config).isCallbackMethod config = e.isCallbackMethod config := by
  cases e with
  | member object property span =>
    cases object with
    | call callee arguments span =>
      rw [plain_member, plain_call]
      split <;> rfl
    | _ => rfl
  | call callee arguments span =>
    rw [plain_call]
    split <;> rfl
  | _ => rfl

theorem boundBy_plain (es : List Expr) : boundBy (es.map (plain config)) = boundBy es := by
  match es with
  | [] => rfl
  | [e] =>
    cases e with
    | call callee arguments span =>
      rw [List.map_cons, plain_call]
      split <;> rfl
    | _ => rfl
  | _ :: _ :: _ => simp [boundBy]

theorem callback?_plain (callee : Expr) (arguments : List Expr) :
    callback? config (callee.plain config) (arguments.map (plain config)) =
      callback? config callee arguments := by
  rw [callback?, callback?, isCallbackMethod_plain, boundBy_plain]

@[simp] theorem plain_plain (e : Expr) : (e.plain config).plain config = e.plain config := by
  induction e using Expr.inductOn with
  | step e ih =>
    cases e with
    | call callee arguments span =>
      have callee' := ih callee (by simp [operands])
      have arguments' : arguments.map (plain config ∘ plain config) =
          arguments.map (plain config) :=
        List.map_congr_left fun a ha => ih a (by simp [operands, ha])
      rw [plain_call]
      split
      · rfl
      · rename_i noCallback
        rw [plain_call, callback?_plain, noCallback, callee', List.map_map, arguments']
    | unary op operand span => simp [ih operand (by simp [operands])]
    | binary op left right span =>
      simp [ih left (by simp [operands]), ih right (by simp [operands])]
    | member object property span => simp [ih object (by simp [operands])]
    | _ => rfl

end Expr

theorem StatementKind.plain_of_parts {kind : StatementKind}
    (headers : ∀ h ∈ kind.headers, (h.plain config).plain config = h.plain config)
    (blocks : ∀ b ∈ kind.blocks, (b.plain config).plain config = b.plain config) :
    (kind.plain config).plain config = kind.plain config := by
  have exprs : Expr.plain config ∘ Expr.plain config = Expr.plain config :=
    funext (Expr.plain_plain config)
  cases kind with
  | declare name init => cases init <;> simp
  | branch condition yes no =>
    have yes' := blocks yes (by simp [StatementKind.blocks])
    cases no with
    | none => simp [yes']
    | some no => simp [yes', blocks no (by simp [StatementKind.blocks])]
  | switch subject arms otherwise =>
    have arms' : arms.map (Arm.plain config ∘ Arm.plain config) = arms.map (Arm.plain config) := by
      apply List.map_congr_left
      intro a ha
      have := blocks a.body (by simp only [StatementKind.blocks]; grind)
      simp [Arm.plain, this]
    cases otherwise with
    | none => simp [arms']
    | some b => simp [arms', blocks b (by simp [StatementKind.blocks])]
  | loop label head body =>
    rw [plain_loop, plain_loop, blocks body (by simp [StatementKind.blocks])]
    cases head with
    | counting init test update =>
      cases init <;> cases update <;>
        simp_all [LoopHead.plain, StatementKind.headers, LoopHead.statements]
    | whileDo _ => simp [LoopHead.plain]
    | doWhile _ => simp [LoopHead.plain]
  | block body | wait body => simp [blocks body (by simp [StatementKind.blocks])]
  | ret value => simp [exprs]
  | _ => simp

theorem Statement.plain_plain (s : Statement) : (s.plain config).plain config = s.plain config := by
  induction s using Statement.inductOn
    (P := fun b : Block => (b.plain config).plain config = b.plain config) with
  | block b ih =>
    have statements := List.map_congr_left ih
    simp only [Block.plain_eq, List.map_map, Function.comp_def, statements]
  | statement s headers blocks =>
    simp only [Statement.plain_eq, StatementKind.plain_of_parts config headers blocks]

/-! ## Hoisting -/

theorem Statement.listUndeclared_eq (ss : List Statement) :
    Statement.listUndeclared ss = ss.map Statement.undeclared := by
  induction ss with
  | nil => rfl
  | cons s ss ih => rw [List.map_cons, ← ih]; rfl

theorem Arm.listUndeclared_eq (arms : List Arm) :
    Arm.listUndeclared arms = arms.map fun a => ⟨a.test, a.body.undeclared, a.span⟩ := by
  induction arms with
  | nil => rfl
  | cons a arms ih => obtain ⟨test, body, span⟩ := a; rw [List.map_cons, ← ih]; rfl

theorem Block.undeclared_eq (b : Block) :
    b.undeclared = ⟨b.id, b.statements.map Statement.undeclared, b.span⟩ := by
  obtain ⟨id, statements, span⟩ := b
  rw [← Statement.listUndeclared_eq]
  rfl

theorem Statement.undeclared_eq (s : Statement) :
    s.undeclared = ⟨s.id, s.kind.undeclared, s.span⟩ := by
  obtain ⟨id, kind, span⟩ := s
  rfl

theorem StatementKind.plain_undeclared_of_parts {kind : StatementKind}
    (headers : ∀ h ∈ kind.headers, h.undeclared.plain config = h.plain config)
    (blocks : ∀ b ∈ kind.blocks, b.undeclared.plain config = b.plain config) :
    kind.undeclared.plain config = kind.plain config := by
  cases kind with
  | declare name init => cases init <;> simp [undeclared, assigning]
  | branch condition yes no =>
    have yes' := blocks yes (by simp [StatementKind.blocks])
    cases no with
    | none => simp [undeclared, yes']
    | some no => simp [undeclared, yes', blocks no (by simp [StatementKind.blocks])]
  | switch subject arms otherwise =>
    have arms' : (Arm.listUndeclared arms).map (Arm.plain config) =
        arms.map (Arm.plain config) := by
      rw [Arm.listUndeclared_eq, List.map_map]
      apply List.map_congr_left
      intro a ha
      have := blocks a.body (by simp only [StatementKind.blocks]; grind)
      simp [Arm.plain, this]
    cases otherwise with
    | none => simp [undeclared, arms']
    | some b => simp [undeclared, arms', blocks b (by simp [StatementKind.blocks])]
  | loop label head body =>
    have body' := blocks body (by simp [StatementKind.blocks])
    cases head with
    | counting init test update =>
      cases init <;> cases update <;>
        simp_all [undeclared, LoopHead.plain, StatementKind.headers, LoopHead.statements]
    | whileDo _ => simp [undeclared, body']
    | doWhile _ => simp [undeclared, body']
  | block body | wait body => simp [undeclared, blocks body (by simp [StatementKind.blocks])]
  | _ => simp [undeclared]

theorem Block.plain_undeclared (b : Block) : b.undeclared.plain config = b.plain config := by
  induction b using Block.inductOn
    (Q := fun s : Statement => s.undeclared.plain config = s.plain config) with
  | block b ih =>
    have statements := List.map_congr_left ih
    simp only [Block.plain_eq, Block.undeclared_eq, List.map_map, Function.comp_def, statements]
  | statement s headers blocks =>
    simp only [Statement.plain_eq, Statement.undeclared_eq,
      StatementKind.plain_undeclared_of_parts config headers blocks]

end

end WaitDefer
