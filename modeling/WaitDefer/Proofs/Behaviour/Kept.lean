import WaitDefer.Proofs.Behaviour.Threads
import WaitDefer.Proofs.Marking.Ready

/-!
# Code that is left as it is

What a thread does next where it runs code of the user's:

* `Task.move_of_closed`: code in which every jump is caught does not get stuck, and stays so;
* `Task.move_plain`: what is done shows in the plain form of the code;
* `Task.move_append`: it does not depend on what is to be done later.
-/

namespace WaitDefer

/-! ## Ways to go on -/

namespace Move

/-- Whatever may be left to be done after a move. -/
def Every (p : List Task → Prop) : Move → Prop
  | go todo | event _ todo | declare _ _ todo | create _ todo | call _ todo | wait _ _ todo =>
    p todo
  | choose _ yes no => p yes ∧ p no
  | leave _ => True

/-- A move that has nothing to do with made-up names. -/
def isOwn : Move → Bool
  | go _ | event .. | choose .. | leave _ => true
  | declare .. | create .. | call .. | wait .. => false

theorem every_map {p : List Task → Prop} {f : List Task → List Task} {m : Move} :
    (m.map f).Every p ↔ m.Every fun todo => p (f todo) := by
  cases m <;> rfl

theorem Every.mono {p q : List Task → Prop} {m : Move} (h : m.Every p)
    (pq : ∀ todo, p todo → q todo) : m.Every q := by
  cases m with
  | choose e yes no => exact ⟨pq _ h.1, pq _ h.2⟩
  | leave e => trivial
  | _ => exact pq _ h

@[simp] theorem isOwn_map (f : List Task → List Task) (m : Move) : (m.map f).isOwn = m.isOwn := by
  cases m <;> rfl

@[simp] theorem map_map (f g : List Task → List Task) (m : Move) :
    (m.map f).map g = m.map (g ∘ f) := by
  cases m <;> rfl

end Move

/-! ## Known code -/

/-- The reading tells which statements of a node's own code hold no other one. -/
def Node.Known (r : Reading) (n : Node) : Prop :=
  ∀ x, .statement x ∈ n.ownNodes → r.given x.id = x.kind.isLeaf

/-- The blocks and statements of what is to be done. -/
def Task.code : Task → List Node
  | .statements ss => ss.map .statement
  | .switch arms otherwise => (arms.map Arm.body ++ otherwise.toList).map .block
  | .test loop | .around loop => loop.head.statements.map .statement ++ [.block loop.body]

def Task.Known (r : Reading) (k : Task) : Prop := ∀ n ∈ k.code, n.Known r

@[simp] theorem StatementKind.isLeaf_plain (config : Config) (kind : StatementKind) :
    (kind.plain config).isLeaf = kind.isLeaf := by
  cases kind <;> simp [isLeaf]

section
variable {r : Reading}

namespace Node

theorem Known.of_child {n c : Node} (h : n.Known r) (hc : c ∈ n.children) : c.Known r :=
  fun x hx => h x (ownNodes_of_child hc hx)

theorem Known.given {s : Statement} (h : (Node.statement s).Known r) :
    r.given s.id = s.kind.isLeaf := h s (self_mem_ownNodes _)

theorem Known.header {s x : Statement} (h : (Node.statement s).Known r)
    (hx : x ∈ s.kind.headers) : (Node.statement x).Known r :=
  h.of_child (List.mem_append_left _ (List.mem_map_of_mem hx))

theorem Known.block {s : Statement} {b : Block} (h : (Node.statement s).Known r)
    (hb : b ∈ s.kind.blocks) : (Node.block b).Known r :=
  h.of_child (List.mem_append_right _ (List.mem_map_of_mem hb))

theorem Known.of_plain_eq {n k : Node} {config : Config} (h : n.Known r)
    (same : k.plain config = n.plain config) : k.Known r := by
  intro x hx
  have inPlain := (mem_ownNodes_plain config (m := (Node.statement x).plain config)
    rfl).mpr ⟨_, hx, rfl⟩
  rw [same] at inPlain
  obtain ⟨y, hy, eq⟩ := (mem_ownNodes_plain config rfl).mp inPlain
  cases y with
  | statement y =>
    have eq : y.plain config = x.plain config := by simpa [plain] using eq
    have known := h y hy
    rw [← Statement.plain_id config y, eq, Statement.plain_id] at known
    rw [known, ← StatementKind.isLeaf_plain config y.kind, ← Statement.plain_kind, eq]
    simp
  | _ => cases eq

end Node

namespace Task

theorem known_block {b : Block} (h : (Node.block b).Known r) : (block b).Known r :=
  fun _ hn => h.of_child hn

theorem known_single {s : Statement} (h : (Node.statement s).Known r) : (single s).Known r := by
  intro n hn
  rw [List.mem_singleton.mp hn]
  exact h

end Task

namespace Rounds

theorem known_round {l : Rounds} (h : (Task.around l).Known r) : ∀ k ∈ l.round, k.Known r := by
  intro k hk
  rcases List.mem_pair.mp hk with rfl | rfl
  · exact Task.known_block (h _ (by simp [Task.code]))
  · exact h

theorem known_headers {l : Rounds} (h : (Task.around l).Known r) {x : Option Statement}
    (hx : ∀ s ∈ x, s ∈ l.head.statements) :
    ∀ k ∈ x.toList.map Task.single ++ [.test l], k.Known r := by
  intro k hk
  rcases List.mem_append.mp hk with hk | hk
  · obtain ⟨s, hs, rfl⟩ := List.mem_map.mp hk
    have inHead := hx s (by simpa using hs)
    exact Task.known_single (h _ (List.mem_append_left _ (List.mem_map_of_mem inHead)))
  · rw [List.mem_singleton.mp hk]
    exact h

theorem update_mem {head : LoopHead} : ∀ s ∈ head.update?, s ∈ head.statements := by
  cases head <;> simp +contextual [LoopHead.update?, LoopHead.statements]

theorem known_next {l : Rounds} (h : (Task.around l).Known r) : ∀ k ∈ l.next, k.Known r :=
  known_headers h update_mem

theorem known_start {l : Rounds} (h : (Task.around l).Known r) : ∀ k ∈ l.start, k.Known r := by
  obtain ⟨label, head, body⟩ := l
  cases head with
  | whileDo _ => exact fun k hk => (List.mem_singleton.mp hk) ▸ h
  | doWhile _ => exact known_round h
  | counting init _ _ => exact known_headers h (by simp +contextual [LoopHead.statements])

end Rounds

/-! ## What statements do -/

namespace Statement

variable {s : Statement}

theorem move_block {body : Block} (h : s.kind = .block body) :
    s.move r = some (.go [.block body]) := by
  rw [move, h]

theorem move_wait {body : Block} (h : s.kind = .wait body) :
    s.move r = some (.go [.block body]) := by
  rw [move, h]

theorem move_branch {condition : Expr} {yes : Block} {no : Option Block}
    (h : s.kind = .branch condition yes no) : s.move r =
      some (.choose (condition.plain r.config) [.block yes] (no.toList.map .block)) := by
  rw [move, h]

theorem move_switch {subject : Expr} {arms : List Arm} {otherwise : Option Block}
    (h : s.kind = .switch subject arms otherwise) : s.move r =
      some (.event (.ask (subject.plain r.config)) [.switch arms otherwise]) := by
  rw [move, h]

theorem move_loop {label : Option Ident} {head : LoopHead} {body : Block}
    (h : s.kind = .loop label head body) :
    s.move r = some (.go (Rounds.start ⟨label, head, body⟩)) := by
  rw [move, h]

end Statement

/-! ## What is done by known code -/

namespace Task

theorem known_blocks {b : Option Block} (h : ∀ x ∈ b, (Node.block x).Known r) :
    ∀ k ∈ b.toList.map block, k.Known r := by
  intro k hk
  obtain ⟨x, hx, rfl⟩ := List.mem_map.mp hk
  exact known_block (h x (by simpa using hx))

/-- What a jump leaves to be done was to be done before. -/
theorem jump_suffix {kind : JumpKind} {label : Option Ident} {todo rest : List Task}
    (h : jump kind label todo = some rest) : rest <:+ todo := by
  induction todo with
  | nil => cases h
  | cons k todo ih =>
    cases k with
    | around loop =>
      rw [jump] at h
      split at h
      · cases h
        cases kind with
        | leave => exact List.suffix_cons _ _
        | resume => exact List.suffix_refl _
      · exact (ih h).trans (List.suffix_cons _ _)
    | _ => exact (ih h).trans (List.suffix_cons _ _)

/-- A statement that is no jump puts something before the rest. -/
theorem move_statement {s : Statement} (notJump : s.kind.isJump = false) (ss : List Statement)
    (todo : List Task) : move r (.statements (s :: ss) :: todo) =
      (s.move r).map (.map (· ++ .statements ss :: todo)) := by
  rw [move]
  split
  · rename_i isJump
    simp [isJump, StatementKind.isJump] at notJump
  · rfl

theorem move_of_statement {s : Statement} {m : Move} (notJump : s.kind.isJump = false)
    (moved : s.move r = some m) (ss : List Statement) (todo : List Task) :
    move r (.statements (s :: ss) :: todo) = some (m.map (· ++ .statements ss :: todo)) := by
  rw [move_statement notJump, moved]
  rfl

theorem move_jump {s : Statement} {kind : JumpKind} {label : Option Ident}
    (isJump : s.kind = .jump kind label) (ss : List Statement) (todo : List Task) :
    move r (.statements (s :: ss) :: todo) = (jump kind label todo).map .go := by
  rw [move, isJump]

end Task

theorem StatementKind.exists_of_isJump {kind : StatementKind} (h : kind.isJump = true) :
    ∃ k label, kind = .jump k label := by
  cases kind with
  | jump k label => exact ⟨k, label, rfl⟩
  | _ => cases h

/-- A statement of the user's has a move, which has nothing to do with made-up names. -/
theorem Statement.move_of_known {s : Statement} (known : (Node.statement s).Known r)
    (notJump : s.kind.isJump = false) :
    ∃ m, s.move r = some m ∧ m.isOwn = true ∧ m.Every fun todo => ∀ k ∈ todo, k.Known r := by
  have given := known.given
  have header := fun x => known.header (x := x)
  have block := fun b => known.block (b := b)
  obtain ⟨id, kind, span⟩ := s
  cases kind with
  | declare | assign | expr | func =>
    exact ⟨_, if_pos given, rfl, List.forall_mem_nil _⟩
  | ret value =>
    cases value with
    | none => exact ⟨_, rfl, rfl, trivial⟩
    | some e => exact ⟨_, if_pos given, rfl, trivial⟩
  | block body | wait body =>
    have inside := Task.known_block (block body (by simp [StatementKind.blocks]))
    exact ⟨_, rfl, rfl, List.forall_mem_singleton.mpr inside⟩
  | branch condition yes no =>
    have inYes := Task.known_block (block yes (by simp [StatementKind.blocks]))
    have inNo := Task.known_blocks fun b (hb : b ∈ no) =>
      block b (by simp [StatementKind.blocks, Option.mem_def.mp hb])
    exact ⟨_, rfl, rfl, List.forall_mem_singleton.mpr inYes, inNo⟩
  | switch subject arms otherwise =>
    have inside : (Task.switch arms otherwise).Known r := by
      intro n hn
      obtain ⟨b, hb, rfl⟩ := List.mem_map.mp hn
      exact block b hb
    exact ⟨_, rfl, rfl, List.forall_mem_singleton.mpr inside⟩
  | loop label head body =>
    have inside : (Task.around ⟨label, head, body⟩).Known r := by
      intro n hn
      rcases List.mem_append.mp hn with hn | hn
      · obtain ⟨x, hx, rfl⟩ := List.mem_map.mp hn
        exact header x hx
      · rw [List.mem_singleton.mp hn]
        exact block body (by simp [StatementKind.blocks])
    exact ⟨_, rfl, rfl, Rounds.known_start inside⟩
  | jump => cases notJump

/-- A move of known code has nothing to do with made-up names, and the code stays known. -/
theorem Task.move_of_known {todo : List Task} (known : ∀ k ∈ todo, k.Known r) {m : Move}
    (h : move r todo = some m) : m.isOwn = true ∧ m.Every fun todo => ∀ k ∈ todo, k.Known r := by
  cases todo with
  | nil =>
    cases h
    exact ⟨rfl, trivial⟩
  | cons k todo =>
    obtain ⟨first, rest⟩ := List.forall_mem_cons.mp known
    cases k with
    | statements ss =>
      cases ss with
      | nil =>
        cases h
        exact ⟨rfl, rest⟩
      | cons s ss =>
        have later : (statements ss).Known r := fun n hn => first n (List.mem_cons_of_mem _ hn)
        cases isJump : s.kind.isJump with
        | true =>
          obtain ⟨kind, label, isJump⟩ := StatementKind.exists_of_isJump isJump
          rw [move_jump isJump, Option.map_eq_some_iff] at h
          obtain ⟨left, jumped, rfl⟩ := h
          exact ⟨rfl, fun k hk => rest k ((jump_suffix jumped).subset hk)⟩
        | false =>
          have known : (Node.statement s).Known r := first _ List.mem_cons_self
          obtain ⟨n, moved, own, every⟩ := Statement.move_of_known known isJump
          rw [move_statement isJump, moved] at h
          cases h
          exact ⟨by simpa using own, Move.every_map.mpr (every.mono fun way hway =>
            List.forall_mem_append.mpr ⟨hway, List.forall_mem_cons.mpr ⟨later, rest⟩⟩)⟩
    | switch arms otherwise =>
      cases arms with
      | nil =>
        cases h
        have last := known_blocks (r := r) fun b (hb : b ∈ otherwise) =>
          first (.block b) (by simp [code, Option.mem_def.mp hb])
        exact ⟨rfl, List.forall_mem_append.mpr ⟨last, rest⟩⟩
      | cons a arms =>
        cases h
        have here : (block a.body).Known r := known_block (first (.block a.body) (by simp [code]))
        have others : (switch arms otherwise).Known r :=
          fun n hn => first n (List.mem_cons_of_mem _ hn)
        exact ⟨rfl, List.forall_mem_cons.mpr ⟨here, rest⟩, List.forall_mem_cons.mpr ⟨others, rest⟩⟩
    | test loop =>
      have round := List.forall_mem_append.mpr ⟨Rounds.known_round first, rest⟩
      cases test : loop.head.test? with
      | none =>
        rw [move, test] at h
        cases h
        exact ⟨rfl, round⟩
      | some condition =>
        rw [move, test] at h
        cases h
        exact ⟨rfl, round, rest⟩
    | around loop =>
      cases h
      exact ⟨rfl, List.forall_mem_append.mpr ⟨Rounds.known_next first, rest⟩⟩

end

/-! ## Plain code -/

section
variable (config : Config)

namespace Rounds

/-- The loop in plain form. -/
def plain (l : Rounds) : Rounds := ⟨l.label, l.head.plain config, l.body.plain config⟩

end Rounds

/-- What is to be done, in plain form. -/
def Task.plain : Task → Task
  | .statements ss => .statements (ss.map (Statement.plain config))
  | .switch arms otherwise =>
    .switch (arms.map (Arm.plain config)) (otherwise.map (Block.plain config))
  | .test loop => .test (loop.plain config)
  | .around loop => .around (loop.plain config)

/-- A move, with what is to be done after it in plain form. -/
def Move.plain (m : Move) : Move := m.map (List.map (Task.plain config))

namespace Task

@[simp] theorem plain_statements (ss : List Statement) :
    (statements ss).plain config = .statements (ss.map (Statement.plain config)) := rfl

@[simp] theorem plain_switch (arms : List Arm) (otherwise : Option Block) :
    (switch arms otherwise).plain config =
      .switch (arms.map (Arm.plain config)) (otherwise.map (Block.plain config)) := rfl

@[simp] theorem plain_test (l : Rounds) : (test l).plain config = .test (l.plain config) := rfl

@[simp] theorem plain_around (l : Rounds) : (around l).plain config = .around (l.plain config) :=
  rfl

@[simp] theorem plain_block (b : Block) : (block b).plain config = .block (b.plain config) := by
  simp [block]

@[simp] theorem plain_single (s : Statement) :
    (single s).plain config = .single (s.plain config) := rfl

end Task

theorem LoopHead.update?_plain (head : LoopHead) :
    (head.plain config).update? = head.update?.map (Statement.plain config) := by
  cases head <;> rfl

namespace Rounds

theorem catches_plain (l : Rounds) (label : Option Ident) :
    (l.plain config).catches label = l.catches label := rfl

theorem round_plain (l : Rounds) : (l.plain config).round = l.round.map (Task.plain config) := by
  simp [round, plain]

theorem next_plain (l : Rounds) : (l.plain config).next = l.next.map (Task.plain config) := by
  have update : (l.plain config).head.update? = l.head.update?.map (Statement.plain config) :=
    LoopHead.update?_plain config l.head
  cases h : l.head.update? <;> simp [next, update, h]

theorem start_plain (l : Rounds) : (l.plain config).start = l.start.map (Task.plain config) := by
  obtain ⟨label, head, body⟩ := l
  cases head with
  | whileDo _ => rfl
  | doWhile _ => exact round_plain config _
  | counting init _ _ => cases init <;> rfl

theorem after_plain (l : Rounds) (todo : List Task) (kind : JumpKind) :
    (l.plain config).after (todo.map (Task.plain config)) kind =
      (l.after todo kind).map (Task.plain config) := by
  cases kind <;> rfl

end Rounds

theorem Task.jump_plain (kind : JumpKind) (label : Option Ident) (todo : List Task) :
    jump kind label (todo.map (plain config)) =
      (jump kind label todo).map (List.map (plain config)) := by
  induction todo with
  | nil => rfl
  | cons k todo ih =>
    cases k with
    | around loop =>
      rw [List.map_cons, plain_around, jump, jump, Rounds.catches_plain, Rounds.after_plain, ih]
      split <;> rfl
    | _ => exact ih

end

section
variable {r : Reading}

/-- What a statement of the user's does shows in its plain form. -/
theorem Statement.move_plain {s : Statement} (known : (Node.statement s).Known r) :
    (s.plain r.config).move r = (s.move r).map (Move.plain r.config) := by
  have given := known.given
  have fixed := s.plain_plain r.config
  obtain ⟨id, kind, span⟩ := s
  rw [Statement.plain_eq] at fixed ⊢
  cases kind with
  | declare | assign | expr | func =>
    simp_all [move, StatementKind.isLeaf, Move.plain, Move.map, Statement.plain_eq]
  | ret value =>
    cases value <;>
      simp_all [move, StatementKind.isLeaf, Move.plain, Move.map, Statement.plain_eq]
  | branch condition yes no =>
    cases no <;> simp [move, Move.plain, Move.map]
  | loop label head body =>
    rw [StatementKind.plain_loop]
    exact congrArg (some ∘ Move.go) (Rounds.start_plain r.config ⟨label, head, body⟩)
  | _ => simp [move, Move.plain, Move.map]

/-- What is done by known code shows in its plain form. -/
theorem Task.move_plain {todo : List Task} (known : ∀ k ∈ todo, k.Known r) :
    move r (todo.map (plain r.config)) = (move r todo).map (Move.plain r.config) := by
  cases todo with
  | nil => rfl
  | cons k todo =>
    obtain ⟨first, rest⟩ := List.forall_mem_cons.mp known
    cases k with
    | statements ss =>
      cases ss with
      | nil => rfl
      | cons s ss =>
        cases isJump : s.kind.isJump with
        | true =>
          obtain ⟨kind, label, isJump⟩ := StatementKind.exists_of_isJump isJump
          have plainJump : (s.plain r.config).kind = .jump kind label := by simp [isJump]
          rw [move_jump isJump, List.map_cons, plain_statements, List.map_cons,
            move_jump plainJump, jump_plain]
          cases jump kind label todo <;> rfl
        | false =>
          have known : (Node.statement s).Known r := first _ List.mem_cons_self
          rw [move_statement isJump, List.map_cons, plain_statements, List.map_cons,
            move_statement (by simpa using isJump), Statement.move_plain known]
          cases s.move r <;> simp [Move.plain, Function.comp_def]
    | switch arms otherwise =>
      cases arms with
      | nil => cases otherwise <;> simp [move, Move.plain, Move.map]
      | cons a arms => simp [move, Move.plain, Move.map, Arm.plain]
    | test loop =>
      have same : (loop.plain r.config).head.test? = loop.head.test?.map (Expr.plain r.config) :=
        LoopHead.test?_plain r.config loop.head
      cases test : loop.head.test? <;>
        simp [move, same, test, Rounds.round_plain, Move.plain, Move.map]
    | around loop => simp [move, Rounds.next_plain, Move.plain, Move.map]

theorem Block.map_plain_eq {config : Config} {b b' : Block} (h : b.plain config = b'.plain config) :
    b.statements.map (Statement.plain config) = b'.statements.map (Statement.plain config) := by
  simpa using congrArg Block.statements h

namespace StatementKind

theorem plain_eq_block {config : Config} {kind : StatementKind} {body : Block}
    (h : kind.plain config = .block body) : ∃ b, kind = .block b ∧ b.plain config = body := by
  cases kind <;> simp_all

theorem plain_eq_branch {config : Config} {kind : StatementKind} {condition : Expr} {yes : Block}
    {no : Option Block} (h : kind.plain config = .branch condition yes no) :
    ∃ c y n, kind = .branch c y n ∧ c.plain config = condition ∧ y.plain config = yes ∧
      n.map (Block.plain config) = no := by
  cases kind <;> simp_all

theorem plain_eq_switch {config : Config} {kind : StatementKind} {subject : Expr}
    {arms : List Arm} {otherwise : Option Block}
    (h : kind.plain config = .switch subject arms otherwise) :
    ∃ s as o, kind = .switch s as o ∧ s.plain config = subject ∧
      as.map (Arm.plain config) = arms ∧ o.map (Block.plain config) = otherwise := by
  cases kind <;> simp_all

end StatementKind

theorem Task.code_plain (config : Config) (k : Task) :
    (k.plain config).code = k.code.map (Node.plain config) := by
  cases k with
  | switch arms otherwise => cases otherwise <;> simp [code, Node.plain, Arm.plain]
  | _ => simp [code, Node.plain, Rounds.plain, LoopHead.statements_plain]

/-- Whether code is known shows in its plain form. -/
theorem Task.known_of_plain_eq {todo₀ todo : List Task} (known : ∀ k ∈ todo₀, k.Known r)
    (same : todo₀.map (plain r.config) = todo.map (plain r.config)) : ∀ k ∈ todo, k.Known r := by
  intro k hk n hn
  have mem := List.mem_map_of_mem (f := plain r.config) hk
  rw [← same] at mem
  obtain ⟨k₀, hk₀, eq⟩ := List.mem_map.mp mem
  have inCode := List.mem_map_of_mem (f := Node.plain r.config) hn
  rw [← code_plain, ← eq, code_plain] at inCode
  obtain ⟨n₀, hn₀, eq⟩ := List.mem_map.mp inCode
  exact (known k₀ hk₀ n₀ hn₀).of_plain_eq eq.symm

/-! ## What is to be done later -/

namespace Task

theorem jump_append {kind : JumpKind} {label : Option Ident} {todo left : List Task}
    (h : jump kind label todo = some left) (more : List Task) :
    jump kind label (todo ++ more) = some (left ++ more) := by
  induction todo with
  | nil => cases h
  | cons k todo ih =>
    cases k with
    | around loop =>
      rw [List.cons_append, jump]
      rw [jump] at h
      split at h
      · cases h
        rw [if_pos ‹_›]
        cases kind <;> rfl
      · rw [if_neg ‹_›, ih h]
    | _ => exact ih h

/-- What is done does not depend on what is to be done later. -/
theorem move_append {k : Task} {todo : List Task} {m : Move} (h : move r (k :: todo) = some m)
    (more : List Task) : move r (k :: todo ++ more) = some (m.map (· ++ more)) := by
  rw [List.cons_append]
  cases k with
  | statements ss =>
    cases ss with
    | nil => cases h; rfl
    | cons s ss =>
      cases isJump : s.kind.isJump with
      | true =>
        obtain ⟨kind, label, isJump⟩ := StatementKind.exists_of_isJump isJump
        rw [move_jump isJump, Option.map_eq_some_iff] at h
        obtain ⟨left, jumped, rfl⟩ := h
        rw [move_jump isJump, jump_append jumped]
        rfl
      | false =>
        rw [move_statement isJump, Option.map_eq_some_iff] at h
        obtain ⟨n, moved, rfl⟩ := h
        rw [move_statement isJump, moved]
        simp [Function.comp_def]
  | switch arms otherwise =>
    cases arms <;> cases h <;> simp [move, Move.map]
  | test loop =>
    rw [move] at h ⊢
    split at h <;> cases h <;> simp [Move.map]
  | around loop => cases h; simp [move, Move.map]

end Task

/-! ## Closed code -/

theorem Rounds.catches_iff {loop : Rounds} {label : Option Ident} :
    loop.catches label = true ↔ ∀ l ∈ label, loop.label.map Ident.name = some l.name := by
  cases label <;> simp [catches]

namespace Task

/-- The labels of the loops that are being run. -/
def labels : List Task → List (Option String)
  | [] => []
  | around loop :: todo => loop.label.map Ident.name :: labels todo
  | _ :: todo => labels todo

/-- Every jump in what is to be done is caught by a loop inside, or by one of those around. -/
def Closed (outer : List (Option String)) : Task → Prop
  | statements ss => ∀ s ∈ ss, (Node.statement s).Closed outer
  | switch arms otherwise =>
    ∀ b ∈ arms.map Arm.body ++ otherwise.toList, (Node.block b).Closed outer
  | test loop | around loop => (∀ h ∈ loop.head.statements, h.kind.isSimple = true) ∧
    (Node.block loop.body).Closed (loop.label.map Ident.name :: outer)

/-- Every jump is caught by a loop that is being run, or by one of those around. -/
def AllClosed (outer : List (Option String)) : List Task → Prop
  | [] => True
  | k :: todo => k.Closed (labels todo ++ outer) ∧ AllClosed outer todo

theorem labels_append (todo more : List Task) :
    labels (todo ++ more) = labels todo ++ labels more := by
  induction todo with
  | nil => rfl
  | cons k todo ih => cases k <;> simp [labels, ih]

theorem allClosed_append {outer : List (Option String)} {todo more : List Task} :
    AllClosed outer (todo ++ more) ↔
      AllClosed (labels more ++ outer) todo ∧ AllClosed outer more := by
  induction todo with
  | nil => simp [AllClosed]
  | cons k todo ih => simp [AllClosed, ih, labels_append, and_assoc]

theorem AllClosed.suffix {outer : List (Option String)} {todo left : List Task}
    (h : AllClosed outer todo) (suffix : left <:+ todo) : AllClosed outer left := by
  obtain ⟨before, rfl⟩ := suffix
  exact (allClosed_append.mp h).2

/-- A jump that is caught leads to a loop that is being run. -/
theorem jump_of_caught (kind : JumpKind) {label : Option Ident} {todo : List Task}
    (caught : Caught label (labels todo)) : ∃ left, jump kind label todo = some left := by
  induction todo with
  | nil =>
    obtain ⟨own, mem, -⟩ := caught
    cases mem
  | cons k todo ih =>
    cases k with
    | around loop =>
      rw [jump]
      by_cases here : loop.catches label = true
      · exact ⟨_, if_pos here⟩
      · rw [if_neg here]
        obtain ⟨own, mem, same⟩ := caught
        rcases List.mem_cons.mp mem with rfl | mem
        · exact absurd (Rounds.catches_iff.mpr same) here
        · exact ih ⟨own, mem, same⟩
    | _ => exact ih caught

/-! ### Moves of closed code -/

theorem closed_block {outer : List (Option String)} {b : Block}
    (h : (Node.block b).Closed outer) : (block b).Closed outer := by
  cases h with
  | block statements => exact statements

theorem allClosed_blocks {outer : List (Option String)} {b : Option Block}
    (h : ∀ x ∈ b, (Node.block x).Closed outer) : AllClosed outer (b.toList.map block) := by
  cases b with
  | none => trivial
  | some b => exact ⟨closed_block (h b rfl), trivial⟩

end Task

theorem Node.closed_of_isSimple {s : Statement} (simple : s.kind.isSimple = true)
    (outer : List (Option String)) : (Node.statement s).Closed outer := by
  obtain ⟨id, kind, span⟩ := s
  cases kind with
  | declare | assign | expr => exact .other rfl rfl (by simp [StatementKind.blocks])
  | _ => cases simple

namespace Rounds

theorem closed_round {loop : Rounds} {outer : List (Option String)}
    (h : (Task.around loop).Closed outer) : Task.AllClosed outer loop.round :=
  ⟨Task.closed_block h.2, h, trivial⟩

theorem closed_headers {loop : Rounds} {outer : List (Option String)}
    (h : (Task.around loop).Closed outer) {x : Option Statement}
    (hx : ∀ s ∈ x, s ∈ loop.head.statements) :
    Task.AllClosed outer (x.toList.map Task.single ++ [.test loop]) := by
  cases x with
  | none => exact ⟨h, trivial⟩
  | some s =>
    have closed := Node.closed_of_isSimple (h.1 s (hx s rfl))
    exact ⟨List.forall_mem_singleton.mpr (closed _), h, trivial⟩

theorem closed_next {loop : Rounds} {outer : List (Option String)}
    (h : (Task.around loop).Closed outer) : Task.AllClosed outer loop.next :=
  closed_headers h update_mem

theorem closed_start {loop : Rounds} {outer : List (Option String)}
    (h : (Task.around loop).Closed outer) : Task.AllClosed outer loop.start := by
  obtain ⟨label, head, body⟩ := loop
  cases head with
  | whileDo _ => exact ⟨h, trivial⟩
  | doWhile _ => exact closed_round h
  | counting init _ _ => exact closed_headers h (by simp +contextual [LoopHead.statements])

end Rounds

theorem Node.Closed.blocks {s : Statement} {outer : List (Option String)}
    (h : (Node.statement s).Closed outer) (noLoop : s.kind.isLoop = false) :
    ∀ b ∈ s.kind.blocks, (Node.block b).Closed outer := by
  cases h with
  | jump isJump => simp [isJump, StatementKind.blocks]
  | loop isLoop => simp [isLoop, StatementKind.isLoop] at noLoop
  | other notJump notLoop blocks => exact blocks

theorem Node.Closed.around {s : Statement} {label : Option Ident} {head : LoopHead} {body : Block}
    {outer : List (Option String)} (h : (Node.statement s).Closed outer)
    (isLoop : s.kind = .loop label head body) : (Task.around ⟨label, head, body⟩).Closed outer := by
  cases h with
  | jump isJump => simp [isLoop] at isJump
  | loop isLoop' simple body =>
    rw [isLoop] at isLoop'
    cases isLoop'
    exact ⟨simple, body⟩
  | other notJump notLoop blocks => simp [isLoop, StatementKind.isLoop] at notLoop

theorem Node.Closed.caught {s : Statement} {kind : JumpKind} {label : Option Ident}
    {outer : List (Option String)} (h : (Node.statement s).Closed outer)
    (isJump : s.kind = .jump kind label) : Caught label outer := by
  cases h with
  | jump isJump' caught =>
    rw [isJump] at isJump'
    cases isJump'
    exact caught
  | loop isLoop => simp [isJump] at isLoop
  | other notJump => simp [isJump, StatementKind.isJump] at notJump

/-- What a statement puts first is closed if the statement is. -/
theorem Statement.move_of_closed {s : Statement} {outer : List (Option String)}
    (known : (Node.statement s).Known r) (closed : (Node.statement s).Closed outer) {m : Move}
    (h : s.move r = some m) : m.Every (Task.AllClosed outer) := by
  have given := known.given
  have blocks := closed.blocks
  obtain ⟨id, kind, span⟩ := s
  cases kind with
  | block body | wait body =>
    cases h
    exact ⟨Task.closed_block (blocks rfl _ (by simp [StatementKind.blocks])), trivial⟩
  | branch condition yes no =>
    cases h
    refine ⟨⟨Task.closed_block (blocks rfl _ (by simp [StatementKind.blocks])), trivial⟩, ?_⟩
    exact Task.allClosed_blocks fun b hb =>
      blocks rfl b (by simp [StatementKind.blocks, Option.mem_def.mp hb])
  | switch subject arms otherwise =>
    cases h
    exact ⟨blocks rfl, trivial⟩
  | loop label head body =>
    cases h
    exact Rounds.closed_start (closed.around rfl)
  | jump => cases h
  | declare | assign | expr | func =>
    have given : r.given id = true := given
    cases (if_pos given).symm.trans h
    trivial
  | ret value =>
    cases value with
    | none => cases h; trivial
    | some e =>
      have given : r.given id = true := given
      cases (if_pos given).symm.trans h
      trivial

namespace Task

/-- Closed code of the user's has a move, and stays closed. -/
theorem move_of_closed {k : Task} {todo : List Task} (known : ∀ x ∈ k :: todo, x.Known r)
    (closed : AllClosed [] (k :: todo)) :
    ∃ m, move r (k :: todo) = some m ∧ m.Every (AllClosed []) := by
  obtain ⟨first, rest⟩ := closed
  rw [List.append_nil] at first
  have later {front : List Task} (h : AllClosed (labels todo) front) :
      AllClosed [] (front ++ todo) := allClosed_append.mpr ⟨by simpa using h, rest⟩
  have one {x : Task} (h : x.Closed (labels todo)) : AllClosed [] (x :: todo) :=
    ⟨by simpa using h, rest⟩
  cases k with
  | statements ss =>
    cases ss with
    | nil => exact ⟨_, rfl, rest⟩
    | cons s ss =>
      obtain ⟨here, others⟩ := List.forall_mem_cons.mp first
      have others : AllClosed [] (.statements ss :: todo) := one others
      cases isJump : s.kind.isJump with
      | true =>
        obtain ⟨kind, label, isJump⟩ := StatementKind.exists_of_isJump isJump
        obtain ⟨left, jumped⟩ := jump_of_caught kind (here.caught isJump)
        refine ⟨.go left, by rw [move_jump isJump, jumped]; rfl, ?_⟩
        exact rest.suffix (jump_suffix jumped)
      | false =>
        have known : (Node.statement s).Known r := known _ List.mem_cons_self _ List.mem_cons_self
        obtain ⟨m, moved, -⟩ := Statement.move_of_known known isJump
        refine ⟨_, by rw [move_statement isJump, moved]; rfl, Move.every_map.mpr ?_⟩
        exact (Statement.move_of_closed known here moved).mono fun front h =>
          allClosed_append.mpr ⟨by simpa [labels] using h, others⟩
  | switch arms otherwise =>
    cases arms with
    | nil =>
      exact ⟨_, rfl, later (allClosed_blocks fun b hb => first b (by simp [Option.mem_def.mp hb]))⟩
    | cons a arms =>
      obtain ⟨here, others⟩ := List.forall_mem_cons.mp first
      exact ⟨_, rfl, one (closed_block here), one others⟩
  | test loop =>
    have round := later (Rounds.closed_round first)
    rw [move]
    cases loop.head.test? with
    | none => exact ⟨_, rfl, round⟩
    | some condition => exact ⟨_, rfl, round, rest⟩
  | around loop => exact ⟨_, rfl, later (Rounds.closed_next first)⟩

end Task

end

end WaitDefer
