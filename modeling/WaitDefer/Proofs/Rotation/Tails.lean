import WaitDefer.Proofs.Compile.Unit
import WaitDefer.Proofs.Rotation.Lost

/-!
# Routines are called last

Rotated code goes on by calls of routines. Nothing of a routine runs after such a call:

* `Statement.EndsBlock`: what rotation puts at the end of a block, made-up calls and marked
  statements;
* `Node.InPlace`: a block in which nothing but the last statement is or holds such a statement, and
  a loop that holds none;
* `Func.tails_of_rotation`: all nodes of a rotated function are of that kind, routines included;
* `Func.handsOver_last`: so all that lies around a call is the last of its block.
-/

namespace WaitDefer

section
variable (t : MarkTable) (max : NodeId)

/-- What rotation puts at the end of a block: marked statements, and made-up ones that neither
declare nor assign. -/
def Statement.EndsBlock (s : Statement) : Prop :=
  t.hasAny s.id .split = true ∨
    max < s.id ∧ s.kind.introduced = [] ∧ ∀ target value, s.kind ≠ .assign target value

/-- A statement neither ends a block nor holds one that does. -/
def Statement.GoesOn (s : Statement) : Prop :=
  ∀ x, .statement x ∈ (Node.statement s).ownNodes → ¬ x.EndsBlock t max

/-- What ends a block is the last of its block and in no loop. -/
def Node.InPlace : Node → Prop
  | .block b => ∀ s ∈ b.statements.dropLast, s.GoesOn t max
  | .statement s => s.kind.isLoop = true ∨ s.kind.isWait = true → s.GoesOn t max
  | .func _ | .expr _ | .ident _ => True

end

section
variable {config : Config} {t : MarkTable} {max : NodeId}

/-! ## Single statements -/

theorem Statement.goesOn_of_leaf {s : Statement} (headers : s.kind.headers = [])
    (blocks : s.kind.blocks = []) (h : ¬ s.EndsBlock t max) : s.GoesOn t max := by
  intro x hx
  rcases (Node.mem_ownNodes (m := .statement x) (i := x.id) rfl).mp hx with same | ⟨c, hc, -⟩
  · cases same
    exact h
  · simp [Node.children, headers, blocks] at hc

/-- An old statement in which nothing is marked goes on. -/
theorem Statement.goesOn_of_quiet {s : Statement} (quiet : (Node.statement s).Quiet t)
    (old : ∀ i ∈ (Node.statement s).ownIds, i ≤ max) : s.GoesOn t max := by
  rintro x hx (marked | ⟨new, -⟩)
  · simp [MarkTable.hasAny_of_none ((quiet _ hx).2 x.id rfl)] at marked
  · exact absurd new (Nat.not_lt.mpr (old _ (Node.mem_ownIds hx rfl)))

theorem fair_inPlace (t : MarkTable) (max : NodeId) (fresh : NodeId → Prop)
    (unmarked : ∀ i, fresh i → t.get i = .none) :
    Fair (Node.InPlace t max) fresh (Statement.GoesOn t max) where
  block _ last := last
  statement s notWait notLoop _ := by
    rintro (isLoop | isWait)
    · rw [notLoop] at isLoop
      cases isLoop
    · rw [notWait] at isWait
      cases isWait
  expr _ _ := trivial
  ident _ := trivial
  func _ := trivial
  routine i _ _ _ _ _ hi := by
    apply Statement.goesOn_of_leaf rfl rfl
    rintro (marked | ⟨-, names, -⟩)
    · simp [Statement.routineWith, MarkTable.hasAny_of_none (unmarked i hi)] at marked
    · cases names
  counter i _ _ _ hi := by
    apply Statement.goesOn_of_leaf rfl rfl
    rintro (marked | ⟨-, names, -⟩)
    · simp [MarkTable.hasAny_of_none (unmarked i hi)] at marked
    · cases names

theorem Node.Done.inPlace {n : Node} (h : n.Done t) : n.InPlace t max := by
  cases n with
  | block b =>
    intro s hs
    obtain ⟨unmarked, target, value, isAssign⟩ := h s (List.dropLast_subset _ hs)
    apply Statement.goesOn_of_leaf
    · simp [isAssign, StatementKind.headers]
    · simp [isAssign, StatementKind.blocks]
    · rintro (marked | ⟨-, -, notAssign⟩)
      · simp [unmarked] at marked
      · exact notAssign target value isAssign
  | statement s =>
    obtain ⟨target, value, isAssign⟩ := h
    simp [InPlace, isAssign, StatementKind.isLoop, StatementKind.isWait]
  | _ => trivial

/-! ## The code to be rotated -/

/-- Bare code with old ids. -/
structure Node.Old (t : MarkTable) (max : NodeId) (n : Node) : Prop where
  bare : n.Bare t max
  old : ∀ i ∈ n.ownIds, i ≤ max

theorem Node.Old.child {n c : Node} (old : n.Old t max) (hc : c ∈ n.children)
    (bare : c.Bare t max) : c.Old t max := by
  refine ⟨bare, fun i hi => ?_⟩
  obtain ⟨k, hk, ik⟩ := List.mem_filterMap.mp hi
  exact old.old i (mem_ownIds (ownNodes_of_child hc hk) ik)

theorem Node.Old.statement {b : Block} {s : Statement} (old : (Node.block b).Old t max)
    (hs : s ∈ b.statements) : (Node.statement s).Old t max := by
  cases old.bare with
  | block statements => exact old.child (List.mem_map_of_mem hs) (statements s hs)

/-- In an old statement in which nothing is marked everything is in place. -/
theorem Statement.inPlace_of_quiet {s : Statement} (quiet : (Node.statement s).Quiet t)
    (old : (Node.statement s).Old t max) : s.Throughout max (Node.InPlace t max) := by
  have goesOn {x : Statement} (hx : .statement x ∈ s.ownNodes) : x.GoesOn t max := by
    have inside : ∀ k ∈ (Node.statement x).ownNodes, k ∈ (Node.statement s).ownNodes :=
      fun k hk => Node.ownNodes_trans (n := .statement s) hx hk
    apply goesOn_of_quiet fun k hk => quiet k (inside k hk)
    intro i hi
    obtain ⟨k, hk, ik⟩ := List.mem_filterMap.mp hi
    exact old.old i (Node.mem_ownIds (inside k hk) ik)
  intro n hn
  rcases s.own_or_done old.bare (fun k hk => (quiet k hk).1) n hn with ⟨own, -⟩ | done
  · cases n with
    | block b =>
      intro x hx
      have child : Node.statement x ∈ (Node.block b).children :=
        List.mem_map_of_mem (List.dropLast_subset _ hx)
      exact goesOn (Node.ownNodes_trans (n := .statement s) own (Node.child_mem_ownNodes child))
    | statement x => exact fun _ => goesOn own
    | _ => trivial
  · exact done.inPlace

/-- Old code can be woven to code in which everything is in place. -/
theorem weavable_old (config : Config) : Weavable config t max (Node.InPlace t max)
    (Statement.GoesOn t max) fun s => (Node.statement s).Old t max where
  kept s old quiet :=
    ⟨Statement.inPlace_of_quiet quiet old, Statement.goesOn_of_quiet quiet old.old⟩
  tests s old notWait e he n hn :=
    ((old.bare.parts notWait).1 e (List.mem_append_left _ he) n hn).inPlace
  headers s old notWait h hh :=
    old.child (List.mem_append_left _ (List.mem_map_of_mem hh)) ((old.bare.parts notWait).2.1 h hh)
  blocks s old notWait b hb x hx := by
    have bare : (Node.block b).Bare t max := .block ((old.bare.parts notWait).2.2 b hb)
    exact (old.child (List.mem_append_right _ (List.mem_map_of_mem hb)) bare).statement hx
  wait s body body' counter old isWait lowers rewritten x hx := by
    have bare : (Node.block body').Bare t max :=
      .block ((weavable_bare config).wait s body body' counter old.bare isWait lowers rewritten)
    have child : Node.block body ∈ (Node.statement s).children := by
      apply List.mem_append_right
      simp [isWait, StatementKind.blocks]
    have same : (Node.block body').plain config = (Node.block body).plain config := by
      rw [Node.plain, Node.plain, lowers.plain]
    have inBody : ∀ i ∈ (Node.block body').ownIds, i ≤ max := by
      intro i hi
      rw [← Node.mem_ownIds_plain config, same, Node.mem_ownIds_plain] at hi
      obtain ⟨k, hk, ik⟩ := List.mem_filterMap.mp hi
      exact old.old i (Node.mem_ownIds (Node.ownNodes_of_child child hk) ik)
    exact Node.Old.statement ⟨bare, inBody⟩ hx

/-! ## Whole functions -/

namespace Func

variable {f : Func} {m : Marking}

/-- The body of a marked function is bare code with old ids, hoisted or not. -/
theorem Fit.old_body (fit : f.Fit max) (ok : f.marking config = .ok m) {b : Block}
    (hb : b = f.body ∨ b = f.body.undeclared) : (Node.block b).Old m.table max := by
  have bare : (Node.block f.body).Bare m.table max :=
    Block.bare_of_survey (marking_spec ok).1.body fit.raw
  rcases hb with rfl | rfl
  · exact ⟨bare, fit.old⟩
  · refine ⟨bare.undeclared, fun i hi => fit.old i ?_⟩
    have same : (Node.block f.body.undeclared).plain config = (Node.block f.body).plain config := by
      simp [Node.plain, Block.plain_undeclared]
    rwa [← Node.mem_ownIds_plain config, same, Node.mem_ownIds_plain] at hi

/-- In a rotated function everything is in place. -/
theorem tails_of_rotation (fit : f.Fit max) (ok : f.marking config = .ok m) {step : Rotation Func}
    (rotates : f.IsRotation ⟨config, m.table⟩ step) {s : Supply}
    (reserved : s.names.reserved = config.reservedPrefix) (promises : s.ids.Promises (max < ·))
    (last : (step s).2.ids.exhausted = true → max < NodeId.last) :
    ∃ g s', step s = (.ok g, s') ∧ ∀ n ∈ g.unitNodes max, n.InPlace m.table max := by
  have unused := fit.unused ok
  generalize run : step s = r at last
  obtain ⟨r, s'⟩ := r
  obtain ⟨b, ds, out, entries, hb, rfl, declares, woven, -⟩ :=
    isRotation_spec fit.distinct fit.simple ok unused rotates reserved promises run last
  refine ⟨_, s', rfl, ?_⟩
  have fair := fair_inPlace m.table max (max < ·) unused.unmarked
  have rotated := woven.throughout unused fair (weavable_old config) (by simp)
    (fun s hs => (fit.old_body ok hb).statement hs) (by simp)
  apply Settled.block fair
  apply Settled.append _ rotated
  intro d hd
  obtain ⟨i, name, hi, rfl⟩ := declares d hd
  refine ⟨?_, fair.counter i name none name.span hi⟩
  exact Statement.throughout_of_parts fair (fair.statement _ rfl rfl rfl)
    (List.forall_mem_nil _) (List.forall_mem_nil _) (List.forall_mem_nil _) (List.forall_mem_nil _)

/-- A statement hands over to what follows: it was made up to call a routine or a counter, or to end
the thread, or it is what became of a marked jump. -/
def HandsOver (f : Func) (t : MarkTable) (max : NodeId) (s : Statement) : Prop :=
  (max < s.id ∧ ((∃ call, s.kind = .expr call) ∨ s.kind = .ret none)) ∨
    ∃ j, .statement j ∈ f.body.ownNodes ∧ j.kind.isJump = true ∧ t.has j.id .propagate = true ∧
      s.id = j.id

theorem HandsOver.endsBlock {t : MarkTable} {s : Statement} (h : f.HandsOver t max s) :
    s.EndsBlock t max := by
  rcases h with ⟨new, ⟨call, isCall⟩ | isReturn⟩ | ⟨j, -, -, marked, same⟩
  · exact .inr ⟨new, by simp [isCall, StatementKind.introduced, StatementKind.declared,
      StatementKind.titled], by simp [isCall]⟩
  · exact .inr ⟨new, by simp [isReturn, StatementKind.introduced, StatementKind.declared,
      StatementKind.titled], by simp [isReturn]⟩
  · left
    rw [same, MarkTable.hasAny_split_iff]
    exact .inr marked

/-- **Nothing runs after a call of a routine.** In a rotated function, routines included, all that
lies around a statement that hands over, up to the body of the innermost function, is a block, an
`if` or a `switch` that is the last of its block. -/
theorem handsOver_last (distinct : f.ids.Nodup) (simple : f.HasSimpleHeads)
    (bound : ∀ i ∈ f.ids, i ≤ max) (ok : f.marking config = .ok m) {step : Rotation Func}
    (rotates : f.IsRotation ⟨config, m.table⟩ step) {s : Supply}
    (reserved : s.names.reserved = config.reservedPrefix) (promises : s.ids.Promises (max < ·))
    (last : (step s).2.ids.exhausted = true → max < NodeId.last) :
    ∃ g s', step s = (.ok g, s') ∧
      ∀ x, .statement x ∈ g.unitNodes max → f.HandsOver m.table max x →
        (∃ body, g.HasBody max body ∧ .statement x ∈ body.ownNodes) ∧
        ∀ body p, g.HasBody max body → Node.Path (.block body) p (.statement x) →
          (∀ b y, .block b ∈ p → .statement y ∈ p → y ∈ b.statements →
            ∃ before, b.statements = before ++ [y] ∧ y ∉ before) ∧
          ∀ y, .statement y ∈ p → y.kind.isLoop = false ∧ (y ≠ x → y.kind.isNest = true) := by
  obtain ⟨g, s', run, inPlace⟩ :=
    tails_of_rotation (fit distinct simple bound) ok rotates reserved promises last
  refine ⟨g, s', run, fun x hx handsOver => ⟨exists_body hx, fun body p hbody path => ?_⟩⟩
  have ends := handsOver.endsBlock
  have around : ∀ n ∈ p, n.InPlace m.table max ∧ .statement x ∈ n.ownNodes := by
    intro n hn
    obtain ⟨inBody, holds⟩ := path.mem hn
    exact ⟨inPlace n (hbody.mem_unitNodes inBody), holds⟩
  constructor
  · intro b y hb hy inside
    have notBefore : y ∉ b.statements.dropLast := by
      intro before
      exact (around _ hb).1 y before x (around _ hy).2 ends
    have filled := List.ne_nil_of_mem inside
    have cut := List.dropLast_append_getLast filled
    refine ⟨b.statements.dropLast, ?_, notBefore⟩
    rw [← cut] at inside
    rcases List.mem_append.mp inside with before | final
    · exact absurd before notBefore
    · rw [List.mem_singleton.mp final, cut]
  · intro y hy
    obtain ⟨placed, holds⟩ := around _ hy
    have notLoop : y.kind.isLoop = false := by
      by_contra isLoop
      exact placed (.inl (by simpa using isLoop)) x holds ends
    have notWait : y.kind.isWait = false := by
      by_contra isWait
      exact placed (.inr (by simpa using isWait)) x holds ends
    refine ⟨notLoop, fun differ => ?_⟩
    rcases (Node.mem_ownNodes (m := .statement x) (i := x.id) rfl).mp holds with same | ⟨c, hc, -⟩
    · exact absurd (Node.statement.inj same).symm differ
    · cases hk : y.kind <;>
        simp_all [Node.children, StatementKind.headers, StatementKind.blocks, StatementKind.isNest,
          StatementKind.isLoop, StatementKind.isWait]

/-- The body is `while (c) { wait { a(defer()); } if (c) { break; } } a();`. -/
def leavingLast : Func :=
  let name (n : String) : Ident := ⟨n, default⟩
  let call (i : NodeId) (arguments : List Expr) : Statement :=
    ⟨i, .expr (.call (.ident (name "a")) arguments default), default⟩
  let waits : Statement := ⟨4, .wait ⟨5, [call 6 [.defer [] default]], default⟩, default⟩
  let branch : Statement :=
    ⟨7, .branch (.ident (name "c")) ⟨8, [⟨9, .jump .leave none, default⟩], default⟩ none, default⟩
  let loop : Statement :=
    ⟨2, .loop none (.whileDo (.ident (name "c"))) ⟨3, [waits, branch], default⟩, default⟩
  ⟨0, some (name "f"), [name "c"], ⟨1, [loop, call 10 []], default⟩, default⟩

theorem handsOver_last_leavingLast : ∃ m, leavingLast.marking {} = .ok m ∧
    ∃ g s', leavingLast.lower ⟨{}, m.table⟩ ⟨.above 10, .new "__"⟩ = (.ok g, s') ∧
      ∀ x, .statement x ∈ g.unitNodes 10 → leavingLast.HandsOver m.table 10 x →
        (∃ body, g.HasBody 10 body ∧ .statement x ∈ body.ownNodes) ∧
        ∀ body p, g.HasBody 10 body → Node.Path (.block body) p (.statement x) →
          (∀ b y, .block b ∈ p → .statement y ∈ p → y ∈ b.statements →
            ∃ before, b.statements = before ++ [y] ∧ y ∉ before) ∧
          ∀ y, .statement y ∈ p → y.kind.isLoop = false ∧ (y ≠ x → y.kind.isNest = true) := by
  obtain ⟨m, ok⟩ : ∃ m, leavingLast.marking {} = .ok m :=
    marking_eq_ok (by decide +kernel) (by decide +kernel)
  exact ⟨m, ok, handsOver_last (by decide) (by decide) (by decide) ok (.inr rfl) rfl
    (IdSupply.promises_above 10) fun _ => by decide⟩

end Func

end

end WaitDefer
