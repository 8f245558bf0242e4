import Mathlib.Data.List.TakeWhile
import WaitDefer.Proofs.Tree.Congruent
import WaitDefer.Proofs.Rotation.Weaving

/-!
# Splitting at the first marked statement

A block is split in one pass, names are given to all its parts, and the parts are put together from
the last to the first. Here the same is said by recursion:

* `Block.splitFirst`: a block is split at its first marked statement only, and what follows is left
  to another rotation;
* `Block.rotation`: how blocks are rotated, however deep they nest;
* `Block.eq_rotation_iff`: it is the one rotation that is the same as splitting at the first marked
  statement and going on with itself, in its results, its errors and all it draws.
-/

namespace WaitDefer

open Rotation

/-- A block split at its first marked statement. What follows that statement is moved into a
routine and rotated there as `rest` says; the blocks inside the statement are rotated as `inner`
says. Nothing after a jump is kept. -/
def Block.splitFirst (ctx : RotationContext) (inner rest : BlockRotation) : BlockRotation :=
  fun loops b tail =>
    let unmarked (s : Statement) : Bool := !ctx.table.hasAny s.id .split
    let before := b.statements.takeWhile unmarked
    match b.statements.dropWhile unmarked with
    | [] => do
      let last ← drawIds (Split.ending tail)
      return { b with statements := before ++ last }
    | c :: following =>
      if c.kind.isJump then do
        let jump ← Wiring.statement ctx inner loops c none
        return { b with statements := before ++ [jump] }
      else if following.isEmpty then do
        let wired ← Wiring.statement ctx inner loops c tail
        return { b with statements := before ++ [wired] }
      else do
        let name ← drawName NameSupply.continuation
        let rotated ← rest loops { b with statements := following } tail
        let routine ← drawIds (Build.routine name rotated.statements c.span)
        let wired ← Wiring.statement ctx inner loops c (some (.callNamed name c.span))
        return { b with statements := before ++ [routine, wired] }

/-- How a block is rotated inside the loops around it, with what is to run after it. -/
def Block.rotation (ctx : RotationContext) : BlockRotation :=
  fun loops b tail => rotateTo ctx b.height loops b tail

/-! ## One pass and one split -/

section
variable {t : MarkTable}

theorem Split.ofStatements_append {before : List Statement}
    (unmarked : ∀ s ∈ before, t.hasAny s.id .split = false) (ss : List Statement) :
    ofStatements t (before ++ ss) = (before ++ (ofStatements t ss).1, (ofStatements t ss).2) := by
  induction before with
  | nil => rfl
  | cons s before ih =>
    rw [List.cons_append, ofStatements, if_neg (by simp [unmarked s List.mem_cons_self]),
      ih fun x hx => unmarked x (List.mem_cons_of_mem _ hx)]
    rfl

variable {ctx : RotationContext} {inner : BlockRotation}

theorem Split.weaveAll_before (loops : LoopStack) (tail : Option Expr) (before : List Statement)
    (named : List (Split × Option String)) :
    weaveAll ctx inner loops tail before named =
      (before ++ ·) <$> weaveAll ctx inner loops tail [] named := by
  cases named <;> simp [weaveAll]

/-- A rotated block, with its splits named and woven. -/
theorem Block.rotateWith_eq (loops : LoopStack) (b : Block) (tail : Option Expr) :
    rotateWith ctx inner loops b tail = (do
      let named ← Split.withNames (Split.ofStatements ctx.table b.statements).2
      let out ← Split.weaveAll ctx inner loops tail (Split.ofStatements ctx.table b.statements).1 named
      return { b with statements := out }) := by
  rw [rotateWith]
  generalize Split.ofStatements ctx.table b.statements = r
  obtain ⟨before, splits⟩ := r
  cases splits with
  | nil => simp [Split.withNames, Split.weaveAll, Split.weave]
  | cons s ss =>
    by_cases needed : ((!ss.isEmpty || !s.following.isEmpty) && !s.pivot.kind.isJump) = true
    · simp [Split.withNames, needed, Split.weaveAll]
    · simp [Split.withNames, needed, Split.weaveAll]

/-- Splitting a block in one pass is splitting it at its first marked statement and then the rest
in one pass. -/
theorem Block.rotateWith_splitFirst (loops : LoopStack) (b : Block) (tail : Option Expr) :
    rotateWith ctx inner loops b tail = splitFirst ctx inner (rotateWith ctx inner) loops b tail := by
  obtain ⟨id, ss, span⟩ := b
  have parts := List.takeWhile_append_dropWhile
    (p := fun s : Statement => !ctx.table.hasAny s.id .split) (l := ss)
  have unmarked : ∀ s ∈ ss.takeWhile (fun s : Statement => !ctx.table.hasAny s.id .split),
      ctx.table.hasAny s.id .split = false := fun s hs => by
    simpa using List.mem_takeWhile_imp hs
  have marked := List.head?_dropWhile_not (fun s : Statement => !ctx.table.hasAny s.id .split) ss
  rw [rotateWith_eq, splitFirst]
  dsimp only
  generalize ss.takeWhile (fun s : Statement => !ctx.table.hasAny s.id .split) = before
    at parts unmarked ⊢
  generalize ss.dropWhile (fun s : Statement => !ctx.table.hasAny s.id .split) = after
    at parts marked ⊢
  rw [← parts, Split.ofStatements_append unmarked]
  cases after with
  | nil => simp [Split.ofStatements, Split.withNames, Split.weaveAll, Split.weave]
  | cons c following =>
    replace marked : ctx.table.hasAny c.id .split = true := by simpa using marked
    cases isJump : c.kind.isJump with
    | true =>
      simp [Split.ofStatements, marked, isJump, Split.withNames, Split.weaveAll, Split.weave]
    | false =>
      cases following with
      | nil =>
        simp [Split.ofStatements, marked, isJump, Split.withNames, Split.weaveAll, Split.weave]
      | cons s following =>
        have more : (!(Split.ofStatements ctx.table (s :: following)).2.isEmpty ||
            !(Split.ofStatements ctx.table (s :: following)).1.isEmpty) = true := by
          by_contra none
          have empty : s :: following = [] := (Split.ofStatements_eq_nil (t := ctx.table)).mp (by simp_all)
          cases empty
        have split : Split.ofStatements ctx.table (c :: s :: following) =
            ([], ⟨c, (Split.ofStatements ctx.table (s :: following)).1⟩ ::
              (Split.ofStatements ctx.table (s :: following)).2) := by
          rw [Split.ofStatements, if_pos marked, if_neg (by simp [isJump])]
        simp only [split, isJump, List.isEmpty_cons, Bool.false_eq_true, ↓reduceIte, rotateWith_eq]
        generalize Split.ofStatements ctx.table (s :: following) = r at more
        obtain ⟨unsplit, splits⟩ := r
        have woven (name : String) (named : List (Split × Option String)) :
            Split.weaveAll ctx inner loops tail before ((⟨c, unsplit⟩, some name) :: named) = _ :=
          Split.weaveAll_before loops tail before _
        simp only [Split.withNames, more, isJump, List.append_nil]
        simp [woven, Split.weaveAll_split]

end

/-! ## Rotations that agree -/

/-- Two rotations do the same to blocks that nest at most `n` deep. -/
def BlockRotation.AgreeTo (n : Nat) (inner inner' : BlockRotation) : Prop :=
  ∀ loops b tail, b.height ≤ n → inner loops b tail = inner' loops b tail

theorem Arm.congruent_height {E : Expr → Expr → Prop} {as as' : List Arm}
    (same : List.Forall₂ (Arm.Congruent E fun b b' => b'.height = b.height) as as') :
    listHeight as' = listHeight as := by
  induction same with
  | nil => rfl
  | cons first _ rest =>
    cases first with
    | arm span test body => rw [listHeight, listHeight, body, rest]

/-- Statements with blocks of the same heights have the same height. -/
theorem StatementKind.Congruent.height {E : Expr → Expr → Prop} {S : Statement → Statement → Prop}
    {F : Func → Func → Prop} {k k' : StatementKind}
    (congruent : k.Congruent E S (fun b b' => b'.height = b.height) F k') :
    k'.height = k.height := by
  cases congruent with
  | block body | wait body | loop _ _ body => exact body
  | branch _ yes no => cases no <;> simp_all [StatementKind.height]
  | switch _ arms otherwise =>
    have same := Arm.congruent_height arms
    cases otherwise <;> simp_all [StatementKind.height]
  | _ => rfl

theorem Statement.listHeight_eq {ss ss' : List Statement}
    (same : List.Forall₂ (fun s s' => s'.height = s.height) ss ss') :
    listHeight ss' = listHeight ss := by
  induction same with
  | nil => rfl
  | cons first _ rest => rw [listHeight, listHeight, first, rest]

/-- Lowering callbacks does not change how deep blocks nest. -/
theorem Callbacks.relates_height (c : Callbacks) : c.Relates (.keeping fun _ => True)
    (fun _ _ _ => True) (fun _ s s' => s'.height = s.height)
    fun _ b b' => b'.height = b.height where
  callback _ _ _ _ := ⟨trivial, trivial⟩
  expr _ _ := trivial
  block same := by rw [Block.height, Block.height, Statement.listHeight_eq same]
  wait _ := rfl
  statement _ congruent := congruent.height

theorem Block.height_rewrite (c : Callbacks) (b : Block) (s : IdSupply) :
    (b.rewrite c.rewriting s).1.height = b.height :=
  (c.relates_height.block_rewrite b s trivial).2

section
variable {ctx : RotationContext} {inner inner' : BlockRotation} {n : Nat}

theorem Rotation.drawIds_bind_congr {α β : Type} {x : Build.Draw α} {f g : α → Rotation β}
    (same : ∀ s, f (x s).1 = g (x s).1) : drawIds x >>= f = drawIds x >>= g := by
  funext s
  exact congrFun (same s.ids) _

theorem Wiring.arms_congr {loops : LoopStack} {after : Option Expr} {as : List Arm}
    (same : ∀ a ∈ as, ∀ loops after, inner loops a.body after = inner' loops a.body after) :
    arms inner loops after as = arms inner' loops after as := by
  induction as with
  | nil => rfl
  | cons a as ih =>
    rw [arms, arms, same a List.mem_cons_self, ih fun a ha => same a (List.mem_cons_of_mem _ ha)]

theorem Wiring.lowerWait_congr (agree : inner.AgreeTo n inner') (loops : LoopStack) {body : Block}
    (height : body.height ≤ n) (after : Option Expr) (span : Span) :
    lowerWait ctx inner loops body after span = lowerWait ctx inner' loops body after span := by
  refine bind_congr fun counter => bind_congr fun names => ?_
  -- the body that is rotated is one without callbacks, not the one that was there
  refine drawIds_bind_congr fun s => bind_congr fun value => ?_
  dsimp only
  rw [agree _ _ _ ((Block.height_rewrite _ body s).trans_le height)]

theorem Wiring.statement_congr (agree : inner.AgreeTo n inner') (loops : LoopStack) {s : Statement}
    (height : s.height ≤ n) (after : Option Expr) :
    statement ctx inner loops s after = statement ctx inner' loops s after := by
  obtain ⟨id, kind, span⟩ := s
  have blocks : ∀ b ∈ kind.blocks, ∀ loops after, inner loops b after = inner' loops b after :=
    fun b hb loops after => agree loops b after ((Block.height_le hb).trans height)
  have optional (arm : Option Block) (h : ∀ b ∈ arm, b ∈ kind.blocks) (after : Option Expr) :
      optionalArm inner loops arm after span = optionalArm inner' loops arm after span := by
    cases arm with
    | none => cases after <;> rfl
    | some b => simp only [optionalArm, blocks b (h b rfl)]
  cases kind with
  | block body =>
    simp only [statement, blocks body (by simp [StatementKind.blocks])]
  | branch condition yes no =>
    simp only [statement, blocks yes (by simp [StatementKind.blocks]),
      optional no (by simp +contextual [StatementKind.blocks])]
  | switch subject as otherwise =>
    have same : arms inner loops after as = arms inner' loops after as :=
      arms_congr fun a ha => blocks a.body (by simp only [StatementKind.blocks]; grind)
    simp only [statement, same, optional otherwise (by simp +contextual [StatementKind.blocks])]
  | wait body =>
    simp only [statement, lowerWait_congr agree loops (Nat.le_trans (Block.height_le
      (List.mem_singleton_self body)) height)]
  | loop label head body =>
    simp only [statement, lowerLoop, blocks body (by simp [StatementKind.blocks])]
  | _ => rfl

theorem Block.height_le_iff {b : Block} :
    b.height ≤ n + 1 ↔ ∀ s ∈ b.statements, s.height ≤ n := by
  obtain ⟨id, ss, span⟩ := b
  simp only [height, Nat.add_le_add_iff_right]
  induction ss with
  | nil => simp [Statement.listHeight]
  | cons s ss ih => simp [Statement.listHeight, ih]

/-- Splitting at the first marked statement rotates lower blocks and shorter ones, and no others. -/
theorem Block.splitFirst_congr {rest rest' : BlockRotation} {b : Block} (height : b.height ≤ n + 1)
    (agree : inner.AgreeTo n inner')
    (shorter : ∀ b' : Block, b'.height ≤ n + 1 → b'.statements.length < b.statements.length →
      ∀ loops tail, rest loops b' tail = rest' loops b' tail) (loops : LoopStack)
    (tail : Option Expr) :
    splitFirst ctx inner rest loops b tail = splitFirst ctx inner' rest' loops b tail := by
  unfold splitFirst
  dsimp only
  have part := List.dropWhile_sublist (fun s : Statement => !ctx.table.hasAny s.id .split)
    (l := b.statements)
  generalize b.statements.dropWhile (fun s : Statement => !ctx.table.hasAny s.id .split) = after
    at part
  cases after with
  | nil => rfl
  | cons c following =>
    have low := height_le_iff.mp height
    have same (tail : Option Expr) :
        Wiring.statement ctx inner loops c tail = Wiring.statement ctx inner' loops c tail :=
      Wiring.statement_congr agree loops (low c (part.subset List.mem_cons_self)) tail
    have rotated : rest loops { b with statements := following } tail =
        rest' loops { b with statements := following } tail :=
      shorter { b with statements := following }
        (height_le_iff.mpr fun s hs => low s (part.subset (List.mem_cons_of_mem _ hs)))
        (Nat.lt_of_succ_le part.length_le) _ _
    simp only [same, rotated]

theorem Block.rotateWith_congr (agree : inner.AgreeTo n inner') {b : Block}
    (height : b.height ≤ n + 1) (loops : LoopStack) (tail : Option Expr) :
    rotateWith ctx inner loops b tail = rotateWith ctx inner' loops b tail := by
  induction h : b.statements.length using Nat.strong_induction_on generalizing b loops tail with
  | _ k ih =>
    rw [rotateWith_splitFirst, rotateWith_splitFirst]
    refine splitFirst_congr height agree (fun b' height shorter loops tail => ?_) loops tail
    exact ih _ (h ▸ shorter) height loops tail rfl

/-- It makes no difference how much deeper than a block rotation could go. -/
theorem Block.agree_rotateTo {m k : Nat} (hn : n ≤ m) (hk : n ≤ k) :
    BlockRotation.AgreeTo n (rotateTo ctx m) (rotateTo ctx k) := by
  intro loops b tail height
  induction n generalizing m k loops b tail with
  | zero => exact absurd b.height_pos (Nat.not_lt_of_le height)
  | succ n ih =>
    obtain ⟨m, rfl⟩ := Nat.exists_eq_add_of_lt hn
    obtain ⟨k, rfl⟩ := Nat.exists_eq_add_of_lt hk
    exact rotateWith_congr (fun loops b tail height => ih (Nat.le_add_right n m)
      (Nat.le_add_right n k) loops b tail height) height loops tail

variable (ctx)

/-- Blocks are rotated in one pass, and the blocks inside by the same rotation. -/
theorem Block.rotation_eq : rotation ctx = rotateWith ctx (rotation ctx) := by
  funext loops b tail
  obtain ⟨n, height⟩ := Nat.exists_eq_succ_of_ne_zero b.height_pos.ne'
  rw [rotation, height, rotateTo]
  refine rotateWith_congr (n := n) (fun loops b tail height => ?_) height.le loops tail
  exact agree_rotateTo height (Nat.le_refl _) loops b tail (Nat.le_refl _)

theorem Block.rotation_splitFirst : rotation ctx = splitFirst ctx (rotation ctx) (rotation ctx) := by
  funext loops b tail
  conv_lhs => rw [rotation_eq]
  rw [rotateWith_splitFirst, ← rotation_eq]

/-- **Rotation is splitting at the first marked statement**: blocks are rotated in one way only such
that what follows the first marked statement, and the blocks inside it, are rotated in the same way;
and the splitter that works in one pass rotates them so. Results, errors and all that is drawn on
the supply are the same. -/
theorem Block.eq_rotation_iff (R : BlockRotation) :
    R = splitFirst ctx R R ↔ R = rotation ctx := by
  constructor
  · intro recursive
    have unfolded loops b tail : R loops b tail = splitFirst ctx R R loops b tail :=
      congrFun (congrFun (congrFun recursive loops) b) tail
    have agree (n : Nat) : R.AgreeTo n (rotation ctx) := by
      induction n with
      | zero => exact fun _ b _ height => absurd b.height_pos (Nat.not_lt_of_le height)
      | succ n ih =>
        intro loops b tail height
        induction h : b.statements.length using Nat.strong_induction_on
          generalizing b loops tail with
        | _ k shorter =>
          rw [unfolded, rotation_splitFirst]
          refine splitFirst_congr height ih (fun b' height less loops tail => ?_) loops tail
          exact shorter _ (h ▸ less) loops b' tail height rfl
    funext loops b tail
    exact agree b.height loops b tail (Nat.le_refl _)
  · rintro rfl
    exact rotation_splitFirst ctx

end

end WaitDefer
