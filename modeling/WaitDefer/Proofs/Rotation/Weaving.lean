import WaitDefer.Proofs.Rotation.Woven
import WaitDefer.Rotation

/-!
# Rotation weaves

Each step of rotation draws on a supply; step by step, whatever the supply, it makes of a piece of
code what `Woven` says:

* `meets_statement`: a marked statement is wired;
* `meets_weaveAll`: the statements of a block are woven, from the last split to the first;
* `Block.rotates_rotateTo`: a block that is ready is rotated.
-/

namespace WaitDefer

/-! ## How deep blocks nest -/

theorem Block.height_pos (b : Block) : 0 < b.height := by
  obtain ⟨id, ss, span⟩ := b
  simp [Block.height]

theorem Statement.height_lt {b : Block} {s : Statement} (hs : s ∈ b.statements) :
    s.height < b.height := by
  have list : ∀ ss : List Statement, s ∈ ss → s.height ≤ Statement.listHeight ss := by
    intro ss
    induction ss with
    | nil => simp
    | cons x ss ih =>
      intro mem
      rcases List.mem_cons.mp mem with rfl | mem
      · exact Nat.le_max_left _ _
      · have := ih mem
        simp only [Statement.listHeight]
        omega
  obtain ⟨id, ss, span⟩ := b
  have := list ss hs
  simp only [Block.height]
  omega

theorem Block.height_le {s : Statement} {b : Block} (hb : b ∈ s.kind.blocks) :
    b.height ≤ s.height := by
  have arms : ∀ as : List Arm, b ∈ as.map Arm.body → b.height ≤ Arm.listHeight as := by
    intro as
    induction as with
    | nil => simp
    | cons a as ih =>
      intro mem
      obtain ⟨test, body, span⟩ := a
      rcases List.mem_cons.mp mem with rfl | mem
      · exact Nat.le_max_left _ _
      · have := ih mem
        simp only [Arm.listHeight]
        omega
  obtain ⟨id, kind, span⟩ := s
  simp only [Statement.height]
  cases kind with
  | block body | wait body | loop _ _ body =>
    obtain rfl := List.mem_singleton.mp hb
    exact Nat.le_refl _
  | branch condition yes no =>
    cases no <;> simp [StatementKind.blocks] at hb <;> grind [StatementKind.height]
  | switch subject as otherwise =>
    have := arms as
    cases otherwise <;> simp [StatementKind.blocks] at hb <;> grind [StatementKind.height]
  | _ => cases hb

theorem Block.height_plain (config : Config) (b : Block) : (b.plain config).height = b.height := by
  induction b using Block.inductOn (Q := fun s => (s.plain config).height = s.height) with
  | block b ih =>
    have list : ∀ ss : List Statement, (∀ s ∈ ss, (s.plain config).height = s.height) →
        Statement.listHeight (ss.map (Statement.plain config)) = Statement.listHeight ss := by
      intro ss
      induction ss with
      | nil => simp
      | cons s ss rest =>
        intro all
        simp only [List.map_cons, Statement.listHeight]
        rw [all s List.mem_cons_self, rest fun x hx => all x (List.mem_cons_of_mem _ hx)]
    obtain ⟨id, ss, span⟩ := b
    simp only [Block.plain_eq, Block.height, list ss ih]
  | statement s headers blocks =>
    have arms : ∀ as : List Arm, (∀ a ∈ as, (a.body.plain config).height = a.body.height) →
        Arm.listHeight (as.map (Arm.plain config)) = Arm.listHeight as := by
      intro as
      induction as with
      | nil => simp
      | cons a as rest =>
        intro all
        have first := all a List.mem_cons_self
        obtain ⟨test, body, span⟩ := a
        simp only [List.map_cons, Arm.listHeight, Arm.plain] at first ⊢
        rw [first, rest fun x hx => all x (List.mem_cons_of_mem _ hx)]
    obtain ⟨id, kind, span⟩ := s
    simp only [Statement.plain_eq, Statement.height]
    simp only at blocks
    cases kind with
    | branch condition yes no =>
      cases no <;> simp_all [StatementKind.blocks, StatementKind.height]
    | switch subject as otherwise =>
      have := arms as fun a ha => blocks a.body (by simp only [StatementKind.blocks]; grind)
      cases otherwise <;> simp_all [StatementKind.blocks, StatementKind.height]
    | _ => simp_all [StatementKind.blocks, StatementKind.height]

/-! ## Steps -/

/-- The loop next to a place, as the marks and as rotation know it. -/
inductive Agrees : Option (Option String) → LoopStack → Option LoopContext → Prop
  | none {loops : LoopStack} : Agrees none loops none
  | some {loop : LoopContext} {loops : LoopStack} {own : Option String}
      (label : loop.label = own) : Agrees (some own) (loop :: loops) (some loop)

section
variable (config : Config) (t : MarkTable) (max : NodeId)

/-- A piece of code is woven, and the names this introduces are numbered from `lo` up to `hi`. -/
def WovenBetween (fresh : NodeId → Prop) (lo hi : Nat) (around : Option LoopContext)
    (piece : Weaving) : Prop :=
  ∀ visible, ∃ entries, Woven config t max fresh visible around piece entries ∧
    NamesBetween config.reservedPrefix lo hi (entries.map Entry.name)

/-- Blocks that nest at most `n` deep are rotated as they should be. -/
def Rotates (n : Nat) (inner : BlockRotation) : Prop :=
  ∀ (loops : LoopStack) (b : Block) (tail : Option Expr) (near : Option (Option String))
    (around : Option LoopContext), b.height ≤ n → (Node.block b).Ready t near →
      Agrees near loops around →
      Rotation.Meets config.reservedPrefix (inner loops b tail) fun fresh lo hi b' =>
        ∃ out, b' = { b with statements := out } ∧
          WovenBetween config t max fresh lo hi around (.run b.statements tail out)

end

open Rotation Build

section
variable {config : Config} {t : MarkTable} {max : NodeId} {n : Nat} {inner : BlockRotation}
  {loops : LoopStack} {near : Option (Option String)} {around : Option LoopContext}

theorem draws_callWith (call : Expr) :
    Draws (exprStatement call) fun fresh s => ∃ i, fresh i ∧ s = .callWith i call :=
  draws_statement _ _

theorem draws_exitWith (exit : Option Expr) (span : Span) :
    Draws (Wiring.exitStatement exit span) fun fresh s =>
      ∃ i, fresh i ∧ s = .exitWith i exit span := by
  cases exit with
  | none => exact draws_statement _ _
  | some call => exact draws_statement _ _

theorem draws_branchWith (condition : Expr) (yes : Block) (no : Statement) (span : Span) :
    Draws (branch condition yes no span) fun fresh s => ∃ i j, fresh i ∧ fresh j ∧
      s = .branchWith i j condition yes no span := by
  refine (draws_block _ _).bind fun b => (draws_statement _ _).weaken ?_
  rintro fresh s ⟨i, hi, rfl⟩ ⟨j, hj, rfl⟩
  exact ⟨i, j, hi, hj, rfl⟩

theorem draws_continuationValue (after : Option Expr) (span : Span) :
    Draws (Wiring.continuationValue after span) fun fresh e => e.Resumes fresh span after := by
  unfold Wiring.continuationValue
  split
  · exact .pure fun _ => .routine
  · refine (draws_callWith _).bind fun s => (draws_closure _ _ _).weaken ?_
    rintro fresh e ⟨i, j, hi, hj, rfl⟩ ⟨k, hk, rfl⟩
    exact .call hi hj hk
  · refine (draws_closure _ _ _).weaken ?_
    rintro fresh e ⟨i, j, hi, hj, rfl⟩
    exact .nothing hi hj

theorem draws_loopParts (head : LoopHead) (body : Block) (restart : Expr) (exit : Statement)
    (span : Span) :
    Draws (Wiring.loopParts head body restart exit span) fun fresh parts =>
      head.Parted fresh body restart exit span parts := by
  cases head with
  | whileDo condition =>
    refine (draws_branchWith _ _ _ _).bind fun s => (draws_callWith _).bind fun c => .pure ?_
    rintro fresh ⟨k, hk, rfl⟩ ⟨i, j, hi, hj, rfl⟩
    exact .whileDo hi hj hk
  | doWhile condition =>
    refine (draws_callWith _).bind fun c => (draws_block _ _).bind fun b =>
      (draws_branchWith _ _ _ _).bind fun s => .pure ?_
    rintro fresh ⟨i, j, hi, hj, rfl⟩ ⟨l, hl, rfl⟩ ⟨k, hk, rfl⟩
    exact .doWhile hi hj hk hl
  | counting init test update =>
    cases test with
    | none =>
      have unfolded : Wiring.loopParts (.counting init none update) body restart exit span = do
          let again ← exprStatement restart
          return ⟨init.toList, body.statements, update.toList ++ [again]⟩ := rfl
      rw [unfolded]
      refine (draws_callWith _).bind fun c => .pure ?_
      rintro fresh ⟨k, hk, rfl⟩
      exact .endless hk
    | some condition =>
      have unfolded : Wiring.loopParts (.counting init (some condition) update) body restart exit
          span = do
          let branch ← Build.branch condition body exit span
          let again ← exprStatement restart
          return ⟨init.toList, [branch], update.toList ++ [again]⟩ := rfl
      rw [unfolded]
      refine (draws_branchWith _ _ _ _).bind fun s => (draws_callWith _).bind fun c => .pure ?_
      rintro fresh ⟨k, hk, rfl⟩ ⟨i, j, hi, hj, rfl⟩
      exact .counting hi hj hk

theorem draws_missingArm (call : Expr) (span : Span) :
    Draws (do
      let s ← exprStatement call
      let b ← block [s] span
      return some b) fun fresh b => ∃ i j, fresh i ∧ fresh j ∧
        b = some (⟨j, [.callWith i call], span⟩ : Block) := by
  refine (draws_callWith call).bind fun s => (draws_block [s] span).bind fun b => .pure ?_
  rintro fresh ⟨j, hj, rfl⟩ ⟨i, hi, rfl⟩
  exact ⟨i, j, hi, hj, rfl⟩

theorem meets_optionalArm (rotates : Rotates config t max n inner) (arm : Option Block)
    (after : Option Expr) (span : Span) (height : ∀ b ∈ arm, b.height ≤ n)
    (ready : ∀ b ∈ arm, (Node.block b).Ready t near) (agrees : Agrees near loops around) :
    Meets config.reservedPrefix (Wiring.optionalArm inner loops arm after span)
      fun fresh lo hi b' => WovenBetween config t max fresh lo hi around (.choice arm after b') := by
  cases arm with
  | some b =>
    refine (rotates loops b after near around (height b rfl) (ready b rfl) agrees).map ?_
    rintro fresh lo hi _ - ⟨out, rfl, woven⟩ visible
    obtain ⟨entries, woven, names⟩ := woven visible
    exact ⟨entries, .chosen woven, names⟩
  | none =>
    cases after with
    | none => exact .pure fun fresh n visible => ⟨[], .absent, .nil⟩
    | some call =>
      refine (Meets.drawIds (draws_missingArm call span)).weaken ?_
      rintro fresh lo hi _ - ⟨-, i, j, hi, hj, rfl⟩ visible
      exact ⟨[], .missing hi hj, .nil⟩

theorem meets_arms (rotates : Rotates config t max n inner) (after : Option Expr)
    (agrees : Agrees near loops around) (arms : List Arm)
    (height : ∀ a ∈ arms, a.body.height ≤ n)
    (ready : ∀ a ∈ arms, (Node.block a.body).Ready t near) :
    Meets config.reservedPrefix (Wiring.arms inner loops after arms)
      fun fresh lo hi arms' =>
        WovenBetween config t max fresh lo hi around (.arms arms after arms') := by
  induction arms with
  | nil => exact .pure fun fresh n visible => ⟨[], .noArms, .nil⟩
  | cons a arms ih =>
    have first := rotates loops a.body after near around (height a List.mem_cons_self)
      (ready a List.mem_cons_self) agrees
    have rest := ih (fun a ha => height a (List.mem_cons_of_mem _ ha))
      fun a ha => ready a (List.mem_cons_of_mem _ ha)
    refine first.bind fun body _ _ _ => rest.bind fun arms' _ _ _ => .pure ?_
    rintro fresh hi mid le - woven lo le' - ⟨out, rfl, wovenBody⟩ visible
    obtain ⟨entries, wovenBody, names⟩ := wovenBody visible
    obtain ⟨more, woven, names'⟩ := woven visible
    refine ⟨entries ++ more, .arm wovenBody woven, ?_⟩
    rw [List.map_append]
    exact names.append names' le' le

theorem isReserved_name (config : Config) (rest : String) :
    config.isReserved (config.reservedPrefix ++ rest) = true := by
  simp [Config.isReserved]

theorem meets_counter : Meets config.reservedPrefix (drawName NameSupply.counter)
    fun _ lo hi x => hi = lo + 1 ∧ config.isReserved x = true ∧
      NamesBetween config.reservedPrefix lo hi [x] := by
  refine (Meets.drawName (fun _ => rfl) (P := fun n x =>
    x = config.reservedPrefix ++ "deferrals" ++ toString n) ?_).weaken ?_
  · rintro ⟨_, _⟩ rfl
    rfl
  · rintro _ lo hi _ - ⟨rfl, rfl⟩
    refine ⟨rfl, by rw [String.append_assoc]; exact isReserved_name .., by simp, ?_⟩
    intro x hx
    rw [List.mem_singleton] at hx
    exact ⟨_, by simp [NameSupply.stems], lo, Nat.le_refl _, Nat.lt_succ_self _, hx⟩

theorem meets_continuation : Meets config.reservedPrefix (drawName NameSupply.continuation)
    fun _ lo hi x => hi = lo + 1 ∧ NamesBetween config.reservedPrefix lo hi [x] := by
  refine (Meets.drawName (fun _ => rfl) (P := fun n x =>
    x = config.reservedPrefix ++ "k" ++ toString n) ?_).weaken ?_
  · rintro ⟨_, _⟩ rfl
    rfl
  · rintro _ lo hi _ - ⟨rfl, rfl⟩
    refine ⟨rfl, by simp, ?_⟩
    intro x hx
    rw [List.mem_singleton] at hx
    exact ⟨_, by simp [NameSupply.stems], lo, Nat.le_refl _, Nat.lt_succ_self _, hx⟩

theorem meets_loopRoutines : Meets config.reservedPrefix (drawName NameSupply.loopRoutines)
    fun _ lo hi x => hi = lo + 1 ∧
      NamesBetween config.reservedPrefix lo hi [x.restart, x.next] := by
  refine (Meets.drawName (fun _ => rfl) (P := fun n x =>
    x.restart = config.reservedPrefix ++ "loop" ++ toString n ∧
      x.next = config.reservedPrefix ++ "next" ++ toString n) ?_).weaken ?_
  · rintro ⟨_, _⟩ rfl
    exact ⟨rfl, rfl⟩
  · rintro _ lo hi x - ⟨rfl, restart, next⟩
    refine ⟨rfl, ?_, ?_⟩
    · rw [List.nodup_cons, List.mem_singleton]
      refine ⟨fun same => ?_, by simp⟩
      rw [restart, next] at same
      have := (NameSupply.name_inj (by simp [NameSupply.stems]) (by simp [NameSupply.stems])
        same).1
      simp at this
    · intro y hy
      simp only [List.mem_cons, List.not_mem_nil, or_false] at hy
      rcases hy with rfl | rfl
      · exact ⟨_, by simp [NameSupply.stems], lo, Nat.le_refl _, Nat.lt_succ_self _, restart⟩
      · exact ⟨_, by simp [NameSupply.stems], lo, Nat.le_refl _, Nat.lt_succ_self _, next⟩

theorem meets_lowerWait (rotates : Rotates config t max n inner) {s : Statement} {body : Block}
    (isWait : s.kind = .wait body) (after : Option Expr) (height : body.height ≤ n)
    (ready : (Node.block body).Ready t none) :
    Meets config.reservedPrefix (Wiring.lowerWait ⟨config, t⟩ inner loops body after s.span)
      fun fresh lo hi b' => WovenBetween config t max fresh lo hi around
        (.pivot s after ⟨s.id, .block b', s.span⟩) := by
  refine meets_counter.bind fun counter _ _ known => ?_
  refine Meets.names.bind fun supply _ _ reserved => ?_
  have fits : Callbacks.Fits ⟨counter, config.runtime.defer, supply⟩ config := ⟨known.2.1, rfl⟩
  refine (Meets.drawIds ((Block.draws_rewrite t max fits body).also
    (Q := fun b => b.plain config = body.plain config ∧ body.RewrittenTo config counter b)
      fun ids => ⟨Block.plain_rewrite fits body ids, supply, ids, reserved.2, rfl⟩)).bind
      fun body' _ _ known => ?_
  obtain ⟨-, -, plain, rewritten⟩ := known
  refine (Meets.drawIds (draws_continuationValue after s.span)).bind fun value _ _ _ => ?_
  have height' : body'.height ≤ n := by
    rw [← Block.height_plain config, plain, Block.height_plain]
    exact height
  have same : (Node.block body').plain config = (Node.block body).plain config := by
    simp [Node.plain, plain]
  have ready' : (Node.block body').Ready t none := ready.of_plain_eq same
  refine (rotates loops body' _ none none height' ready' .none).bind fun rotated _ _ _ => ?_
  refine (Meets.drawIds (draws_statement _ _)).bind fun create _ _ _ => .pure ?_
  rintro fresh _ _ - - ⟨rfl, i, hi, rfl⟩ _ le - ⟨out, rfl, woven⟩ _ - - ⟨rfl, resumes⟩ _ - -
    ⟨rfl, lowers, -⟩ _ - - ⟨rfl, -⟩ lo - - ⟨rfl, -, names⟩ visible
  obtain ⟨entries, woven, names'⟩ := woven (counter :: visible)
  have whole : Woven config t max fresh visible around _ _ :=
    .wait isWait hi lowers plain rewritten resumes woven
  exact ⟨_, whole, names.append names' (Nat.le_succ _) le⟩

/-- The block that a loop becomes, given its rotated body. -/
theorem draws_loopBlock (names : LoopNames) (head : LoopHead) (body : Block) (after : Option Expr)
    (span : Span) :
    Draws (do
      let exit ← Wiring.exitStatement after span
      let parts ← Wiring.loopParts head body (.callNamed names.restart span) exit span
      let restartRoutine ← Build.routine names.restart parts.restart span
      let nextRoutine ← Build.routine names.next parts.next span
      let first ← Build.exprStatement (.callNamed names.restart span)
      Build.block (parts.before ++ [restartRoutine, nextRoutine, first]) span) fun fresh b =>
        ∃ i₁ j₁ k₁ i₂ j₂ k₂ x y z parts, (∀ i ∈ [i₁, j₁, k₁, i₂, j₂, k₂, x, y, z], fresh i) ∧
          head.Parted fresh body (.callNamed names.restart span) (.exitWith x after span) span
            parts ∧
          b = ⟨y, parts.before ++ [.routineWith i₁ j₁ k₁ names.restart parts.restart span,
            .routineWith i₂ j₂ k₂ names.next parts.next span,
            .callWith z (.callNamed names.restart span)], span⟩ := by
  refine (draws_exitWith _ _).bind fun exit => (draws_loopParts _ _ _ _ _).bind fun parts =>
    (draws_routine _ _ _).bind fun first => (draws_routine _ _ _).bind fun second =>
      (draws_callWith _).bind fun call => (draws_block _ _).weaken ?_
  rintro fresh _ ⟨y, hy, rfl⟩ ⟨z, hz, rfl⟩ ⟨i₂, j₂, k₂, hi₂, hj₂, hk₂, rfl⟩
    ⟨i₁, j₁, k₁, hi₁, hj₁, hk₁, rfl⟩ parted ⟨x, hx, rfl⟩
  refine ⟨i₁, j₁, k₁, i₂, j₂, k₂, x, y, z, parts, ?_, parted, rfl⟩
  simp only [List.forall_mem_cons]
  exact ⟨hi₁, hj₁, hk₁, hi₂, hj₂, hk₂, hx, hy, hz, by simp⟩

theorem meets_lowerLoop (rotates : Rotates config t max n inner) {s : Statement}
    {label : Option Ident} {head : LoopHead} {body : Block}
    (isLoop : s.kind = .loop label head body) (after : Option Expr) (height : body.height ≤ n)
    (headers : ∀ h ∈ head.statements, h.kind.isSimple = true ∧ (Node.statement h).Quiet t)
    (ready : (Node.block body).Ready t (some (label.map Ident.name))) :
    Meets config.reservedPrefix (Wiring.lowerLoop inner loops label head body after s.span)
      fun fresh lo hi b' => WovenBetween config t max fresh lo hi around
        (.pivot s after ⟨s.id, .block b', s.span⟩) := by
  refine meets_loopRoutines.bind fun names _ _ _ => ?_
  refine (rotates _ body _ _ _ height ready (.some rfl)).bind fun rotated _ _ _ => ?_
  refine (Meets.drawIds (draws_loopBlock names head rotated after s.span)).weaken ?_
  rintro fresh _ _ b' - ⟨rfl, i₁, j₁, k₁, i₂, j₂, k₂, x, y, z, parts, new, parted, rfl⟩ _ le -
    ⟨out, rfl, woven⟩ lo - - ⟨rfl, drawn⟩ visible
  obtain ⟨entries, woven, names'⟩ := woven (names.restart :: names.next :: visible)
  refine ⟨_, .loop isLoop headers new woven parted, ?_⟩
  exact drawn.append names' (Nat.le_succ _) le

section
variable {ctx : RotationContext} {id : NodeId} {span : Span} {body : Block} {after : Option Expr}

theorem Wiring.statement_block :
    statement ctx inner loops ⟨id, .block body, span⟩ after =
      (fun b => ⟨id, .block b, span⟩) <$> inner loops body after := by
  simp [statement]

theorem Wiring.statement_wait :
    statement ctx inner loops ⟨id, .wait body, span⟩ after =
      (fun b => ⟨id, .block b, span⟩) <$> lowerWait ctx inner loops body after span := by
  simp [statement]

theorem Wiring.statement_loop {label : Option Ident} {head : LoopHead}
    (waits : ctx.table.has id .loop = true) :
    statement ctx inner loops ⟨id, .loop label head body, span⟩ after =
      (fun b => ⟨id, .block b, span⟩) <$> lowerLoop inner loops label head body after span := by
  simp [statement, waits]

end

/-- A marked statement that is no jump is wired as it should be. -/
theorem meets_statement (rotates : Rotates config t max n inner) {s : Statement}
    (after : Option Expr) (marked : t.hasAny s.id .split = true) (notJump : s.kind.isJump = false)
    (height : s.height ≤ n) (ready : (Node.statement s).Ready t near)
    (agrees : Agrees near loops around) :
    Meets config.reservedPrefix (Wiring.statement ⟨config, t⟩ inner loops s after)
      fun fresh lo hi s' => WovenBetween config t max fresh lo hi around (.pivot s after s') := by
  have below : ∀ b ∈ s.kind.blocks, b.height ≤ n :=
    fun b hb => Nat.le_trans (Block.height_le hb) height
  obtain ⟨id, kind, span⟩ := s
  cases ready with
  | keep unmarked => simp [unmarked] at marked
  | jump _ isJump => simp_all [StatementKind.isJump]
  | wait _ isWait body =>
    cases isWait
    rw [Wiring.statement_wait]
    refine Meets.map (meets_lowerWait (s := ⟨id, _, span⟩) rotates rfl after ?_ body)
      fun fresh lo hi b' _ h => h
    exact below _ List.mem_cons_self
  | loop _ waits isLoop headers body =>
    cases isLoop
    rw [Wiring.statement_loop waits]
    refine Meets.map (meets_lowerLoop (s := ⟨id, _, span⟩) rotates rfl after ?_ headers body)
      fun fresh lo hi b' _ h => h
    exact below _ List.mem_cons_self
  | nest _ isNest blocks =>
    cases kind with
    | block body =>
      have inner := rotates loops body after near around (below _ List.mem_cons_self)
        (blocks _ List.mem_cons_self) agrees
      rw [Wiring.statement_block]
      refine inner.map ?_
      rintro fresh lo hi _ - ⟨out, rfl, woven⟩ visible
      obtain ⟨entries, woven, names⟩ := woven visible
      exact ⟨entries, .block rfl woven, names⟩
    | branch condition yes no =>
      have inYes := rotates loops yes after near around (below _ List.mem_cons_self)
        (blocks _ List.mem_cons_self) agrees
      have inNo := meets_optionalArm rotates no after span
        (fun b hb => below b (List.mem_cons_of_mem _ (Option.mem_toList.mpr hb)))
        (fun b hb => blocks b (List.mem_cons_of_mem _ (Option.mem_toList.mpr hb))) agrees
      refine inYes.bind fun yes' _ _ _ => inNo.bind fun no' _ _ _ => .pure ?_
      rintro fresh hi mid le - wovenNo lo le' - ⟨out, rfl, woven⟩ visible
      obtain ⟨entries, woven, names⟩ := woven visible
      obtain ⟨more, wovenNo, names'⟩ := wovenNo visible
      refine ⟨entries ++ more, .branch rfl woven wovenNo, ?_⟩
      rw [List.map_append]
      exact names.append names' le' le
    | switch subject arms otherwise =>
      have inArms := meets_arms rotates after agrees arms
        (fun a ha => below a.body (List.mem_append_left _ (List.mem_map_of_mem ha)))
        fun a ha => blocks a.body (List.mem_append_left _ (List.mem_map_of_mem ha))
      have inRest := meets_optionalArm rotates otherwise after span
        (fun b hb => below b (List.mem_append_right _ (Option.mem_toList.mpr hb)))
        (fun b hb => blocks b (List.mem_append_right _ (Option.mem_toList.mpr hb))) agrees
      refine inArms.bind fun arms' _ _ _ => inRest.bind fun rest _ _ _ => .pure ?_
      rintro fresh hi mid le - wovenRest lo le' - woven visible
      obtain ⟨entries, woven, names⟩ := woven visible
      obtain ⟨more, wovenRest, names'⟩ := wovenRest visible
      refine ⟨entries ++ more, .switch rfl woven wovenRest, ?_⟩
      rw [List.map_append]
      exact names.append names' le' le
    | _ => cases isNest

/-! ## Names for splits -/

/-- Splits with the names they were given. -/
inductive Split.Named : List Split → List (Split × Option String) → Prop
  | nil : Named [] []
  | some {s : Split} {ss : List Split} {named : List (Split × Option String)} {name : String}
      (notLast : ss ≠ [] ∨ s.following ≠ []) (notJump : s.pivot.kind.isJump = false)
      (rest : Named ss named) : Named (s :: ss) ((s, some name) :: named)
  | none {s : Split} {ss : List Split} {named : List (Split × Option String)}
      (last : s.pivot.kind.isJump = false → ss = [] ∧ s.following = []) (rest : Named ss named) :
      Named (s :: ss) ((s, none) :: named)

theorem Split.meets_withNames (ss : List Split) :
    Meets config.reservedPrefix (withNames ss) fun _ lo hi named =>
      Named ss named ∧ NamesBetween config.reservedPrefix lo hi (named.filterMap Prod.snd) := by
  induction ss with
  | nil => exact .pure fun _ _ => ⟨.nil, .nil⟩
  | cons s ss ih =>
    unfold withNames
    split
    · rename_i needed
      have notLast : (ss ≠ [] ∨ s.following ≠ []) ∧ s.pivot.kind.isJump = false := by
        simpa using needed
      refine (meets_continuation.map (Q := fun _ lo hi o => ∃ x, o = some x ∧ hi = lo + 1 ∧
        NamesBetween config.reservedPrefix lo hi [x]) ?_).bind fun o _ _ _ =>
          ih.bind fun named _ _ _ => .pure ?_
      · rintro _ lo hi x - h
        exact ⟨x, rfl, h⟩
      · rintro fresh hi mid le - ⟨named, between⟩ lo le' - ⟨x, rfl, rfl, drawn⟩
        exact ⟨.some notLast.1 notLast.2 named, drawn.append between le' le⟩
    · rename_i needless
      have last : s.pivot.kind.isJump = false → ss = [] ∧ s.following = [] := by
        intro notJump
        simpa [notJump] using needless
      refine ih.bind fun named _ _ _ => .pure ?_
      rintro fresh hi lo le - ⟨named, between⟩
      exact ⟨.none last named, between⟩

theorem Split.ofStatements_eq_nil {ss : List Statement} :
    (ofStatements t ss).1 = [] ∧ (ofStatements t ss).2 = [] ↔ ss = [] := by
  cases ss with
  | nil => simp [ofStatements]
  | cons s ss =>
    simp only [ofStatements]
    split
    · split <;> simp
    · simp

theorem draws_ending (tail : Option Expr) :
    Draws (Split.ending tail) fun fresh out => (tail = none ∧ out = []) ∨
      ∃ call i, tail = some call ∧ fresh i ∧ out = [.callWith i call] := by
  cases tail with
  | none => exact .pure fun _ => .inl ⟨rfl, rfl⟩
  | some call =>
    refine (draws_callWith call).bind fun s => .pure ?_
    rintro fresh ⟨i, hi, rfl⟩
    exact .inr ⟨call, i, rfl, hi, rfl⟩

theorem meets_ending (tail : Option Expr) :
    Meets config.reservedPrefix (drawIds (Split.ending tail)) fun fresh lo hi out =>
      WovenBetween config t max fresh lo hi around (.run [] tail out) := by
  refine (Meets.drawIds (draws_ending tail)).weaken ?_
  rintro fresh lo hi _ - ⟨rfl, ⟨rfl, rfl⟩ | ⟨call, i, rfl, hi, rfl⟩⟩ visible
  · exact ⟨[], .done, .nil⟩
  · exact ⟨[], .goOn hi, .nil⟩

theorem lowerJump_eq {loop : LoopContext} (kind : JumpKind) {label : Option Ident} (span : Span)
    (caught : ∀ l ∈ label, loop.label = some l.name) :
    Wiring.lowerJump (loop :: loops) kind label span = pure (loop.lowered kind) := by
  have target : LoopStack.target? (loop :: loops) (label.map Ident.name) = some loop := by
    cases label with
    | none => rfl
    | some l => simp [LoopStack.target?, LoopStack.find?, caught l rfl]
  unfold Wiring.lowerJump
  rw [target]
  obtain ⟨exit, next, label⟩ := loop
  cases kind <;> cases exit <;> rfl

/-- The statements of a block: those before the first split, the rest woven, and what runs at the
end of the block if nothing is split. -/
def Split.weaveAll (ctx : RotationContext) (inner : BlockRotation) (loops : LoopStack)
    (tail : Option Expr) (before : List Statement) (named : List (Split × Option String)) :
    Rotation (List Statement) := do
  let after ← weave ctx inner loops tail named
  let last ← if named.isEmpty then drawIds (ending tail) else pure []
  return before ++ after ++ last

namespace Split

variable {ctx : RotationContext} {s : Statement} {tail : Option Expr}

theorem weaveAll_jump {loop : LoopContext} {kind : JumpKind} {label : Option Ident}
    (isJump : s.kind = .jump kind label) (caught : ∀ l ∈ label, loop.label = some l.name) :
    weaveAll ctx inner (loop :: loops) tail [] [(⟨s, []⟩, none)] =
      pure [⟨s.id, loop.lowered kind, s.span⟩] := by
  simp [weaveAll, weave, Wiring.statement, isJump, lowerJump_eq kind s.span caught]

theorem weaveAll_last (notJump : s.kind.isJump = false) :
    weaveAll ctx inner loops tail [] [(⟨s, []⟩, none)] =
      (fun wired => [wired]) <$> Wiring.statement ctx inner loops s tail := by
  simp [weaveAll, weave, notJump]

theorem weaveAll_split (before : List Statement) (name : String)
    (named : List (Split × Option String)) :
    weaveAll ctx inner loops tail [] ((⟨s, before⟩, some name) :: named) = do
      let body ← weaveAll ctx inner loops tail before named
      let routine ← drawIds (Build.routine name body s.span)
      let wired ← Wiring.statement ctx inner loops s (some (.callNamed name s.span))
      return [routine, wired] := by
  cases empty : named.isEmpty <;> simp [weaveAll, weave, empty]

end Split

/-- A list of statements whose splits have names is woven. -/
theorem meets_weaveAll (rotates : Rotates config t max n inner) (agrees : Agrees near loops around)
    (tail : Option Expr) (ss : List Statement) (height : ∀ s ∈ ss, s.height ≤ n)
    (ready : ∀ s ∈ ss, (Node.statement s).Ready t near) {named : List (Split × Option String)}
    (h : Split.Named (Split.ofStatements t ss).2 named) :
    Meets config.reservedPrefix
      (Split.weaveAll ⟨config, t⟩ inner loops tail (Split.ofStatements t ss).1 named)
      fun fresh lo hi out => ∀ visible, ∃ entries more,
        Woven config t max fresh visible around (.run ss tail out) entries ∧
          (entries.map Entry.name).Perm (named.filterMap Prod.snd ++ more) ∧
          NamesBetween config.reservedPrefix lo hi more := by
  induction ss generalizing named with
  | nil =>
    cases h
    have ending : Meets _ _ fun fresh lo hi out =>
      WovenBetween config t max fresh lo hi around (.run [] tail out) := meets_ending tail
    refine ending.weaken fun fresh lo hi out _ woven visible => ?_
    obtain ⟨entries, woven, between⟩ := woven visible
    exact ⟨entries, _, woven, by simp, between⟩
  | cons s ss ih =>
    have first := ready s List.mem_cons_self
    have rest {named} (h : Split.Named (Split.ofStatements t ss).2 named) :=
      ih (fun x hx => height x (List.mem_cons_of_mem _ hx))
        (fun x hx => ready x (List.mem_cons_of_mem _ hx)) h
    cases marked : t.hasAny s.id .split with
    | false =>
      simp only [Split.ofStatements, marked, Bool.false_eq_true, ↓reduceIte] at h ⊢
      have longer : ∀ before, Split.weaveAll ⟨config, t⟩ inner loops tail (s :: before) named =
          (s :: ·) <$> Split.weaveAll ⟨config, t⟩ inner loops tail before named := by
        intro before
        cases empty : named.isEmpty <;> simp [Split.weaveAll, empty]
      rw [longer]
      refine (rest h).map fun fresh lo hi out _ woven visible => ?_
      obtain ⟨entries, more, woven, perm, between⟩ := woven visible
      cases first with
      | keep unmarked quiet closed =>
        exact ⟨entries, more, .keep unmarked quiet closed woven, perm, between⟩
      | _ => simp_all
    | true =>
      simp only [Split.ofStatements, marked, ↓reduceIte] at h ⊢
      cases jumps : s.kind.isJump with
      | true =>
        simp only [jumps, ↓reduceIte] at h ⊢
        cases h with
        | some _ notJump => simp [jumps] at notJump
        | none _ nothing =>
          cases nothing
          cases first with
          | jump _ isJump caught =>
            cases agrees with
            | some label =>
              have caught := fun l hl => label.trans (caught l hl)
              rw [Split.weaveAll_jump isJump caught]
              exact .pure fun fresh n visible => ⟨[], [], .jump marked isJump caught, .refl _, .nil⟩
          | keep unmarked => simp [unmarked] at marked
          | nest _ isNest =>
            cases hk : s.kind <;>
              simp [hk, StatementKind.isJump, StatementKind.isNest] at jumps isNest
          | wait _ isWait => simp [isWait, StatementKind.isJump] at jumps
          | loop _ _ isLoop => simp [isLoop, StatementKind.isJump] at jumps
      | false =>
        simp only [jumps, Bool.false_eq_true, ↓reduceIte] at h ⊢
        have wire (after : Option Expr) := meets_statement rotates after marked jumps
          (height s List.mem_cons_self) first agrees
        cases h with
        | none last nothing =>
          obtain ⟨noMore, noneBefore⟩ := last jumps
          obtain rfl := Split.ofStatements_eq_nil.mp ⟨noneBefore, noMore⟩
          cases nothing
          rw [Split.ofStatements, Split.weaveAll_last jumps]
          refine (wire tail).map fun fresh lo hi wired _ woven visible => ?_
          obtain ⟨entries, woven, between⟩ := woven visible
          exact ⟨entries, _, .last marked woven, .refl _, between⟩
        | @some _ _ named name notLast _ given =>
          have more : ss ≠ [] := by
            rintro rfl
            simp [Split.ofStatements] at notLast
          rw [Split.weaveAll_split]
          refine (rest given).bind fun body _ _ _ => ?_
          refine (Meets.drawIds (draws_routine name body s.span)).bind fun routine _ _ _ => ?_
          refine (wire _).map ?_
          rintro fresh mid hi wired le wovenPivot _ - - ⟨rfl, i, j, k, hi, hj, hk, rfl⟩ lo le' -
            woven visible
          obtain ⟨entries, fromBody, woven, perm, between⟩ := woven visible
          obtain ⟨entries', wovenPivot, between'⟩ := wovenPivot (name :: visible)
          refine ⟨_, fromBody ++ entries'.map Entry.name,
            .split marked more hi hj hk woven wovenPivot, ?_, between.append between' le' le⟩
          simp only [List.map_cons, List.map_append, ← List.append_assoc]
          exact (perm.append_right _).cons name

/-- Blocks are rotated as they should be, however deep they nest. -/
theorem Block.rotates_rotateTo (n : Nat) :
    Rotates config t max n (Block.rotateTo ⟨config, t⟩ n) := by
  induction n with
  | zero =>
    intro loops b tail near around height
    have := b.height_pos
    omega
  | succ n ih =>
    intro loops b tail near around height ready agrees
    have height' : ∀ s ∈ b.statements, s.height ≤ n := fun s hs => by
      have := Statement.height_lt hs
      omega
    have ready' : ∀ s ∈ b.statements, (Node.statement s).Ready t near := by
      cases ready with
      | block statements => exact statements
    have weave {named : List (Split × Option String)}
        (given : Split.Named (Split.ofStatements t b.statements).2 named) :=
      meets_weaveAll ih agrees tail b.statements height' ready' given
    simp only [Block.rotateTo, Block.rotateWith]
    generalize Split.ofStatements t b.statements = r at weave
    obtain ⟨before, splits⟩ := r
    cases splits with
    | nil =>
      have whole : (do
          let last ← drawIds (Split.ending tail)
          return { b with statements := before ++ last }) =
          (fun out => { b with statements := out }) <$>
            Split.weaveAll ⟨config, t⟩ (Block.rotateTo ⟨config, t⟩ n) loops tail before [] := by
        simp [Split.weaveAll, Split.weave]
      simp only [List.isEmpty_nil, ↓reduceIte]
      rw [whole]
      refine (weave .nil).map fun fresh lo hi out _ woven => ⟨out, rfl, fun visible => ?_⟩
      obtain ⟨entries, more, woven, perm, between⟩ := woven visible
      exact ⟨entries, woven, between.perm perm⟩
    | cons s ss =>
      simp only [List.isEmpty_cons, Bool.false_eq_true, ↓reduceIte]
      refine (Split.meets_withNames _).bind fun named _ _ known => ?_
      have notEmpty : named.isEmpty = false := by
        cases known.1 <;> rfl
      have whole : (do
          let after ← Split.weave ⟨config, t⟩ (Block.rotateTo ⟨config, t⟩ n) loops tail named
          return { b with statements := before ++ after }) =
          (fun out => { b with statements := out }) <$>
            Split.weaveAll ⟨config, t⟩ (Block.rotateTo ⟨config, t⟩ n) loops tail before named := by
        simp [Split.weaveAll, notEmpty]
      rw [whole]
      refine (weave known.1).map ?_
      rintro fresh mid hi out le woven lo le' - ⟨-, drawn⟩
      refine ⟨out, rfl, fun visible => ?_⟩
      obtain ⟨entries, more, woven, perm, between⟩ := woven visible
      exact ⟨entries, woven, (drawn.append between le' le).perm perm⟩

end

end WaitDefer
