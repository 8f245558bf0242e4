import WaitDefer.Proofs.Compile.Renamed
import WaitDefer.Proofs.Compile.Scoped
import WaitDefer.Proofs.Rotation.Inside

/-!
# Compiled code without wait-blocks

Where the result is verified, neither wait-blocks nor callbacks are left in it. This rests on the
survey that decides what is rotated, which does not take what it finds in the head of a loop for a
reason to rotate:

* `Block.HoldsWait`: a wait-block that the survey takes note of;
* `Func.desugared_units`: units without one are free of wait-blocks and callbacks as they are, the
  others once they are rotated;
* `Module.desugared_of_compile`: a whole module.
-/

namespace WaitDefer

open Session

/-! ## Wait-blocks and callbacks -/

/-- A node is a wait-block or a callback. -/
def Node.isSugar : Node → Bool
  | .statement s => s.kind.isWait
  | .expr e => e.isDefer
  | _ => false

/-- None of some nodes is a wait-block or a callback. -/
def Desugared (ns : List Node) : Prop := ∀ n ∈ ns, n.isSugar = false

theorem Desugared.mono {l l' : List Node} (h : Desugared l) (sub : ∀ n ∈ l', n ∈ l) :
    Desugared l' := fun n hn => h n (sub n hn)

/-- A wait-block is in a block or in one that it holds. The heads of loops are left out. -/
inductive Block.HoldsWait : Block → Prop
  | here {b : Block} {s : Statement} (hs : s ∈ b.statements) (isWait : s.kind.isWait = true) :
      HoldsWait b
  | inside {b c : Block} {s : Statement} (hs : s ∈ b.statements) (hc : c ∈ s.kind.blocks)
      (holds : HoldsWait c) : HoldsWait b

/-- A function that has wait-blocks does not have all of them in the heads of loops. -/
def Func.HoldsWaits (f : Func) : Prop := (Node.block f.body).Waits → f.body.HoldsWait

/-- This for all functions among some nodes. -/
def HoldingWaits (ns : List Node) : Prop := ∀ f, .func f ∈ ns → f.HoldsWaits

theorem HoldingWaits.mono {l l' : List Node} (h : HoldingWaits l) (sub : ∀ n ∈ l', n ∈ l) :
    HoldingWaits l' := fun f hf => h f (sub _ hf)

/-! ## Units that are not rotated -/

section
variable {config : Config}

/-- The survey takes note of a wait-block outside of heads. -/
theorem Block.HoldsWait.survey {b : Block} (h : b.HoldsWait) {room : Nat} {inWait : Bool}
    (lawful : (b.survey config room inWait).violations = []) :
    (b.survey config room inWait).waits = true := by
  induction h generalizing room inWait with
  | @here b s hs isWait =>
    rw [Block.survey_eq, Survey.within_violations, Statement.listSurvey_violations_eq_nil] at lawful
    rw [Block.survey_eq, Survey.within_waits, Statement.listSurvey_waits]
    refine ⟨s, hs, ?_⟩
    obtain ⟨room, rfl⟩ := Statement.room_of_survey config (lawful s hs)
    rw [Statement.survey_succ, Survey.within_waits, StatementKind.survey_waits]
    exact .inl isWait
  | @inside b c s hs hc holds ih =>
    rw [Block.survey_eq, Survey.within_violations, Statement.listSurvey_violations_eq_nil] at lawful
    rw [Block.survey_eq, Survey.within_waits, Statement.listSurvey_waits]
    refine ⟨s, hs, ?_⟩
    obtain ⟨room, rfl⟩ := Statement.room_of_survey config (lawful s hs)
    have parts := Statement.lawful_of_survey config (lawful s hs)
    rw [Statement.survey_succ, Survey.within_waits, StatementKind.survey_waits]
    exact .inr ⟨c, hc, ih (parts.blocks c hc)⟩

theorem Expr.desugared_of_survey {e : Expr} (h : (Survey.ofExpr false e).violations = []) :
    Desugared e.ownNodes := by
  intro n hn
  cases n with
  | statement s => cases e.id?_of_mem_ownNodes _ hn
  | expr e' =>
    cases e' with
    | defer bindings span => exact absurd hn ((Survey.ofExpr_violations_eq_nil e).mp h _ _)
    | _ => rfl
  | _ => rfl

/-- Code that breaks no rule and has no wait-block has no callback. -/
theorem Block.desugared_of_survey {b : Block} {room : Nat}
    (lawful : (b.survey config room false).violations = [])
    (quiet : ∀ n ∈ b.ownNodes, n.isWait = false) : Desugared b.ownNodes := by
  induction b using Block.inductOn (Q := fun s : Statement => ∀ room : Nat,
      (s.survey config room false).violations = [] → (∀ n ∈ s.ownNodes, n.isWait = false) →
      Desugared s.ownNodes) generalizing room with
  | block b ih =>
    rw [Block.survey_eq, Survey.within_violations, Statement.listSurvey_violations_eq_nil] at lawful
    intro n hn
    rw [Block.ownNodes, Block.nodes_eq, List.mem_cons, List.mem_flatMap] at hn
    rcases hn with rfl | ⟨s, hs, hn⟩
    · rfl
    · exact ih s hs room (lawful s hs) (fun n hn => quiet n (Block.mem_nodes_of_statement hs hn)) n hn
  | statement s headers blocks =>
    rename_i room lawful quiet
    obtain ⟨room, rfl⟩ := Statement.room_of_survey config lawful
    have parts := Statement.lawful_of_survey config lawful
    have isWait : s.kind.isWait = false := quiet _ (Node.self_mem_ownNodes (.statement s))
    intro n hn
    rcases Statement.mem_nodes_iff.mp hn with rfl | ⟨i, -, rfl⟩ | ⟨e, he, hn⟩ | ⟨h, hh, hn⟩ |
      ⟨b, hb, hn⟩ | ⟨f, -, hn⟩
    · exact isWait
    · rfl
    · exact Expr.desugared_of_survey (parts.exprs e he) n hn
    · exact headers h hh _ (parts.headers h hh)
        (fun n hn => quiet n (Statement.mem_nodes_of_header hh hn)) n hn
    · have lawful := parts.blocks b hb
      rw [isWait, Bool.or_false] at lawful
      exact blocks b hb lawful (fun n hn => quiet n (Statement.mem_nodes_of_block hb hn)) n hn
    · exact absurd hn (Func.not_mem_nodes n f)

/-- A function that is not rotated has neither wait-blocks nor callbacks. -/
theorem Func.desugared_of_quiet {f : Func} {marking : Marking}
    (ok : f.marking config = .ok marking) (quiet : marking.hasWait f = false)
    (holds : f.HoldsWaits) : Desugared f.body.ownNodes := by
  have lawful := (marking_spec ok).1.body
  have noWaits : (f.body.survey config config.maxDepth false).waits = false := by
    rw [← Bool.not_eq_true]
    intro waits
    rw [Marking.hasWait, MarkTable.has_await, ← Bool.not_eq_true, awaits_iff ok, Block.survey_eq,
      Survey.mem_within_awaiting] at quiet
    rw [Block.survey_eq, Survey.within_waits] at waits
    exact quiet (.inl ⟨rfl, waits⟩)
  refine Block.desugared_of_survey lawful fun n hn => ?_
  rw [← Bool.not_eq_true]
  intro isWait
  have waits := (holds ⟨n, hn, isWait⟩).survey lawful
  rw [noWaits] at waits
  cases waits

/-! ## Units that are rotated -/

/-- What has no flaw has neither wait-blocks nor callbacks. -/
theorem Func.desugared_of_flaw {f : Func} {t : MarkTable} {max : NodeId}
    (none : f.flaw? t max = none) : Desugared (f.unitNodes max) := by
  intro n hn
  rw [Func.flaw?, List.head?_eq_none_iff, List.flatMap_eq_nil_iff] at none
  have flaws := none n hn
  cases n with
  | statement s =>
    obtain ⟨id, kind, span⟩ := s
    cases kind <;> first | rfl | simp [Node.flaws] at flaws
  | expr e => cases e <;> first | rfl | simp [Node.flaws] at flaws
  | _ => rfl

end

/-! ## Functions inside -/

/-- A function without wait-blocks and callbacks, or one that is made up around such functions. -/
inductive Func.Settled (max : NodeId) : Func → Prop
  | desugared {f : Func} (h : Desugared f.allNodes) : Settled max f
  | made {f : Func} (isNew : max < f.id)
      (inside : ∀ n ∈ f.body.ownNodes, ∀ g ∈ n.functions, Settled max g) : Settled max f

section
variable {max : NodeId}

/-- A function is free of wait-blocks and callbacks if its own code and the functions inside are. -/
theorem Func.desugared_of_inside {f : Func} (own : Desugared f.body.ownNodes)
    (inside : Carries (.only fun g => Desugared g.allNodes) f.body.ownNodes) :
    Desugared f.allNodes := by
  intro n hn
  rw [f.allNodes_eq] at hn
  simp only [List.mem_cons, List.mem_append, List.mem_map] at hn
  rcases hn with rfl | (⟨i, -, rfl⟩ | ⟨i, -, rfl⟩) | hn
  · rfl
  · rfl
  · rfl
  · rcases Block.own_or_inside hn with own' | ⟨m, hm, g, hg, hn⟩
    · exact own n own'
    · exact (inside m hm).functions g hg n hn

/-- What is known of a unit is known of the new functions inside. -/
theorem Desugared.inside {f g : Func} {m : Node} (unit : Desugared (f.unitNodes max))
    (hm : m ∈ f.body.ownNodes) (hg : g ∈ m.functions) (isNew : max < g.id) :
    Desugared (g.unitNodes max) := by
  refine unit.mono fun n hn => Block.mem_nodes_of_inside hm hg ?_
  obtain ⟨id, name, params, body, span⟩ := g
  have entered : decide (max < id) = true := decide_eq_true isNew
  rw [Func.nodes, if_pos entered]
  exact List.mem_cons_of_mem _ (List.mem_append_right _ hn)

theorem Desugared.own {f : Func} (unit : Desugared (f.unitNodes max)) :
    Desugared f.body.ownNodes := unit.mono fun _ hn => (f.body.ownNodes_subperm _).subset hn

theorem Func.Settled.desugar {f : Func} (h : f.Settled max)
    (unit : max < f.id → Desugared (f.unitNodes max)) : Desugared f.allNodes := by
  induction h with
  | desugared h => exact h
  | made isNew inside ih =>
    have unit := unit isNew
    exact Func.desugared_of_inside unit.own (Carries.only_iff.mpr fun m hm g hg =>
      ih m hm g hg (unit.inside hm hg))

theorem Func.extends_settled (reserved : String) :
    (Traits.only (Func.Settled max)).Extends (.new max) reserved where
  routine _ _ _ _ _ isNew _ inside :=
    .made isNew (Carries.only_iff.mp (Carries.block_iff.mpr inside))
  continuation _ isNew _ _ _ inside := .made isNew (Carries.only_iff.mp inside)
  callback _ _ params bindings ids _ isNew _ _ _ := .made isNew (Carries.only_iff.mp
    (Carries.block_iff.mpr (Callbacks.carries_assignments bindings params ids)))
  counter _ _ _ := trivial

end

/-! ## Units -/

theorem Block.holdsWait_iff {b : Block} : b.HoldsWait ↔
    ∃ s ∈ b.statements, s.kind.isWait = true ∨ ∃ c ∈ s.kind.blocks, c.HoldsWait := by
  constructor
  · rintro (⟨hs, isWait⟩ | ⟨hs, hc, holds⟩)
    · exact ⟨_, hs, .inl isWait⟩
    · exact ⟨_, hs, .inr ⟨_, hc, holds⟩⟩
  · rintro ⟨s, hs, isWait | ⟨c, hc, holds⟩⟩
    · exact .here hs isWait
    · exact .inside hs hc holds

section
variable {config : Config} {max : NodeId}

/-- Transforming the functions inside code leaves the wait-blocks where they are. -/
theorem Block.waits_rewrite (b : Block) (s : Session) :
    ((Node.block (b.rewrite (.transformUnits config max) s).1).Waits → (Node.block b).Waits) ∧
      (b.HoldsWait → (b.rewrite (.transformUnits config max) s).1.HoldsWait) := by
  let T : Triples Session Unit := .keeping fun _ => True
  have anything {α : Type} (y : StateM Session α) : T.Of y fun _ _ => True :=
    fun _ _ => ⟨trivial, trivial⟩
  have whole : T.Of (b.rewrite (.transformUnits config max)) fun _ b' =>
      ((Node.block b').Waits → (Node.block b).Waits) ∧ (b.HoldsWait → b'.HoldsWait) := by
    induction b using Block.inductOn (Q := fun s : Statement =>
        T.Of (s.rewrite (.transformUnits config max)) fun _ s' =>
          ((Node.statement s').Waits → (Node.statement s).Waits) ∧
            (s.kind.isWait = true ∨ (∃ c ∈ s.kind.blocks, c.HoldsWait) →
              s'.kind.isWait = true ∨ ∃ c ∈ s'.kind.blocks, c.HoldsWait)) with
    | block b ih =>
      obtain ⟨id, ss, span⟩ := b
      refine T.bind (Statement.alike_listRewrite T ih) fun ss' => T.pure fun _ alike => ⟨?_, ?_⟩
      · rw [Node.waits_iff, Node.waits_iff]
        simp only [Node.isWait, Node.children, List.mem_map, exists_exists_and_eq_and,
          Bool.false_eq_true, false_or]
        rintro ⟨s', hs', waits⟩
        obtain ⟨s, hs, same⟩ := exists_left_of_forall₂ alike hs'
        exact ⟨s, hs, same.1 waits⟩
      · rw [holdsWait_iff, holdsWait_iff]
        rintro ⟨s, hs, holds⟩
        obtain ⟨s', hs', same⟩ := exists_left_of_forall₂ alike.flip hs
        exact ⟨s', hs', same.2 holds⟩
    | statement s headers blocks =>
      obtain ⟨id, kind, span⟩ := s
      refine T.bind (StatementKind.alike_rewrite T (fun e _ => anything _) headers blocks
        fun f _ => anything _) fun k' => T.pure fun _ alike => ⟨?_, ?_⟩
      · rw [Node.waits_iff, Node.waits_iff]
        simp only [Node.isWait, alike.isWait, Node.children, List.mem_append, List.mem_map,
          or_and_right, exists_or, exists_exists_and_eq_and]
        rintro (isWait | ⟨h', hh', waits⟩ | ⟨b', hb', waits⟩)
        · exact .inl isWait
        · obtain ⟨h, hh, same⟩ := exists_left_of_forall₂ alike.headers hh'
          exact .inr (.inl ⟨h, hh, same.1 waits⟩)
        · obtain ⟨b, hb, same⟩ := exists_left_of_forall₂ alike.blocks hb'
          exact .inr (.inr ⟨b, hb, same.1 waits⟩)
      · rintro (isWait | ⟨b, hb, holds⟩)
        · exact .inl (alike.isWait.trans isWait)
        · obtain ⟨b', hb', same⟩ := exists_left_of_forall₂ alike.blocks.flip hb
          exact .inr ⟨b', hb', same.2 holds⟩
  exact (whole s trivial).2

/-- Without an error, a unit is made into one that is free of wait-blocks and callbacks, if the
functions inside it are. -/
theorem Func.desugared_transform (verify : config.verify = true) (f : Func) :
    (Session.sound config max).Of (f.transform config max) fun _ g => f.HoldsWaits →
      Carries (.only fun g => Desugared g.allNodes) f.body.ownNodes → Desugared g.allNodes := by
  refine makes_transform (fun marking ok quiet holds inside => ?_) ?_
  · exact Func.desugared_of_inside (Func.desugared_of_quiet ok quiet holds) inside
  · intro marking ds out given rest names made ok declares turned isNew checked _ inside
    have settled : Carries (.only (Func.Settled max)) f.body.ownNodes :=
      Carries.only_iff.mpr fun n hn g hg => .desugared ((inside n hn).functions g hg)
    have carries := Func.carries_lower (extends_settled _) settled declares turned (.new isNew)
    have unit := Func.desugared_of_flaw (checked verify)
    exact Func.desugared_of_inside unit.own (Carries.only_iff.mpr fun m hm g hg =>
      ((carries m hm).functions g hg).desugar (unit.inside hm hg))

/-- Units are made into ones that are free of wait-blocks and callbacks, with the units inside. -/
theorem Func.desugared_units (verify : config.verify = true) :
    let T := Session.sound config max
    let r := Rewriting.transformUnits config max
    let P := Traits.only fun g => Desugared g.allNodes
    Cases (fun e => HoldingWaits (e.nodes fun _ => true) →
        T.Of (e.rewrite r) fun _ e' => Carries P e'.ownNodes)
      (fun f => HoldingWaits f.allNodes → T.Of (f.rewrite r) fun _ g => Desugared g.allNodes)
      (fun b => HoldingWaits (b.nodes fun _ => true) →
        T.Of (b.rewrite r) fun _ b' => Carries P b'.ownNodes)
      fun s => HoldingWaits (s.nodes fun _ => true) →
        T.Of (s.rewrite r) fun _ s' => Carries P s'.ownNodes where
  expr e operands functions := by
    intro holds
    refine Triples.weaken _ (Expr.alike_rewrite _ (fun _ => rfl) (fun o ho => operands o ho ?_)
      fun f hf => functions f hf ?_) fun _ e' alike => ?_
    · exact holds.mono fun n hn => Expr.mem_nodes_of_operand ho hn
    · exact holds.mono fun n hn => Expr.mem_nodes_of_function hf hn
    · rw [Expr.carries_iff]
      refine ⟨⟨fun f hf => ?_, fun _ _ => trivial, fun _ _ => trivial⟩, fun o ho => ?_⟩
      · obtain ⟨-, -, inside⟩ := exists_left_of_forall₂ alike.functions hf
        exact inside
      · obtain ⟨-, -, inside⟩ := exists_left_of_forall₂ alike.operands ho
        exact inside
  func f body := by
    intro holds
    have inBody := body (holds.mono fun n hn => f.mem_allNodes_of_body hn)
    have own : f.HoldsWaits := holds f (by simp [f.allNodes_eq])
    refine spending_of.mpr fun s => ?_
    rw [Func.rewrite_transformUnits]
    split
    · exact ⟨fun none => absurd none (fail_errors _ _), fun _ none => absurd none (fail_errors _ _)⟩
    · have shaped := sound_and (Q := fun b => ((Node.block b).Waits → (Node.block f.body).Waits) ∧
        (f.body.HoldsWait → b.HoldsWait)) inBody f.body.waits_rewrite
      refine Triples.bind (Session.sound config max) (Q := fun _ g => Desugared g.allNodes)
        (sound_of.mpr (spending_deeper (sound_of.mp shaped)))
        (fun b => Triples.weaken _ (Func.desugared_transform verify { f with body := b }) ?_) s
      exact fun _ g desugared ⟨inside, waits, holds⟩ =>
        desugared (fun h => holds (own (waits h))) inside
  block b statements := by
    intro holds
    obtain ⟨id, ss, span⟩ := b
    refine Triples.bind _ (Statement.alike_listRewrite _ fun s hs => statements s hs ?_)
      fun ss' => Triples.pure _ fun _ inside => ?_
    · exact holds.mono fun n hn => Block.mem_nodes_of_statement hs hn
    · rw [Block.carries_iff]
      intro s hs
      obtain ⟨-, -, inside⟩ := exists_left_of_forall₂ inside hs
      exact inside
  statement s exprs headers blocks functions := by
    intro holds
    obtain ⟨id, kind, span⟩ := s
    refine Triples.bind _ (StatementKind.alike_rewrite _ (fun e he => exprs e he ?_)
      (fun h hh => headers h hh ?_) (fun b hb => blocks b hb ?_) fun f hf => functions f hf ?_)
      fun k' => Triples.pure _ fun _ alike => ?_
    · exact holds.mono fun n hn => Statement.mem_nodes_of_expr he hn
    · exact holds.mono fun n hn => Statement.mem_nodes_of_header hh hn
    · exact holds.mono fun n hn => Statement.mem_nodes_of_block hb hn
    · exact holds.mono fun n hn => Statement.mem_nodes_of_function hf hn
    · rw [Statement.carries_iff]
      refine ⟨fun f hf => ?_, fun _ _ => trivial, fun e he => ?_, fun h hh => ?_, fun b hb => ?_⟩
      · obtain ⟨-, -, inside⟩ := exists_left_of_forall₂ alike.functions hf
        exact inside
      · obtain ⟨-, -, inside⟩ := exists_left_of_forall₂
          (List.rel_append alike.tests alike.operands) he
        exact inside
      · obtain ⟨-, -, inside⟩ := exists_left_of_forall₂ alike.headers hh
        exact inside
      · obtain ⟨-, -, inside⟩ := exists_left_of_forall₂ alike.blocks hb
        exact inside

/-- **Neither a wait-block nor a callback is left** in a module that compiles with a verified result,
if no function has all of its wait-blocks in the heads of loops. -/
theorem Module.desugared_of_compile {m out : Module} {ws : List EmptyWait}
    (verify : config.verify = true) (holds : HoldingWaits m.allNodes)
    (ok : m.compile config = .ok (out, ws)) : Desugared out.allNodes := by
  have units := functions_of_compile (P := fun _ g => Desugared g.allNodes) (fun f hf =>
    Func.whole (Func.desugared_units verify) f (holds.mono fun n hn =>
      List.mem_flatMap.mpr ⟨f, hf, hn⟩)) ok
  intro n hn
  obtain ⟨g, hg, hn⟩ := List.mem_flatMap.mp hn
  obtain ⟨-, -, desugared⟩ := exists_left_of_forall₂ units hg
  exact desugared n hn

end

/-- A function whose own wait-block is where `place` puts it. -/
def waitingAt (place : Statement → StatementKind) : Module :=
  let name (n : String) : Ident := ⟨n, default⟩
  let call : Expr := .call (.ident (name "a")) [.defer [] default] default
  let wait : Statement := ⟨2, .wait ⟨3, [⟨4, .expr call, default⟩], default⟩, default⟩
  ⟨[⟨0, some (name "f"), [], ⟨1, [⟨5, place wait, default⟩], default⟩, default⟩], default⟩

/-- A wait-block in a block. -/
def waitInBlock : Module := waitingAt fun wait => .block ⟨6, [wait], default⟩

/-- A wait-block before the first round of a loop. -/
def waitInHead : Module :=
  waitingAt fun wait => .loop none (.counting (some wait) none none) ⟨6, [], default⟩

theorem holdingWaits_waitInBlock : HoldingWaits waitInBlock.allNodes := by
  intro f hf
  have only : f ∈ waitInBlock.functions := by
    simpa [waitInBlock, waitingAt, Module.allNodes, Func.allNodes, Func.nodes, Block.nodes,
      Statement.listNodes, Statement.nodes, StatementKind.nodes, Expr.nodes, Expr.listNodes] using hf
  rw [waitInBlock, waitingAt, List.mem_singleton] at only
  subst only
  exact fun _ => .inside List.mem_cons_self List.mem_cons_self (.here List.mem_cons_self rfl)

theorem desugared_of_compile_waitInBlock : HoldingWaits waitInBlock.allNodes ∧ ∃ out ws,
    waitInBlock.compile {} = .ok (out, ws) ∧ Desugared out.allNodes := by
  refine ⟨holdingWaits_waitInBlock, ?_⟩
  have ran : (waitInBlock.compile {}).toBool = true := by decide +kernel
  cases ok : waitInBlock.compile {} with
  | error errors =>
    rw [ok] at ran
    cases ran
  | ok r => exact ⟨r.1, r.2, rfl, Module.desugared_of_compile rfl holdingWaits_waitInBlock ok⟩

/-- A wait-block in the head of a loop is left, though the result is verified. -/
theorem waitInHead_kept : waitInHead.ids.Nodup ∧ Config.validate {} = .ok {} ∧
    ({} : Config).verify = true ∧ ∃ out ws, waitInHead.compile {} = .ok (out, ws) ∧
      ¬ Desugared out.allNodes := by
  refine ⟨by decide, by decide, rfl, ?_⟩
  have ran : (match waitInHead.compile {} with
      | .ok (out, _) => out.allNodes.any Node.isSugar
      | .error _ => false) = true := by decide +kernel
  cases ok : waitInHead.compile {} with
  | error errors =>
    rw [ok] at ran
    cases ran
  | ok r =>
    rw [ok] at ran
    obtain ⟨n, hn, isSugar⟩ := List.any_eq_true.mp ran
    exact ⟨r.1, r.2, rfl, fun desugared => by simp [desugared n hn] at isSugar⟩

end WaitDefer
