import WaitDefer.Compile
import WaitDefer.Proofs.Rotation.Weaving

/-!
# A function hoisted and rotated

* `Rotation.Keeps`: a supply that has run out of ids stays so, also where rotation fails;
* `Func.rotate_spec`, `Func.lower_spec`: a marked function is rotated, or hoisted and rotated,
  without failure, and what comes of its body is woven.
-/

namespace WaitDefer

open Build Rotation

/-! ## Running out of ids -/

/-- A step does not forget that ids ran out. -/
def Rotation.Keeps {α : Type} (x : Rotation α) : Prop :=
  ∀ s : Supply, s.ids.exhausted = true → (x s).2.ids.exhausted = true

namespace Rotation.Keeps

variable {α β : Type}

theorem pure (a : α) : Keeps (Pure.pure a) := fun _ e => e

theorem throw (e : InternalError) : Keeps (MonadExcept.throw e : Rotation α) := fun _ e => e

theorem bind {x : Rotation α} {f : α → Rotation β} (hx : Keeps x) (hf : ∀ a, Keeps (f a)) :
    Keeps (x >>= f) := by
  intro s exhausted
  have first := hx s exhausted
  have unfolded : (x >>= f) s = ExceptT.bindCont f (x s).1 (x s).2 := rfl
  rw [unfolded]
  cases (x s).1 with
  | error e => exact first
  | ok a => exact hf a _ first

theorem map {x : Rotation α} (f : α → β) (hx : Keeps x) : Keeps (f <$> x) := by
  rw [← bind_pure_comp]
  exact hx.bind fun a => .pure _

theorem drawIds {P : (NodeId → Prop) → α → Prop} {x : Draw α} (hx : Draws x P) :
    Keeps (Rotation.drawIds x) := fun s => (hx s.ids).1

theorem drawName (f : NameSupply → α × NameSupply) : Keeps (Rotation.drawName f) := fun _ e => e

theorem names : Keeps Rotation.names := fun _ e => e

end Rotation.Keeps

section
variable {ctx : RotationContext} {inner : BlockRotation}
  (hinner : ∀ loops b tail, Keeps (inner loops b tail))

include hinner

theorem Wiring.keeps_optionalArm (loops : LoopStack) (arm : Option Block) (after : Option Expr)
    (span : Span) : Keeps (optionalArm inner loops arm after span) := by
  cases arm with
  | some b => exact (hinner _ _ _).map _
  | none =>
    cases after with
    | none => exact .pure _
    | some call => exact .drawIds (draws_missingArm call span)

theorem Wiring.keeps_arms (loops : LoopStack) (after : Option Expr) (as : List Arm) :
    Keeps (arms inner loops after as) := by
  induction as with
  | nil => exact .pure _
  | cons a as ih => exact (hinner _ _ _).bind fun _ => ih.bind fun _ => .pure _

theorem Wiring.keeps_lowerWait (loops : LoopStack) (body : Block) (after : Option Expr)
    (span : Span) : Keeps (lowerWait ctx inner loops body after span) := by
  refine (Keeps.drawName _).bind fun counter => Keeps.names.bind fun supply => ?_
  refine (Keeps.drawIds (Block.draws_anything _ body)).bind fun body' => ?_
  refine (Keeps.drawIds (draws_continuationValue after span)).bind fun value => ?_
  exact (hinner _ _ _).bind fun _ => (Keeps.drawIds (draws_statement _ _)).bind fun _ => .pure _

theorem Wiring.keeps_lowerLoop (loops : LoopStack) (label : Option Ident) (head : LoopHead)
    (body : Block) (exit : Option Expr) (span : Span) :
    Keeps (lowerLoop inner loops label head body exit span) := by
  refine (Keeps.drawName _).bind fun names => (hinner _ _ _).bind fun rotated => ?_
  exact .drawIds (draws_loopBlock names head rotated exit span)

theorem Wiring.keeps_statement (loops : LoopStack) (s : Statement) (after : Option Expr) :
    Keeps (statement ctx inner loops s after) := by
  unfold statement
  split
  · exact ((hinner _ _ _).map _).bind fun _ => .pure _
  · refine (hinner _ _ _).bind fun _ => (keeps_optionalArm hinner _ _ _ _).bind fun _ => ?_
    exact (Keeps.pure _).bind fun _ => .pure _
  · refine (keeps_arms hinner _ _ _).bind fun _ => (keeps_optionalArm hinner _ _ _ _).bind
      fun _ => ?_
    exact (Keeps.pure _).bind fun _ => .pure _
  · exact ((keeps_lowerWait hinner _ _ _ _).map _).bind fun _ => .pure _
  · split
    · exact ((keeps_lowerLoop hinner _ _ _ _ _ _).map _).bind fun _ => .pure _
    · exact (Keeps.throw _).bind fun _ => .pure _
  · refine Keeps.bind ?_ fun _ => .pure _
    unfold lowerJump
    split
    · exact .throw _
    · split <;> exact .pure _
  · exact (Keeps.throw _).bind fun _ => .pure _

theorem Split.keeps_weave (loops : LoopStack) (tail : Option Expr)
    (named : List (Split × Option String)) : Keeps (weave ctx inner loops tail named) := by
  induction named with
  | nil => exact .pure _
  | cons s named ih =>
    obtain ⟨s, name⟩ := s
    cases name with
    | none =>
      exact ih.bind fun _ => (Wiring.keeps_statement hinner _ _ _).bind fun _ => .pure _
    | some name =>
      refine ih.bind fun after => ?_
      have finish (last : List Statement) : Keeps (do
          let routine ← Rotation.drawIds
            (Build.routine name (s.following ++ after ++ last) s.pivot.span)
          let wired ← Wiring.statement ctx inner loops s.pivot
            (some (.callNamed name s.pivot.span))
          return [routine, wired]) :=
        (Keeps.drawIds (draws_routine _ _ _)).bind fun _ =>
          (Wiring.keeps_statement hinner _ _ _).bind fun _ => .pure _
      dsimp only
      split
      · exact (Keeps.drawIds (draws_ending tail)).bind finish
      · exact (Keeps.pure _).bind finish

end

theorem Split.keeps_withNames (ss : List Split) : Keeps (withNames ss) := by
  induction ss with
  | nil => exact .pure _
  | cons s ss ih =>
    unfold withNames
    dsimp only
    split
    · exact ((Keeps.drawName _).map _).bind fun _ => ih.bind fun _ => .pure _
    · exact (Keeps.pure _).bind fun _ => ih.bind fun _ => .pure _

theorem Block.keeps_rotateTo (ctx : RotationContext) (n : Nat) (loops : LoopStack) (b : Block)
    (tail : Option Expr) : Keeps (rotateTo ctx n loops b tail) := by
  induction n generalizing loops b tail with
  | zero => exact .pure _
  | succ n ih =>
    simp only [rotateTo, rotateWith]
    split
    · exact (Keeps.drawIds (draws_ending tail)).bind fun _ => .pure _
    · refine (Split.keeps_withNames _).bind fun _ => ?_
      exact (Split.keeps_weave ih _ _ _).bind fun _ => .pure _

/-! ## Declarations at the top -/

/-- New declarations without values. -/
def Declares (fresh : NodeId → Prop) (ds : List Statement) : Prop :=
  ∀ d ∈ ds, ∃ i name, fresh i ∧ d = .declaration i name

theorem draws_declarations (names : List Ident) : Draws (declarations names) Declares := by
  induction names with
  | nil => exact .pure fun _ d hd => by cases hd
  | cons name names ih =>
    refine draws_fresh.bind fun i => ih.bind fun ds => .pure ?_
    intro fresh rest hi d hd
    rcases List.mem_cons.mp hd with rfl | hd
    · exact ⟨i, name, hi, rfl⟩
    · exact rest d hd

/-- Declarations stay in front of what is woven. -/
theorem Woven.of_declarations {config : Config} {t : MarkTable} {max : NodeId}
    {fresh : NodeId → Prop} {visible : List String} {around : Option LoopContext}
    {ds ss out : List Statement} {tail : Option Expr} {entries : List Entry}
    (unmarked : ∀ d ∈ ds, t.hasAny d.id .split = false)
    (h : Woven config t max fresh visible around (.run (ds ++ ss) tail out) entries) :
    ∃ rest, out = ds ++ rest ∧
      Woven config t max fresh visible around (.run ss tail rest) entries := by
  induction ds generalizing out with
  | nil => exact ⟨out, rfl, h⟩
  | cons d ds ih =>
    have hd := unmarked d List.mem_cons_self
    rw [List.cons_append] at h
    generalize same : ds ++ ss = more at h
    cases h with
    | keep _ _ _ rest =>
      subst same
      obtain ⟨more, rfl, woven⟩ := ih (fun x hx => unmarked x (List.mem_cons_of_mem _ hx)) rest
      exact ⟨more, rfl, woven⟩
    | jump marked | last marked | split marked => simp [hd] at marked

namespace Func

variable {config : Config} {f : Func} {m : Marking} {max : NodeId} {fresh : NodeId → Prop}

theorem draws_hoist (f : Func) :
    Draws f.hoist fun fresh r => ∃ ds, Declares fresh ds ∧
      r.1 = { f with body := { f.body with
        statements := ds ++ f.body.undeclared.statements } } := by
  refine (draws_declarations _).bind fun ds => .pure ?_
  exact fun fresh declares => ⟨ds, declares, rfl⟩

theorem keeps_rotate (ctx : RotationContext) (f : Func) : Keeps (f.rotate ctx) :=
  (Block.keeps_rotateTo _ _ _ _ _).bind fun _ => .pure _

theorem keeps_lower (ctx : RotationContext) (f : Func) : Keeps (f.lower ctx) :=
  (Keeps.drawIds f.draws_hoist).bind fun _ => keeps_rotate ctx _

/-- The body of a marked function is still ready when its declarations stand at the top. -/
theorem ready_hoisted (distinct : (Node.block f.body).ownIds.Nodup) (simple : f.HasSimpleHeads)
    (ok : f.marking config = .ok m) (unused : Unused m.table max fresh) {ds : List Statement}
    (declares : Declares fresh ds) :
    (Node.block { f.body with statements := ds ++ f.body.undeclared.statements }).Ready m.table
      none := by
  have same : (Node.block f.body.undeclared).plain config = (Node.block f.body).plain config := by
    simp [Node.plain, Block.plain_undeclared]
  have ready := (ready_of_marking distinct simple ok).of_plain_eq same
  refine .block fun s hs => ?_
  rcases List.mem_append.mp hs with hs | hs
  · obtain ⟨i, name, hi, rfl⟩ := declares s hs
    have none := unused.unmarked i hi
    refine .keep (MarkTable.hasAny_of_none none _) ?_ ?_
    · intro n hn
      simp only [Statement.declaration, Node.ownNodes, Statement.ownNodes, Statement.nodes,
        StatementKind.nodes, List.mem_cons, List.not_mem_nil, or_false] at hn
      rcases hn with rfl | rfl
      · refine ⟨rfl, ?_⟩
        rintro _ ⟨⟩
        exact none
      · exact ⟨rfl, by simp [Node.id?]⟩
    · exact .other rfl rfl (by simp [Statement.declaration, StatementKind.blocks])
  · cases ready with
    | block statements => exact statements s hs

variable (max) in
/-- A function that is ready is rotated without failure, and its statements are woven. -/
theorem rotate_spec {t : MarkTable} (ready : (Node.block f.body).Ready t none) {s s' : Supply}
    {r : Except InternalError Func} (reserved : s.names.reserved = config.reservedPrefix)
    (promises : s.ids.Promises fresh) (run : f.rotate ⟨config, t⟩ s = (r, s'))
    (last : s'.ids.exhausted = true → fresh NodeId.last) :
    s'.names.reserved = config.reservedPrefix ∧ s'.ids.Promises fresh ∧
      ∃ out entries, r = .ok { f with body := { f.body with statements := out } } ∧
        Woven config t max fresh [] none (.run f.body.statements none out) entries ∧
        (entries.map Entry.name).Nodup := by
  have rotates : Rotates config t max _ _ := Block.rotates_rotateTo f.body.height
  obtain ⟨b, s₁, ran, reserved, -, -, meets⟩ :=
    rotates [] _ none none none (Nat.le_refl _) ready .none s reserved
  have result (h : Func) (σ : Supply) : h.rotate ⟨config, t⟩ σ =
      (ExceptT.bindCont (fun body => (pure { h with body } : Rotation Func))
        (h.body.rotate ⟨config, t⟩ none σ).1 : StateM Supply _)
        (h.body.rotate ⟨config, t⟩ none σ).2 := rfl
  rw [result, Block.rotate, ran] at run
  obtain ⟨rfl, rfl⟩ := Prod.ext_iff.mp run
  obtain ⟨promises, out, rfl, woven⟩ := meets fresh promises last
  obtain ⟨entries, woven, names⟩ := woven []
  exact ⟨reserved, promises, out, entries, rfl, woven, names.nodup⟩

/-- **A marked function is hoisted and rotated without failure.** Its name and parameters stay; its
body is new declarations, then what its old body is woven to. -/
theorem lower_spec (distinct : (Node.block f.body).ownIds.Nodup) (simple : f.HasSimpleHeads)
    (ok : f.marking config = .ok m) (unused : Unused m.table max fresh) {s s' : Supply}
    {r : Except InternalError Func} (reserved : s.names.reserved = config.reservedPrefix)
    (promises : s.ids.Promises fresh) (run : f.lower ⟨config, m.table⟩ s = (r, s'))
    (last : s'.ids.exhausted = true → fresh NodeId.last) :
    s'.names.reserved = config.reservedPrefix ∧ s'.ids.Promises fresh ∧
      ∃ ds out entries, r = .ok { f with body := { f.body with statements := ds ++ out } } ∧
        Declares fresh ds ∧
        Woven config m.table max fresh [] none (.run f.body.undeclared.statements none out)
          entries ∧ (entries.map Entry.name).Nodup := by
  have unfolded : f.lower ⟨config, m.table⟩ s =
      (f.hoist s.ids).1.1.rotate ⟨config, m.table⟩ { s with ids := (f.hoist s.ids).2 } := rfl
  rw [unfolded] at run
  obtain ⟨-, hoisted⟩ := f.draws_hoist s.ids
  obtain ⟨promises, ds, declares, same⟩ := hoisted fresh promises fun e => last (by
    have := keeps_rotate ⟨config, m.table⟩ (f.hoist s.ids).1.1
      { s with ids := (f.hoist s.ids).2 } e
    rwa [run] at this)
  rw [same] at run
  obtain ⟨reserved, promises, out, entries, rfl, woven, names⟩ :=
    rotate_spec max (s := { s with ids := (f.hoist s.ids).2 })
      (ready_hoisted distinct simple ok unused declares) reserved promises run last
  have unmarked : ∀ d ∈ ds, m.table.hasAny d.id .split = false := by
    intro d hd
    obtain ⟨i, name, hi, rfl⟩ := declares d hd
    exact MarkTable.hasAny_of_none (unused.unmarked i hi) _
  obtain ⟨rest, rfl, wovenRest⟩ := woven.of_declarations unmarked
  exact ⟨reserved, promises, ds, rest, entries, rfl, declares, wovenRest, names⟩

/-! ## Hoisted or not -/

/-- A step that rotates a function, as it is or with its declarations hoisted. -/
def IsRotation (ctx : RotationContext) (f : Func) (step : Rotation Func) : Prop :=
  step = f.rotate ctx ∨ step = f.lower ctx

/-- A marked function is rotated without failure, whether its declarations are hoisted or not. -/
theorem isRotation_spec (distinct : (Node.block f.body).ownIds.Nodup) (simple : f.HasSimpleHeads)
    (ok : f.marking config = .ok m) (unused : Unused m.table max fresh) {step : Rotation Func}
    (rotates : f.IsRotation ⟨config, m.table⟩ step) {s s' : Supply}
    {r : Except InternalError Func} (reserved : s.names.reserved = config.reservedPrefix)
    (promises : s.ids.Promises fresh) (run : step s = (r, s'))
    (last : s'.ids.exhausted = true → fresh NodeId.last) :
    ∃ b ds out entries, (b = f.body ∨ b = f.body.undeclared) ∧
      r = .ok { f with body := { f.body with statements := ds ++ out } } ∧ Declares fresh ds ∧
      Woven config m.table max fresh [] none (.run b.statements none out) entries ∧
      (entries.map Entry.name).Nodup := by
  rcases rotates with rfl | rfl
  · obtain ⟨-, -, out, entries, rfl, woven, names⟩ :=
      rotate_spec max (ready_of_marking distinct simple ok) reserved promises run last
    exact ⟨_, [], out, entries, .inl rfl, rfl, by simp [Declares], woven, names⟩
  · obtain ⟨-, -, ds, out, entries, rfl, declares, woven, names⟩ :=
      lower_spec distinct simple ok unused reserved promises run last
    exact ⟨_, ds, out, entries, .inr rfl, rfl, declares, woven, names⟩

end Func

end WaitDefer
