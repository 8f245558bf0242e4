import WaitDefer.Proofs.Marking.Waits
import WaitDefer.Proofs.Report.Labels
import WaitDefer.Proofs.Tree.Spots

/-!
# Where rules are broken

Whatever is noted about a function is noted at a span of its own code: what holds of all these spans
holds of the span of every violation and warning.

* `Survey.In`, `Escapes.In`: everything noted about a piece of code has its place among some spans;
* `Block.survey_in`, `Block.escapes_in`: the two passes over the tree;
* `Func.marking_in`: the whole marking;
* `Func.marking_error_ne_nil`: a function that is not marked breaks some rule.
-/

namespace WaitDefer

variable {P : Span → Prop}

/-- Every place that a violation names is among some spans. -/
def Violation.In (P : Span → Prop) (v : Violation) : Prop := ∀ s ∈ v.spans, P s

/-- The spans of a spot and of everything inside are among some. -/
abbrev Spot.AllIn (P : Span → Prop) (x : Spot) : Prop := x.Every fun y => P y.span

/-! ## The survey -/

/-- Everything that a survey notes has its place among some spans. -/
structure Survey.In (P : Span → Prop) (s : Survey) : Prop where
  violations : ∀ v ∈ s.violations, v.In P
  warnings : ∀ w ∈ s.warnings, P w.span
  returns : ∀ r ∈ s.valueReturns, P r

namespace Survey

variable {a b s : Survey} {span : Span}

theorem In.nothing : nothing.In P := ⟨nofun, nofun, nofun⟩

theorem In.append (h : a.In P) (h' : b.In P) : (a ++ b).In P where
  violations := List.forall_mem_append.mpr ⟨h.violations, h'.violations⟩
  warnings := List.forall_mem_append.mpr ⟨h.warnings, h'.warnings⟩
  returns := List.forall_mem_append.mpr ⟨h.returns, h'.returns⟩

theorem In.within (h : s.In P) (id : NodeId) : (within id s).In P := by
  unfold Survey.within
  split
  · exact ⟨h.violations, h.warnings, h.returns⟩
  · exact h

theorem In.apart (h : s.In P) : (apart s).In P := ⟨h.violations, h.warnings, h.returns⟩

theorem In.waiting (h : s.In P) (here : P span) : (waiting span s).In P := by
  refine ⟨h.violations, List.forall_mem_append.mpr ⟨h.warnings, ?_⟩, h.returns⟩
  split
  · exact List.forall_mem_singleton.mpr here
  · exact List.forall_mem_nil _

/-- A rule that is broken in one place. -/
theorem In.violation {rule : Rule} (only : Violation.spans ⟨rule, span⟩ = [span]) (here : P span) :
    (violation rule span).In P := by
  refine ⟨List.forall_mem_singleton.mpr ?_, nofun, nofun⟩
  intro s hs
  rw [only] at hs
  rwa [List.mem_singleton.mp hs]

theorem In.declares {config : Config} {name : Ident} (here : P name.span) :
    (declares config name).In P := by
  unfold Survey.declares
  split
  · exact .violation rfl here
  · exact .nothing

theorem In.ofExpr {e : Expr} (all : (Spot.expr e).AllIn P) (inWait : Bool) :
    (ofExpr inWait e).In P := by
  unfold Survey.ofExpr
  dsimp only
  split
  · exact ⟨nofun, nofun, nofun⟩
  · refine ⟨List.forall_mem_map.mpr fun span hspan => ?_, nofun, nofun⟩
    have here : P span := by
      obtain ⟨n, hn, found⟩ := List.mem_filterMap.mp hspan
      split at found
      · cases found
        exact Expr.every_own all hn
      · cases found
    exact List.forall_mem_singleton.mpr here

theorem In.ofExpr? {e : Option Expr} (all : ∀ e' ∈ e, (Spot.expr e').AllIn P) (inWait : Bool) :
    (ofExpr? inWait e).In P := by
  cases e with
  | none => exact .nothing
  | some e => exact .ofExpr (all e rfl) inWait

end Survey

open Survey (In)

section
variable {config : Config}

theorem Statement.listSurvey_in {room : Nat} {inWait : Bool} {ss : List Statement}
    (each : ∀ s ∈ ss, (s.survey config room inWait).In P) :
    (listSurvey config room inWait ss).In P := by
  induction ss with
  | nil => exact .nothing
  | cons s ss ih =>
    obtain ⟨first, rest⟩ := List.forall_mem_cons.mp each
    exact first.append (ih rest)

theorem Arm.listSurvey_in {room : Nat} {inWait : Bool} {arms : List Arm}
    (tests : ∀ e ∈ arms.map Arm.test, (Spot.expr e).AllIn P)
    (bodies : ∀ b ∈ arms.map Arm.body, (b.survey config room inWait).In P) :
    (listSurvey config room inWait arms).In P := by
  induction arms with
  | nil => exact .nothing
  | cons a arms ih =>
    obtain ⟨test, body, span⟩ := a
    obtain ⟨first, tests⟩ := List.forall_mem_cons.mp tests
    obtain ⟨inBody, bodies⟩ := List.forall_mem_cons.mp bodies
    exact ((In.ofExpr first inWait).append inBody).append (ih tests bodies)

/-- A statement, by its parts. -/
theorem StatementKind.survey_in {room : Nat} {inWait : Bool} {span : Span} {kind : StatementKind}
    (here : P span) (exprs : ∀ e ∈ kind.tests ++ kind.operands, (Spot.expr e).AllIn P)
    (headers : ∀ h ∈ kind.headers, (h.survey config room inWait).In P)
    (blocks : ∀ b ∈ kind.blocks, ∀ inWait, (b.survey config room inWait).In P)
    (names : ∀ x ∈ kind.introduced, P x.span) : (kind.survey config room inWait span).In P := by
  cases kind with
  | declare name init =>
    refine .append (.declares (names name List.mem_cons_self)) (.ofExpr? ?_ inWait)
    exact fun e he => exprs e (Option.mem_toList.mpr he)
  | assign target value =>
    obtain ⟨inTarget, rest⟩ := List.forall_mem_cons.mp exprs
    exact .append (.ofExpr inTarget inWait) (.ofExpr (rest value List.mem_cons_self) inWait)
  | expr value => exact .ofExpr (exprs value List.mem_cons_self) inWait
  | ret value =>
    cases value with
    | none => exact .nothing
    | some value =>
      refine .append ⟨nofun, nofun, ?_⟩ (.ofExpr (exprs value List.mem_cons_self) inWait)
      exact List.forall_mem_singleton.mpr here
  | block body => exact blocks body List.mem_cons_self inWait
  | wait body => exact .waiting (blocks body List.mem_cons_self true) here
  | branch condition yes no =>
    have inTest := In.ofExpr (exprs condition List.mem_cons_self) inWait
    have inYes := inTest.append (blocks yes List.mem_cons_self inWait)
    cases no with
    | none => exact inYes
    | some no => exact inYes.append (blocks no (List.mem_cons_of_mem _ List.mem_cons_self) inWait)
  | switch subject arms otherwise =>
    have inSubject := In.ofExpr (exprs subject List.mem_cons_self) inWait
    have inArms : (Arm.listSurvey config room inWait arms).In P := Arm.listSurvey_in
      (fun e he => exprs e (List.mem_append_left _ (List.mem_cons_of_mem _ he)))
      fun b hb => blocks b (List.mem_append_left _ hb) inWait
    cases otherwise with
    | none => exact inSubject.append inArms
    | some b =>
      have last := blocks b (List.mem_append_right _ List.mem_cons_self) inWait
      exact (inSubject.append inArms).append last
  | loop label head body =>
    have inBody := blocks body List.mem_cons_self inWait
    cases head with
    | whileDo condition | doWhile condition =>
      exact .append (.ofExpr (exprs condition List.mem_cons_self) inWait) inBody
    | counting init test update =>
      have inTest : (Survey.ofExpr? inWait test).In P :=
        .ofExpr? (fun e he => exprs e (List.mem_append_left _ (Option.mem_toList.mpr he))) inWait
      unfold StatementKind.survey
      refine .append (.append (.append ?_ inTest) ?_) inBody
      · cases init with
        | none => exact .nothing
        | some s => exact .apart (headers s List.mem_cons_self)
      · cases update with
        | none => exact .nothing
        | some s => exact .apart (headers s (List.mem_append_right _ List.mem_cons_self))
  | jump kind label => exact .nothing
  | func f =>
    obtain ⟨id, name, params, body, span⟩ := f
    cases name with
    | none => exact .nothing
    | some name => exact .declares (names name List.mem_cons_self)

theorem Block.survey_in {b : Block} (all : (Spot.block b).AllIn P) (room : Nat) (inWait : Bool) :
    (b.survey config room inWait).In P := by
  induction b using Block.inductOn (Q := fun s : Statement => (Spot.statement s).AllIn P →
      ∀ room inWait, (s.survey config room inWait).In P) generalizing room inWait with
  | block b ih =>
    rw [Block.survey_eq]
    refine (Statement.listSurvey_in fun s hs => ?_).within b.id
    exact ih s hs (all.within (.of_inside (List.mem_map_of_mem hs))) room inWait
  | statement s headers blocks =>
    rename_i all room inWait
    cases room with
    | zero =>
      obtain ⟨id, kind, span⟩ := s
      have only : Violation.spans ⟨.nestingTooDeep config.maxDepth, span⟩ = [span] := rfl
      exact .violation only all.1
    | succ room =>
      rw [Statement.survey_succ]
      refine (StatementKind.survey_in all.1 ?_ ?_ ?_ ?_).within s.id
      · exact fun e he => all.within (Statement.within_expr he)
      · exact fun h hh => headers h hh (all.within (Statement.within_header hh)) room inWait
      · exact fun b hb => blocks b hb (all.within (Statement.within_block hb)) room
      · exact fun x hx => (all.within (Statement.within_introduced hx)).1

end

/-! ## Jumps -/

/-- Everything that is noted about jumps has its place among some spans. -/
def Escapes.In (P : Span → Prop) (e : Escapes) : Prop := ∀ v ∈ e.violations, v.In P

/-- The loops and wait-blocks around a place are among some spans. -/
structure Surroundings.In (P : Span → Prop) (around : Surroundings) : Prop where
  loops : ∀ frame ∈ around.loops, P frame.span
  waits : ∀ wait ∈ around.waits, P wait

theorem Escapes.In.append {a b : Escapes} (h : a.In P) (h' : b.In P) : (a ++ b).In P :=
  List.forall_mem_append.mpr ⟨h, h'⟩

namespace Surroundings

variable {around : Surroundings}

theorem In.enter (h : around.In P) (id : NodeId) : (around.enter id).In P := ⟨h.loops, h.waits⟩

theorem In.enterWait (h : around.In P) {span : Span} (here : P span) :
    (around.enterWait span).In P :=
  ⟨h.loops, List.forall_mem_cons.mpr ⟨here, h.waits⟩⟩

theorem In.enterLoop (h : around.In P) (label : Option Ident) (marked : Bool) {span : Span}
    (here : P span) : (around.enterLoop label marked span).In P :=
  ⟨List.forall_mem_cons.mpr ⟨here, h.loops⟩, h.waits⟩

theorem In.jump (h : around.In P) (kind : JumpKind) {label : Option Ident} {span : Span}
    (here : P span) (labelled : ∀ l ∈ label, P l.span) : (around.jump kind label span).In P := by
  have single : ∀ v : Violation, v.In P → ∀ w ∈ [v], w.In P :=
    fun v hv => List.forall_mem_singleton.mpr hv
  unfold Surroundings.jump
  split
  · split
    · exact single _ (List.forall_mem_singleton.mpr (labelled _ rfl))
    · exact single _ (List.forall_mem_singleton.mpr here)
  · split
    · rename_i n inner crossed target taken found
      split
      · rename_i wait inside
        have first : P wait := by
          have mem := List.mem_of_getElem? (waitInside?.eq_1 around target ▸ inside)
          exact h.waits wait (List.mem_reverse.mp mem)
        refine single _ ?_
        exact List.forall_mem_cons.mpr ⟨here, List.forall_mem_singleton.mpr first⟩
      · split
        · have nearest : inner ∈ around.loops :=
            List.mem_of_mem_take (taken ▸ List.mem_cons_self)
          refine single _ ?_
          exact List.forall_mem_cons.mpr
            ⟨here, List.forall_mem_singleton.mpr (h.loops inner nearest)⟩
        · split <;> exact List.forall_mem_nil _
    · exact List.forall_mem_nil _

end Surroundings

section
variable {t : MarkTable}

theorem Statement.listEscapes_in {around : Surroundings} {ss : List Statement}
    (each : ∀ s ∈ ss, (s.escapes t around).In P) : (listEscapes t around ss).In P := by
  induction ss with
  | nil => exact List.forall_mem_nil _
  | cons s ss ih =>
    obtain ⟨first, rest⟩ := List.forall_mem_cons.mp each
    exact first.append (ih rest)

theorem Arm.listEscapes_in {around : Surroundings} {arms : List Arm}
    (bodies : ∀ b ∈ arms.map Arm.body, (b.escapes t around).In P) :
    (listEscapes t around arms).In P := by
  induction arms with
  | nil => exact List.forall_mem_nil _
  | cons a arms ih =>
    obtain ⟨test, body, span⟩ := a
    obtain ⟨first, rest⟩ := List.forall_mem_cons.mp bodies
    exact first.append (ih rest)

theorem StatementKind.escapes_in {around : Surroundings} {marked : Bool} {span : Span}
    {kind : StatementKind} (outer : around.In P) (here : P span)
    (blocks : ∀ b ∈ kind.blocks, ∀ around : Surroundings, around.In P → (b.escapes t around).In P)
    (labels : ∀ jump l, kind = .jump jump (some l) → P l.span) :
    (kind.escapes t around marked span).In P := by
  cases kind with
  | block body => exact blocks body List.mem_cons_self around outer
  | wait body => exact blocks body List.mem_cons_self _ (outer.enterWait here)
  | loop label head body =>
    exact blocks body List.mem_cons_self _ (outer.enterLoop label marked here)
  | branch condition yes no =>
    have inYes := blocks yes List.mem_cons_self around outer
    cases no with
    | none => exact inYes
    | some no =>
      exact inYes.append (blocks no (List.mem_cons_of_mem _ List.mem_cons_self) around outer)
  | switch subject arms otherwise =>
    have inArms : (Arm.listEscapes t around arms).In P :=
      Arm.listEscapes_in fun b hb => blocks b (List.mem_append_left _ hb) around outer
    cases otherwise with
    | none => exact inArms
    | some b =>
      exact inArms.append (blocks b (List.mem_append_right _ List.mem_cons_self) around outer)
  | jump kind label =>
    refine outer.jump kind here ?_
    intro l hl
    exact labels kind l (by rw [Option.mem_def.mp hl])
  | _ => exact List.forall_mem_nil _

theorem Block.escapes_in {b : Block} (all : (Spot.block b).AllIn P) {around : Surroundings}
    (outer : around.In P) : (b.escapes t around).In P := by
  induction b using Block.inductOn (Q := fun s : Statement => (Spot.statement s).AllIn P →
      ∀ around : Surroundings, around.In P → (s.escapes t around).In P)
      generalizing around with
  | block b ih =>
    obtain ⟨id, ss, span⟩ := b
    refine Statement.listEscapes_in fun s hs => ?_
    exact ih s hs (all.within (.of_inside (List.mem_map_of_mem hs))) _ (outer.enter id)
  | statement s headers blocks =>
    rename_i all around outer
    obtain ⟨id, kind, span⟩ := s
    refine StatementKind.escapes_in (outer.enter id) all.1 ?_ ?_
    · exact fun b hb around outer => blocks b hb (all.within (Statement.within_block hb)) outer
    · rintro jump l rfl
      exact (all.within (.of_inside List.mem_cons_self : (Spot.ident l).Within _)).1

end

/-! ## The marking -/

theorem Survey.mem_of_firstTooDeep {vs : List Violation} {v : Violation}
    (hv : v ∈ firstTooDeep vs) : v ∈ vs := by
  induction vs with
  | nil => cases hv
  | cons w vs ih =>
    unfold firstTooDeep at hv
    split at hv
    · obtain rfl | later := List.mem_cons.mp hv
      · exact List.mem_cons_self
      · exact List.mem_cons_of_mem _ (List.mem_of_mem_filter later)
    · obtain rfl | later := List.mem_cons.mp hv
      · exact List.mem_cons_self
      · exact List.mem_cons_of_mem _ (ih later)

namespace Func

variable {config : Config} {f : Func}

theorem survey_in (all : (Spot.func f).AllIn P) : (f.survey config).In P := by
  have body : (Spot.block f.body).AllIn P :=
    all.within (.of_inside (List.mem_append_right _ List.mem_cons_self))
  have names : ∀ x ∈ f.name.toList ++ f.params, P x.span := by
    intro x hx
    have inside : Spot.ident x ∈ (Spot.func f).inside := by
      refine List.mem_append_left _ ?_
      rw [← List.map_append]
      exact List.mem_map_of_mem hx
    exact (all.within (.of_inside inside)).1
  have both : (((f.name.toList ++ f.params).map (Survey.declares config)).foldr (· ++ ·)
      (f.body.survey config config.maxDepth false)).In P := by
    generalize f.name.toList ++ f.params = xs at names
    induction xs with
    | nil => exact Block.survey_in body _ _
    | cons x xs ih =>
      obtain ⟨first, rest⟩ := List.forall_mem_cons.mp names
      exact .append (.declares first) (ih rest)
  refine ⟨List.forall_mem_append.mpr ⟨?_, ?_⟩, both.warnings, both.returns⟩
  · exact fun v hv => both.violations v (Survey.mem_of_firstTooDeep hv)
  · split
    · exact List.forall_mem_map.mpr fun r hr => List.forall_mem_singleton.mpr (both.returns r hr)
    · exact List.forall_mem_nil _

variable (config) in
/-- **Violations and warnings of a function have their places in the function.** What holds of the
spans of everything in it holds of every place that they name. -/
theorem marking_in (all : (Spot.func f).AllIn P) :
    match f.marking config with
    | .ok marking => ∀ w ∈ marking.warnings, P w.span
    | .error violations => ∀ v ∈ violations, v.In P := by
  have surveyed : (f.survey config).In P := survey_in all
  have body : (Spot.block f.body).AllIn P :=
    all.within (.of_inside (List.mem_append_right _ List.mem_cons_self))
  have outermost : Surroundings.outermost.In P := ⟨nofun, nofun⟩
  have escaped := Block.escapes_in (t := Marking.waitsAndLoops f (f.survey config)) body outermost
  have ordered : ∀ vs : List Violation, (∀ v ∈ vs, v.In P) → ∀ v ∈ Marking.inOrder vs, v.In P :=
    fun vs each v hv => each v ((List.mergeSort_perm _ _).mem_iff.mp hv)
  have found := ordered _ (List.forall_mem_append.mpr ⟨surveyed.violations, escaped⟩)
  unfold marking
  dsimp only
  split
  · rename_i marking ok
    split at ok
    · cases ok
    · split at ok
      · cases ok
        exact surveyed.warnings
      · cases ok
  · rename_i violations failed
    split at failed
    · cases failed
      exact ordered _ surveyed.violations
    · split at failed
      · cases failed
      · cases failed
        exact found

theorem marking_error_ne_nil {violations : List Violation}
    (failed : f.marking config = .error violations) : violations ≠ [] := by
  unfold marking at failed
  dsimp only at failed
  split at failed
  · rename_i deep
    cases failed
    intro nothing
    have none : (f.survey config).violations = [] := by
      rw [← List.length_eq_zero_iff, ← (List.mergeSort_perm _ _).length_eq]
      exact List.length_eq_zero_iff.mpr nothing
    rw [none] at deep
    cases deep
  · split at failed
    · cases failed
    · rename_i some
      cases failed
      exact some

end Func
end WaitDefer
