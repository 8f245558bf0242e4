import WaitDefer.Proofs.Marking.Exact
import WaitDefer.Proofs.Tree.Varied

/-!
# Marking does not look at references

What code refers to has no part in its marks, nor has the name of the runtime's function, nor what
is inside functions:

* `Func.marking_varies`: units that vary in nothing else have the same marks and violations.
-/

namespace WaitDefer

/-- The same settings with another name for the function that makes counters. -/
def Config.calling (config : Config) (maker : String) : Config :=
  { config with runtime := { config.runtime with newCounter := maker } }

/-- Own code varies in references only, and functions in it keep their names. -/
structure Variation.Steady (v : Variation) (F : Func → Func → Prop) : Prop where
  id : ∀ {i i'}, v.id i i' → i' = i
  declares : ∀ {x x'}, v.declares x x' → x' = x
  named : ∀ {f f'}, F f f' → f'.name = f.name

section
variable {v : Variation} {F : Func → Func → Prop}

/-! ## The survey -/

/-- The place of a callback. -/
def Node.deferSpans : Node → List Span
  | .expr (.defer _ span) => [span]
  | _ => []

theorem Survey.ofExpr_eq (inWait : Bool) (e : Expr) : ofExpr inWait e =
    if inWait then { nothing with defers := (e.ownNodes.flatMap Node.deferSpans).length }
    else { nothing with
      violations := (e.ownNodes.flatMap Node.deferSpans).map (⟨.deferOutsideWait, ·⟩) } := by
  have read (ns : List Node) : (ns.filterMap fun
      | .expr (.defer _ span) => some span
      | _ => none) = ns.flatMap Node.deferSpans := by
    rw [List.filterMap_eq_flatMap_toList]
    refine List.flatMap_congr fun n _ => ?_
    cases n with
    | expr e => cases e <;> rfl
    | _ => rfl
  rw [← read]
  rfl

theorem Survey.ofExpr_varies {e e' : Expr} (h : e.Varies v F e') (inWait : Bool) :
    ofExpr inWait e' = ofExpr inWait e := by
  have compares : v.Compares F (.reading Node.deferSpans) := {
    ident := fun _ _ => rfl
    expr := fun h => Comparison.reading_node (by
      cases h with
      | parts nameless parts => cases parts <;> rfl
      | _ => rfl)
    statement := fun _ => rfl
    block := fun _ => rfl }
  have same : e'.ownNodes.flatMap Node.deferSpans = e.ownNodes.flatMap Node.deferSpans :=
    h.compares compares fun f f' _ => f.compares_outside f'
  rw [ofExpr_eq, ofExpr_eq, same]

theorem Survey.ofExpr?_varies {e e' : Option Expr} (h : Option.Rel (Expr.Varies v F) e e')
    (inWait : Bool) : ofExpr? inWait e' = ofExpr? inWait e := by
  cases h with
  | none => rfl
  | some h => exact ofExpr_varies h inWait

variable {config : Config} {maker maker' : String}

/-- Two pieces of code that are surveyed alike. -/
def Block.SurveysAlike (config config' : Config) (b b' : Block) : Prop :=
  ∀ room inWait, b'.survey config' room inWait = b.survey config room inWait

def Statement.SurveysAlike (config config' : Config) (s s' : Statement) : Prop :=
  ∀ room inWait, s'.survey config' room inWait = s.survey config room inWait

theorem Arm.listSurvey_congruent {config config' : Config} {as as' : List Arm}
    (h : List.Forall₂ (Arm.Congruent (Expr.Varies v F) (Block.SurveysAlike config config')) as as')
    (room : Nat) (inWait : Bool) :
    listSurvey config' room inWait as' = listSurvey config room inWait as := by
  induction h with
  | nil => rfl
  | cons first _ ih =>
    obtain ⟨span, test, body⟩ := first
    rw [listSurvey, listSurvey, Survey.ofExpr_varies test, body room inWait, ih]

theorem StatementKind.survey_congruent (named : ∀ {f f'}, F f f' → f'.name = f.name)
    {k k' : StatementKind} (h : k.Congruent (Expr.Varies v F)
      (Statement.SurveysAlike (config.calling maker) (config.calling maker'))
      (Block.SurveysAlike (config.calling maker) (config.calling maker')) F k')
    (room : Nat) (inWait : Bool) (span : Span) :
    k'.survey (config.calling maker') room inWait span =
      k.survey (config.calling maker) room inWait span := by
  cases h with
  | declare name init =>
    rw [survey, survey, Survey.ofExpr?_varies init]
    rfl
  | assign target value =>
    rw [survey, survey, Survey.ofExpr_varies target, Survey.ofExpr_varies value]
  | expr value => rw [survey, survey, Survey.ofExpr_varies value]
  | ret value =>
    cases value with
    | none => rfl
    | some value => rw [survey, survey, Survey.ofExpr_varies value]
  | block body => exact body room inWait
  | branch condition yes no =>
    cases no with
    | none => rw [survey, survey, Survey.ofExpr_varies condition, yes room inWait]
    | some no =>
      rw [survey, survey, Survey.ofExpr_varies condition, yes room inWait, no room inWait]
  | switch subject arms otherwise =>
    have inArms := Arm.listSurvey_congruent arms room inWait
    cases otherwise with
    | none => rw [survey, survey, Survey.ofExpr_varies subject, inArms]
    | some otherwise =>
      rw [survey, survey, Survey.ofExpr_varies subject, inArms, otherwise room inWait]
  | loop label head body =>
    cases head with
    | whileDo condition | doWhile condition =>
      rw [survey, survey, Survey.ofExpr_varies condition, body room inWait]
    | counting init test update =>
      cases init with
      | none =>
        cases update with
        | none => rw [survey, survey, Survey.ofExpr?_varies test, body room inWait]
        | some update =>
          simp only [survey, Survey.ofExpr?_varies test, body room inWait, update room inWait]
      | some init =>
        cases update with
        | none => simp only [survey, Survey.ofExpr?_varies test, body room inWait, init room inWait]
        | some update =>
          simp only [survey, Survey.ofExpr?_varies test, body room inWait, init room inWait,
            update room inWait]
  | jump kind label => rfl
  | wait body => rw [survey, survey, body room true]
  | func function =>
    rename_i f f'
    have name := named function
    obtain ⟨id, name, params, b, span⟩ := f
    obtain ⟨id', name', params', b', span'⟩ := f'
    subst name
    cases name' <;> rfl

variable (config maker maker') in
theorem Block.survey_varies (steady : v.Steady F) {b b' : Block} (h : b.Varies v F b') :
    b.SurveysAlike (config.calling maker) (config.calling maker') b' := by
  refine h.least (S := Statement.SurveysAlike (config.calling maker) (config.calling maker'))
    ⟨?_, ?_, ?_⟩
  · intro i i' x x' init init' span id name value room inWait
    cases room with
    | zero => rfl
    | succ room =>
      rw [Statement.survey_succ, Statement.survey_succ, steady.id id]
      simp only [StatementKind.survey, name.eq steady.declares, Survey.ofExpr?_varies value]
      rfl
  · intro i i' k k' span id _ parts room inWait
    cases room with
    | zero => rfl
    | succ room =>
      rw [Statement.survey_succ, Statement.survey_succ, steady.id id]
      exact congrArg _ (StatementKind.survey_congruent steady.named parts room inWait span)
  · intro i i' ss ss' span id statements room inWait
    have inside : Statement.listSurvey (config.calling maker') room inWait ss' =
        Statement.listSurvey (config.calling maker) room inWait ss := by
      induction statements with
      | nil => rfl
      | cons first _ ih => rw [Statement.listSurvey, Statement.listSurvey, first room inWait, ih]
    rw [Block.survey_eq, Block.survey_eq, steady.id id, inside]

/-! ## Loops and jumps -/

/-- Two pieces of code in which the same loops wait. -/
def Block.LoopsAlike (t : MarkTable) (b b' : Block) : Prop := b'.waitingLoops t = b.waitingLoops t

def Statement.LoopsAlike (t : MarkTable) (s s' : Statement) : Prop :=
  s'.waitingLoops t = s.waitingLoops t

theorem flatMap_eq_of_forall₂ {α β γ : Type} {R : α → β → Prop} {l : List α} {l' : List β}
    {g : α → List γ} {g' : β → List γ} (h : List.Forall₂ R l l') (each : ∀ a b, R a b → g' b = g a) :
    l'.flatMap g' = l.flatMap g := by
  induction h with
  | nil => rfl
  | cons r _ ih => rw [List.flatMap_cons, List.flatMap_cons, each _ _ r, ih]

theorem Block.waitingLoops_varies (steady : v.Steady F) (t : MarkTable) {b b' : Block}
    (h : b.Varies v F b') : b'.waitingLoops t = b.waitingLoops t := by
  refine h.least (S := Statement.LoopsAlike t) (B := Block.LoopsAlike t) ⟨?_, ?_, ?_⟩
  · intro i i' x x' init init' span id name value
    rw [Statement.LoopsAlike, steady.id id]
    rfl
  · intro i i' k k' span id _ parts
    rw [Statement.LoopsAlike, Statement.waitingLoops_eq, Statement.waitingLoops_eq, steady.id id]
    have alike := parts.alike
    rw [StatementKind.waitingLoops_eq, StatementKind.waitingLoops_eq, alike.isLoop,
      flatMap_eq_of_forall₂ alike.headers fun _ _ same => same,
      flatMap_eq_of_forall₂ alike.blocks fun _ _ same => same]
  · intro i i' ss ss' span id statements
    rw [Block.LoopsAlike, Block.waitingLoops_eq, Block.waitingLoops_eq]
    exact flatMap_eq_of_forall₂ statements fun _ _ same => same

/-- Two pieces of code whose jumps lead to the same loops. -/
def Block.EscapesAlike (t : MarkTable) (b b' : Block) : Prop :=
  ∀ around, b'.escapes t around = b.escapes t around

def Statement.EscapesAlike (t : MarkTable) (s s' : Statement) : Prop :=
  ∀ around, s'.escapes t around = s.escapes t around

theorem Arm.listEscapes_congruent {E : Expr → Expr → Prop} {t : MarkTable} {as as' : List Arm}
    (h : List.Forall₂ (Arm.Congruent E (Block.EscapesAlike t)) as as') (around : Surroundings) :
    listEscapes t around as' = listEscapes t around as := by
  induction h with
  | nil => rfl
  | cons first _ ih =>
    obtain ⟨span, test, body⟩ := first
    rw [listEscapes, listEscapes, body, ih]

theorem StatementKind.escapes_congruent {E : Expr → Expr → Prop} {t : MarkTable}
    {k k' : StatementKind} (h : k.Congruent E (Statement.EscapesAlike t) (Block.EscapesAlike t) F k')
    (around : Surroundings) (marked : Bool) (span : Span) :
    k'.escapes t around marked span = k.escapes t around marked span := by
  cases h with
  | block body => exact body _
  | wait body => exact body _
  | loop label head body => exact body _
  | branch condition yes no =>
    cases no with
    | none => exact yes _
    | some no => rw [escapes, escapes, yes, no]
  | switch subject arms otherwise =>
    have inArms := Arm.listEscapes_congruent arms around
    cases otherwise with
    | none => exact inArms
    | some otherwise => rw [escapes, escapes, inArms, otherwise]
  | _ => rfl

theorem Block.escapes_varies (steady : v.Steady F) (t : MarkTable) {b b' : Block}
    (h : b.Varies v F b') (around : Surroundings) : b'.escapes t around = b.escapes t around := by
  refine h.least (S := Statement.EscapesAlike t) (B := Block.EscapesAlike t) ⟨?_, ?_, ?_⟩ around
  · intro i i' x x' init init' span id name value around
    rw [steady.id id]
    rfl
  · intro i i' k k' span id _ parts around
    rw [Statement.escapes, Statement.escapes, steady.id id]
    exact StatementKind.escapes_congruent parts _ _ _
  · intro i i' ss ss' span id statements around
    have inside : ∀ around, Statement.listEscapes t around ss' =
        Statement.listEscapes t around ss := fun around => by
      induction statements with
      | nil => rfl
      | cons first _ ih => rw [Statement.listEscapes, Statement.listEscapes, first, ih]
    rw [Block.escapes, Block.escapes, steady.id id, inside]

/-! ## The marking -/

/-- **Marking does not look at references**, nor at what is inside functions: units whose bodies
vary in nothing else have the same marks, warnings and violations. -/
theorem Func.marking_varies (steady : v.Steady F) {f : Func} {b' : Block}
    (h : f.body.Varies v F b') :
    Func.marking (config.calling maker') { f with body := b' } =
      f.marking (config.calling maker) := by
  have inBody := Block.survey_varies config maker maker' steady h (config.calling maker).maxDepth false
  have survey : Func.survey (config.calling maker') { f with body := b' } =
      f.survey (config.calling maker) := by
    unfold Func.survey
    dsimp only
    rw [show (config.calling maker').maxDepth = (config.calling maker).maxDepth from rfl, inBody]
    rfl
  unfold marking
  simp only [survey, Marking.waitsAndLoops, Block.waitingLoops_varies steady _ h,
    Block.escapes_varies steady _ h]

end

end WaitDefer
