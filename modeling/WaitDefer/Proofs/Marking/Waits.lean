import WaitDefer.Marking.Waits
import WaitDefer.Proofs.Tree.Paths

/-!
# What a survey finds

The survey of a piece of code, read part by part:

* `StatementKind.survey_waits`, `StatementKind.mem_survey_awaiting`,
  `StatementKind.survey_violations`: the survey of a statement from those of its parts;
* `StatementKind.lawful_of_survey`: what holds of a statement in which no rule is broken;
* `Node.survey_finds`: where code does not nest too deep, the survey says that it waits exactly if it
  is or holds a wait-block, and notes the ids of exactly those nodes that do;
* `Node.ownsId_of_awaiting`: in any code it notes ids of that code only.
-/

namespace WaitDefer

/-! ## Headers -/

/-- Loops have only declarations, assignments and expressions in their heads. -/
def Node.HasSimpleHead : Node → Prop
  | .statement s => ∀ h ∈ s.kind.headers, h.kind.isSimple = true
  | _ => True

instance : DecidablePred Node.HasSimpleHead
  | .statement s => inferInstanceAs (Decidable (∀ h ∈ s.kind.headers, h.kind.isSimple = true))
  | .func _ | .block _ | .expr _ | .ident _ => isTrue trivial

/-- All loops of a function's own code have simple heads. -/
def Func.HasSimpleHeads (f : Func) : Prop := ∀ n ∈ f.body.ownNodes, n.HasSimpleHead

instance : DecidablePred Func.HasSimpleHeads := fun f =>
  inferInstanceAs (Decidable (∀ n ∈ f.body.ownNodes, n.HasSimpleHead))

def Node.isWait : Node → Bool
  | .statement s => s.kind.isWait
  | _ => false

/-- A node is or holds a wait-block. -/
def Node.Waits (n : Node) : Prop := ∃ w ∈ n.ownNodes, w.isWait = true

theorem Node.id?_of_isWait {n : Node} (h : n.isWait = true) : ∃ i, n.id? = some i := by
  cases n with
  | statement s => exact ⟨_, rfl⟩
  | _ => cases h

theorem Node.waits_iff (n : Node) :
    n.Waits ↔ n.isWait = true ∨ ∃ c ∈ n.children, c.Waits := by
  constructor
  · rintro ⟨w, hw, isWait⟩
    obtain ⟨i, hi⟩ := id?_of_isWait isWait
    rcases (mem_ownNodes hi).mp hw with rfl | ⟨c, hc, hwc⟩
    · exact .inl isWait
    · exact .inr ⟨c, hc, w, hwc, isWait⟩
  · rintro (h | ⟨c, hc, w, hw, isWait⟩)
    · exact ⟨n, n.self_mem_ownNodes, h⟩
    · exact ⟨w, ownNodes_of_child hc hw, isWait⟩

theorem Node.Waits.of_mem {n m : Node} (hm : m ∈ n.ownNodes) (h : m.Waits) : n.Waits := by
  obtain ⟨w, hw, isWait⟩ := h
  exact ⟨w, ownNodes_trans hm hw, isWait⟩

/-! ## Surveys add up -/

namespace Survey

@[simp] theorem append_waits (a b : Survey) : (a ++ b).waits = (a.waits || b.waits) := rfl

@[simp] theorem append_awaiting (a b : Survey) : (a ++ b).awaiting = a.awaiting ++ b.awaiting := rfl

@[simp] theorem append_violations (a b : Survey) :
    (a ++ b).violations = a.violations ++ b.violations := rfl

@[simp] theorem append_valueReturns (a b : Survey) :
    (a ++ b).valueReturns = a.valueReturns ++ b.valueReturns := rfl

@[simp] theorem declares_waits (config : Config) (name : Ident) :
    (declares config name).waits = false := by
  unfold declares; split <;> rfl

@[simp] theorem declares_awaiting (config : Config) (name : Ident) :
    (declares config name).awaiting = [] := by
  unfold declares; split <;> rfl

@[simp] theorem declares_violations_eq_nil (config : Config) (name : Ident) :
    (declares config name).violations = [] ↔ config.isReserved name.name = false := by
  unfold declares
  split <;> simp_all [violation, nothing]

@[simp] theorem ofExpr_waits (inWait : Bool) (e : Expr) : (ofExpr inWait e).waits = false := by
  unfold ofExpr; cases inWait <;> rfl

@[simp] theorem ofExpr_awaiting (inWait : Bool) (e : Expr) : (ofExpr inWait e).awaiting = [] := by
  unfold ofExpr; cases inWait <;> rfl

@[simp] theorem ofExpr?_waits (inWait : Bool) (e : Option Expr) :
    (ofExpr? inWait e).waits = false := by
  cases e <;> simp [ofExpr?, nothing]

@[simp] theorem ofExpr?_awaiting (inWait : Bool) (e : Option Expr) :
    (ofExpr? inWait e).awaiting = [] := by
  cases e <;> simp [ofExpr?, nothing]

/-- Outside of wait-blocks an expression breaks a rule exactly if it holds a callback. -/
theorem ofExpr_violations_eq_nil (e : Expr) :
    (ofExpr false e).violations = [] ↔
      ∀ bindings span, .expr (.defer bindings span) ∉ e.ownNodes := by
  simp only [ofExpr, Bool.false_eq_true, ↓reduceIte, List.map_eq_nil_iff,
    List.filterMap_eq_nil_iff]
  constructor
  · intro h bindings span mem
    simpa using h _ mem
  · intro h n hn
    cases n with
    | expr e' =>
      cases e' with
      | defer bindings span => exact absurd hn (h bindings span)
      | _ => rfl
    | _ => rfl

@[simp] theorem within_waits (id : NodeId) (s : Survey) : (within id s).waits = s.waits := by
  unfold within; split <;> simp_all

@[simp] theorem within_violations (id : NodeId) (s : Survey) :
    (within id s).violations = s.violations := by
  unfold within; split <;> rfl

@[simp] theorem within_valueReturns (id : NodeId) (s : Survey) :
    (within id s).valueReturns = s.valueReturns := by
  unfold within; split <;> rfl

/-- Something that surveys list, whatever lies around: code lists what its parts list. -/
structure Listing {β : Type} (part : Survey → List β) : Prop where
  nothing : part nothing = []
  append : ∀ a b, part (a ++ b) = part a ++ part b
  within : ∀ id s, part (within id s) = part s
  apart : ∀ s, part (apart s) = part s
  waiting : ∀ span s, part (waiting span s) = part s

theorem violations_listing : Listing violations :=
  ⟨rfl, append_violations, within_violations, fun _ => rfl, fun _ _ => rfl⟩

theorem valueReturns_listing : Listing valueReturns :=
  ⟨rfl, append_valueReturns, within_valueReturns, fun _ => rfl, fun _ _ => rfl⟩

theorem mem_within_awaiting (id i : NodeId) (s : Survey) :
    i ∈ (within id s).awaiting ↔ i = id ∧ s.waits = true ∨ i ∈ s.awaiting := by
  unfold within
  cases s.waits <;> simp

end Survey

open Survey

section
variable (config : Config)

theorem Statement.listSurvey_waits (room : Nat) (inWait : Bool) (ss : List Statement) :
    (listSurvey config room inWait ss).waits = true ↔
      ∃ s ∈ ss, (s.survey config room inWait).waits = true := by
  induction ss with
  | nil => simp [listSurvey, nothing]
  | cons s ss ih => simp [listSurvey, ih]

theorem Statement.mem_listSurvey_awaiting (room : Nat) (inWait : Bool) (ss : List Statement)
    (i : NodeId) :
    i ∈ (listSurvey config room inWait ss).awaiting ↔
      ∃ s ∈ ss, i ∈ (s.survey config room inWait).awaiting := by
  induction ss with
  | nil => simp [listSurvey, nothing]
  | cons s ss ih => simp [listSurvey, ih]

section
variable {β : Type} {part : Survey → List β}

theorem Statement.listSurvey_listing (listing : Listing part) (room : Nat) (inWait : Bool)
    (ss : List Statement) : part (listSurvey config room inWait ss) =
      ss.flatMap fun s => part (s.survey config room inWait) := by
  induction ss with
  | nil => exact listing.nothing
  | cons s ss ih => rw [listSurvey, listing.append, ih, List.flatMap_cons]

theorem Arm.listSurvey_listing (listing : Listing part) (room : Nat) (inWait : Bool)
    (arms : List Arm) : (part (listSurvey config room inWait arms)).Perm
      ((arms.map Arm.body).flatMap (fun b => part (b.survey config room inWait)) ++
        (arms.map Arm.test).flatMap fun e => part (ofExpr inWait e)) := by
  induction arms with
  | nil => exact .of_eq listing.nothing
  | cons a arms ih =>
    obtain ⟨test, body, span⟩ := a
    simp only [listSurvey, listing.append, List.map_cons, List.flatMap_cons, List.append_assoc]
    have rest := (ih.append_left (part (body.survey config room inWait))).append_left
      (part (ofExpr inWait test))
    refine rest.trans (List.perm_append_comm.trans ?_)
    simp only [List.append_assoc]
    exact .append_left _ (.append_left _ List.perm_append_comm)

end

theorem Statement.listSurvey_violations_eq_nil (room : Nat) (inWait : Bool)
    (ss : List Statement) :
    (listSurvey config room inWait ss).violations = [] ↔
      ∀ s ∈ ss, (s.survey config room inWait).violations = [] := by
  rw [listSurvey_listing config violations_listing, List.flatMap_eq_nil_iff]

theorem Arm.listSurvey_waits (room : Nat) (inWait : Bool) (arms : List Arm) :
    (listSurvey config room inWait arms).waits = true ↔
      ∃ a ∈ arms, (a.body.survey config room inWait).waits = true := by
  induction arms with
  | nil => simp [listSurvey, nothing]
  | cons a arms ih => obtain ⟨test, body, span⟩ := a; simp [listSurvey, ih]

theorem Arm.mem_listSurvey_awaiting (room : Nat) (inWait : Bool) (arms : List Arm) (i : NodeId) :
    i ∈ (listSurvey config room inWait arms).awaiting ↔
      ∃ a ∈ arms, i ∈ (a.body.survey config room inWait).awaiting := by
  induction arms with
  | nil => simp [listSurvey, nothing]
  | cons a arms ih => obtain ⟨test, body, span⟩ := a; simp [listSurvey, ih]

/-! ## One statement -/

namespace StatementKind

/-- The place of a statement that returns a value. -/
def returned (span : Span) : StatementKind → List Span
  | ret (some _) => [span]
  | _ => []

end StatementKind

theorem StatementKind.survey_waits (room : Nat) (inWait : Bool) (span : Span)
    (kind : StatementKind) :
    (kind.survey config room inWait span).waits = true ↔ kind.isWait = true ∨
      ∃ b ∈ kind.blocks, (b.survey config room (inWait || kind.isWait)).waits = true := by
  cases kind with
  | ret value => cases value <;> simp [survey, isWait, blocks, nothing]
  | branch condition yes no => cases no <;> simp [survey, isWait, blocks]
  | switch subject arms otherwise =>
    cases otherwise <;> simp [survey, isWait, blocks, Arm.listSurvey_waits, or_and_right, exists_or]
  | loop label head body =>
    cases head with
    | counting init test update =>
      cases init <;> cases update <;> simp [survey, isWait, blocks, apart, nothing]
    | whileDo _ => simp [survey, isWait, blocks]
    | doWhile _ => simp [survey, isWait, blocks]
  | func f =>
    obtain ⟨_, name, _, _, _⟩ := f
    cases name <;> simp [survey, isWait, blocks, nothing]
  | _ => simp [survey, isWait, blocks, nothing, waiting]

theorem StatementKind.mem_survey_awaiting (room : Nat) (inWait : Bool) (span : Span)
    (kind : StatementKind) (i : NodeId) :
    i ∈ (kind.survey config room inWait span).awaiting ↔
      (∃ h ∈ kind.headers, i ∈ (h.survey config room inWait).awaiting) ∨
      ∃ b ∈ kind.blocks, i ∈ (b.survey config room (inWait || kind.isWait)).awaiting := by
  cases kind with
  | ret value => cases value <;> simp [survey, headers, isWait, blocks, nothing]
  | branch condition yes no => cases no <;> simp [survey, headers, isWait, blocks]
  | switch subject arms otherwise =>
    cases otherwise <;> simp [survey, headers, isWait, blocks, Arm.mem_listSurvey_awaiting,
      or_and_right, exists_or]
  | loop label head body =>
    cases head with
    | counting init test update =>
      cases init <;> cases update <;>
        simp [survey, headers, LoopHead.statements, isWait, blocks, apart, nothing, or_assoc]
    | whileDo _ => simp [survey, headers, LoopHead.statements, isWait, blocks]
    | doWhile _ => simp [survey, headers, LoopHead.statements, isWait, blocks]
  | func f =>
    obtain ⟨_, name, _, _, _⟩ := f
    cases name <;> simp [survey, headers, isWait, blocks, nothing]
  | _ => simp [survey, headers, isWait, blocks, nothing, waiting]

/-- What holds of a statement in which no rule is broken. -/
structure StatementKind.Lawful (room : Nat) (inWait : Bool) (kind : StatementKind) : Prop where
  headers : ∀ h ∈ kind.headers, (h.survey config room inWait).violations = []
  blocks : ∀ b ∈ kind.blocks, (b.survey config room (inWait || kind.isWait)).violations = []
  exprs : ∀ e ∈ kind.tests ++ kind.operands, (ofExpr inWait e).violations = []
  declared : ∀ name ∈ kind.declared, config.isReserved name.name = false
  functions : ∀ f ∈ kind.functions, ∀ name ∈ f.name, config.isReserved name.name = false

/-- What is listed of a statement is what is listed of its parts, and the value it returns. -/
theorem StatementKind.survey_listing {β : Type} {part : Survey → List β} (listing : Listing part)
    (room : Nat) (inWait : Bool) (span : Span) (kind : StatementKind) :
    (part (kind.survey config room inWait span)).Perm
      (kind.headers.flatMap (fun h => part (h.survey config room inWait)) ++
        kind.blocks.flatMap (fun b => part (b.survey config room (inWait || kind.isWait))) ++
        (kind.tests ++ kind.operands).flatMap (fun e => part (ofExpr inWait e)) ++
        kind.introduced.flatMap (fun x => part (declares config x)) ++
        part { nothing with valueReturns := kind.returned span }) := by
  classical
  have nothing : part ⟨false, [], 0, [], [], []⟩ = [] := listing.nothing
  rw [List.perm_iff_count]
  intro x
  cases kind with
  | declare name init =>
    cases init <;>
      simp [survey, ofExpr?, Survey.nothing, listing.append, nothing, headers, blocks, tests,
        operands, introduced, declared, titled, returned, Nat.add_comm]
  | ret value =>
    cases value <;>
      simp [survey, Survey.nothing, listing.append, nothing, headers, blocks, tests, operands,
        introduced, declared, titled, returned, Nat.add_comm]
  | branch condition yes no =>
    cases no <;>
      simp [survey, Survey.nothing, listing.append, nothing, headers, blocks, tests, operands,
        introduced, declared, titled, returned, isWait] <;> omega
  | switch subject arms otherwise =>
    have inArms := (Arm.listSurvey_listing config listing room inWait arms).count_eq x
    cases otherwise <;>
      simp [survey, Survey.nothing, listing.append, nothing, headers, blocks, tests, operands,
        introduced, declared, titled, returned, isWait] at inArms ⊢ <;>
      omega
  | loop label head body =>
    cases head with
    | counting init test update =>
      have apart (s : Survey) : part (Survey.apart s) = part s := listing.apart s
      cases init <;> cases test <;> cases update <;>
        simp [survey, ofExpr?, Survey.nothing, listing.append, apart, nothing, headers,
          LoopHead.statements, LoopHead.test?, blocks, tests, operands, introduced, declared,
          titled, returned, isWait] <;> omega
    | whileDo _ | doWhile _ =>
      simp [survey, Survey.nothing, listing.append, nothing, headers, LoopHead.statements,
        LoopHead.test?, blocks, tests, operands, introduced, declared, titled, returned, isWait]
      omega
  | func f =>
    obtain ⟨_, name, _, _, _⟩ := f
    cases name <;> simp [survey, Survey.nothing, nothing, headers, blocks, tests, operands,
      introduced, declared, titled, returned]
  | _ =>
    simp [survey, Survey.nothing, listing.append, listing.waiting, nothing, headers, blocks, tests,
      operands, introduced, declared, titled, returned, isWait]

/-- The rules broken in a statement are those broken in its parts. -/
theorem StatementKind.survey_violations (room : Nat) (inWait : Bool) (span : Span)
    (kind : StatementKind) :
    (kind.survey config room inWait span).violations.Perm
      (kind.headers.flatMap (fun h => (h.survey config room inWait).violations) ++
        kind.blocks.flatMap (fun b => (b.survey config room (inWait || kind.isWait)).violations) ++
        (kind.tests ++ kind.operands).flatMap (fun e => (ofExpr inWait e).violations) ++
        kind.introduced.flatMap fun x => (declares config x).violations) := by
  have parts := kind.survey_listing config violations_listing room inWait span
  rwa [show ({ nothing with valueReturns := kind.returned span } : Survey).violations = [] from rfl,
    List.append_nil] at parts

theorem StatementKind.lawful_of_survey (room : Nat) (inWait : Bool) (span : Span)
    (kind : StatementKind) (h : (kind.survey config room inWait span).violations = []) :
    kind.Lawful config room inWait := by
  have parts := kind.survey_violations config room inWait span
  rw [h] at parts
  have none := List.nil_perm.mp parts
  simp only [List.append_eq_nil_iff, List.flatMap_eq_nil_iff, declares_violations_eq_nil,
    List.mem_append] at none
  obtain ⟨⟨⟨headers, blocks⟩, exprs⟩, names⟩ := none
  refine ⟨headers, blocks, fun e he => exprs e (List.mem_append.mp he), fun x hx => ?_, ?_⟩
  · exact names x (List.mem_append_left _ hx)
  · intro f hf x hx
    apply names x
    apply List.mem_append_right
    cases kind with
    | func g =>
      obtain rfl := List.mem_singleton.mp hf
      exact Option.mem_toList.mpr hx
    | _ => cases hf

/-! ## Whole code -/

/-- The survey of a block or statement. -/
def Node.survey (room : Nat) (inWait : Bool) : Node → Survey
  | .block b => b.survey config room inWait
  | .statement s => s.survey config room inWait
  | _ => nothing

theorem Block.survey_eq (room : Nat) (inWait : Bool) (b : Block) :
    b.survey config room inWait =
      within b.id (Statement.listSurvey config room inWait b.statements) := by
  obtain ⟨id, statements, span⟩ := b
  simp [Block.survey]

theorem Statement.survey_succ (room : Nat) (inWait : Bool) (s : Statement) :
    s.survey config (room + 1) inWait =
      within s.id (s.kind.survey config room inWait s.span) := by
  obtain ⟨id, kind, span⟩ := s
  simp [Statement.survey]

/-- No statement of what is surveyed nests too deep. -/
def Survey.Fits (s : Survey) : Prop := ∀ v ∈ s.violations, v.rule.isNestingTooDeep = false

theorem Survey.fits_of_lawful {s : Survey} (h : s.violations = []) : s.Fits := by
  intro v hv
  rw [h] at hv
  cases hv

theorem Statement.room_of_fits {room : Nat} {inWait : Bool} {s : Statement}
    (fits : (s.survey config room inWait).Fits) : ∃ r, room = r + 1 := by
  cases room with
  | zero =>
    obtain ⟨id, kind, span⟩ := s
    have := fits _ (by rw [Statement.survey]; exact List.mem_cons_self)
    cases this
  | succ r => exact ⟨r, rfl⟩

theorem Block.fits_statement {room : Nat} {inWait : Bool} {b : Block} {s : Statement}
    (fits : (b.survey config room inWait).Fits) (hs : s ∈ b.statements) :
    (s.survey config room inWait).Fits := by
  intro v hv
  apply fits v
  rw [Block.survey_eq, within_violations, Statement.listSurvey_listing config violations_listing]
  exact List.mem_flatMap.mpr ⟨s, hs, hv⟩

theorem Statement.mem_survey_violations {room : Nat} {inWait : Bool} {s : Statement}
    {v : Violation} : v ∈ (s.survey config (room + 1) inWait).violations ↔
      v ∈ s.kind.headers.flatMap (fun h => (h.survey config room inWait).violations) ++
        s.kind.blocks.flatMap (fun b =>
          (b.survey config room (inWait || s.kind.isWait)).violations) ++
        (s.kind.tests ++ s.kind.operands).flatMap (fun e => (ofExpr inWait e).violations) ++
        s.kind.introduced.flatMap fun x => (declares config x).violations := by
  rw [Statement.survey_succ, within_violations]
  exact (s.kind.survey_violations config room inWait s.span).mem_iff

theorem Statement.fits_header {room : Nat} {inWait : Bool} {s h : Statement}
    (fits : (s.survey config (room + 1) inWait).Fits) (hh : h ∈ s.kind.headers) :
    (h.survey config room inWait).Fits := by
  intro v hv
  apply fits v
  rw [mem_survey_violations]
  apply List.mem_append_left
  apply List.mem_append_left
  exact List.mem_append_left _ (List.mem_flatMap.mpr ⟨h, hh, hv⟩)

theorem Statement.fits_block {room : Nat} {inWait : Bool} {s : Statement} {b : Block}
    (fits : (s.survey config (room + 1) inWait).Fits) (hb : b ∈ s.kind.blocks) :
    (b.survey config room (inWait || s.kind.isWait)).Fits := by
  intro v hv
  apply fits v
  rw [mem_survey_violations]
  apply List.mem_append_left
  apply List.mem_append_left
  exact List.mem_append_right _ (List.mem_flatMap.mpr ⟨b, hb, hv⟩)

/-- A statement in which no rule is broken does not nest too deep. -/
theorem Statement.room_of_survey {room : Nat} {inWait : Bool} {s : Statement}
    (h : (s.survey config room inWait).violations = []) : ∃ r, room = r + 1 :=
  room_of_fits config (fits_of_lawful h)

theorem Statement.lawful_of_survey {room : Nat} {inWait : Bool} {s : Statement}
    (h : (s.survey config (room + 1) inWait).violations = []) :
    s.kind.Lawful config room inWait := by
  rw [Statement.survey_succ, within_violations] at h
  exact StatementKind.lawful_of_survey config room inWait s.span s.kind h

theorem Statement.not_waits_of_isSimple {s : Statement} (h : s.kind.isSimple = true) :
    ¬ (Node.statement s).Waits := by
  rw [Node.waits_iff]
  obtain ⟨id, kind, span⟩ := s
  cases kind <;> simp_all [StatementKind.isSimple, Node.isWait, StatementKind.isWait,
    Node.children, StatementKind.headers, StatementKind.blocks]

/-- The survey of code that does not nest too deep finds exactly the nodes that are or hold a
wait-block. -/
theorem Node.survey_finds (n : Node) (room : Nat) (inWait : Bool)
    (fits : (n.survey config room inWait).Fits)
    (simple : ∀ m ∈ n.ownNodes, m.HasSimpleHead) :
    ((n.survey config room inWait).waits = true ↔ n.Waits) ∧
    ∀ i, i ∈ (n.survey config room inWait).awaiting ↔
      ∃ m ∈ n.ownNodes, m.id? = some i ∧ m.Waits := by
  induction n using Node.inductOn generalizing room inWait with
  | step n ih =>
    have below : ∀ i, (∃ m ∈ n.ownNodes, m.id? = some i ∧ m.Waits) ↔
        (n.id? = some i ∧ n.Waits) ∨
          ∃ c ∈ n.children, ∃ m ∈ c.ownNodes, m.id? = some i ∧ m.Waits := by
      intro i
      constructor
      · rintro ⟨m, hm, hi, waits⟩
        rcases (Node.mem_ownNodes hi).mp hm with rfl | ⟨c, hc, hmc⟩
        · exact .inl ⟨hi, waits⟩
        · exact .inr ⟨c, hc, m, hmc, hi, waits⟩
      · rintro (⟨hi, waits⟩ | ⟨c, hc, m, hm, hi, waits⟩)
        · exact ⟨n, n.self_mem_ownNodes, hi, waits⟩
        · exact ⟨m, Node.ownNodes_of_child hc hm, hi, waits⟩
    have inChild : ∀ c ∈ n.children, ∀ m ∈ c.ownNodes, m.HasSimpleHead :=
      fun c hc m hm => simple m (Node.ownNodes_of_child hc hm)
    cases n with
    | block b =>
      have found : ∀ s ∈ b.statements, _ := fun s hs =>
        ih (.statement s) (List.mem_map_of_mem hs) room inWait
          (Block.fits_statement config fits hs) (inChild _ (List.mem_map_of_mem hs))
      have waits : (Node.survey config room inWait (.block b)).waits = true ↔
          (Node.block b).Waits := by
        simp only [Node.survey, Block.survey_eq, within_waits, Statement.listSurvey_waits]
        simp only [Node.waits_iff (.block b), Node.isWait, Node.children, Bool.false_eq_true,
          false_or, List.mem_map, exists_exists_and_eq_and]
        exact exists_congr fun s => and_congr_right fun hs => (found s hs).1
      refine ⟨waits, fun i => ?_⟩
      rw [below i, ← waits]
      simp only [Node.survey, Block.survey_eq, within_waits, mem_within_awaiting, Node.id?,
        Option.some.injEq, Node.children, List.mem_map, exists_exists_and_eq_and,
        Statement.mem_listSurvey_awaiting, eq_comm (a := i)]
      exact or_congr Iff.rfl (exists_congr fun s => and_congr_right fun hs => (found s hs).2 i)
    | statement s =>
      obtain ⟨room, rfl⟩ := Statement.room_of_fits config fits
      have headers : ∀ h ∈ s.kind.headers, _ := fun h hh =>
        ih (.statement h) (List.mem_append_left _ (List.mem_map_of_mem hh)) room inWait
          (Statement.fits_header config fits hh)
          (inChild _ (List.mem_append_left _ (List.mem_map_of_mem hh)))
      have blocks : ∀ b ∈ s.kind.blocks, _ := fun b hb =>
        ih (.block b) (List.mem_append_right _ (List.mem_map_of_mem hb)) room
          (inWait || s.kind.isWait) (Statement.fits_block config fits hb)
          (inChild _ (List.mem_append_right _ (List.mem_map_of_mem hb)))
      have waits : (Node.survey config (room + 1) inWait (.statement s)).waits = true ↔
          (Node.statement s).Waits := by
        simp only [Node.survey, Statement.survey_succ, within_waits, StatementKind.survey_waits]
        rw [Node.waits_iff]
        refine or_congr Iff.rfl ?_
        constructor
        · rintro ⟨b, hb, hw⟩
          exact ⟨_, List.mem_append_right _ (List.mem_map_of_mem hb), (blocks b hb).1.mp hw⟩
        · rintro ⟨c, hc, hw⟩
          rcases List.mem_append.mp hc with hc | hc
          · -- the statements of a loop's head are simple
            obtain ⟨h, hh, rfl⟩ := List.mem_map.mp hc
            have simpleHead := simple (.statement s) (Node.self_mem_ownNodes _) h hh
            exact absurd hw (Statement.not_waits_of_isSimple simpleHead)
          · obtain ⟨b, hb, rfl⟩ := List.mem_map.mp hc
            exact ⟨b, hb, (blocks b hb).1.mpr hw⟩
      refine ⟨waits, fun i => ?_⟩
      rw [below i, ← waits]
      simp only [Node.survey, Statement.survey_succ, within_waits, mem_within_awaiting, Node.id?,
        Option.some.injEq, Node.children, List.mem_append, List.mem_map, or_and_right, exists_or,
        exists_exists_and_eq_and, StatementKind.mem_survey_awaiting, eq_comm (a := i)]
      exact or_congr Iff.rfl (or_congr
        (exists_congr fun h => and_congr_right fun hh => (headers h hh).2 i)
        (exists_congr fun b => and_congr_right fun hb => (blocks b hb).2 i))
    | _ => simp [Node.survey, nothing, Node.Waits, Node.isWait, Node.ownNodes]

/-! ## Ids of a node's own code -/

/-- Code has a node of its own with this id. -/
def Node.OwnsId (n : Node) (i : NodeId) : Prop := ∃ m ∈ n.ownNodes, m.id? = some i

theorem Node.ownsId_self {n : Node} {i : NodeId} (h : n.id? = some i) : n.OwnsId i :=
  ⟨n, n.self_mem_ownNodes, h⟩

theorem Node.ownsId_of_child {n c : Node} {i : NodeId} (hc : c ∈ n.children) (h : c.OwnsId i) :
    n.OwnsId i := by
  obtain ⟨m, hm, hi⟩ := h
  exact ⟨m, ownNodes_of_child hc hm, hi⟩

/-- The survey names ids of own nodes only. -/
theorem Node.ownsId_of_awaiting (n : Node) (room : Nat) (inWait : Bool)
    {i : NodeId} (h : i ∈ (n.survey config room inWait).awaiting) : n.OwnsId i := by
  induction n using Node.inductOn generalizing room inWait with
  | step n ih =>
    cases n with
    | block b =>
      rw [Node.survey, Block.survey_eq, mem_within_awaiting, Statement.mem_listSurvey_awaiting] at h
      rcases h with ⟨rfl, -⟩ | ⟨s, hs, found⟩
      · exact ownsId_self rfl
      · have child : Node.statement s ∈ (Node.block b).children := List.mem_map_of_mem hs
        exact ownsId_of_child child (ih _ child room inWait found)
    | statement s =>
      cases room with
      | zero =>
        obtain ⟨id, kind, span⟩ := s
        cases h
      | succ room =>
        rw [Node.survey, Statement.survey_succ, mem_within_awaiting,
          StatementKind.mem_survey_awaiting] at h
        rcases h with ⟨rfl, -⟩ | ⟨x, hx, found⟩ | ⟨b, hb, found⟩
        · exact ownsId_self rfl
        · have child : Node.statement x ∈ (Node.statement s).children :=
            List.mem_append_left _ (List.mem_map_of_mem hx)
          exact ownsId_of_child child (ih _ child room _ found)
        · have child : Node.block b ∈ (Node.statement s).children :=
            List.mem_append_right _ (List.mem_map_of_mem hb)
          exact ownsId_of_child child (ih _ child room _ found)
    | _ => cases h

end

end WaitDefer
