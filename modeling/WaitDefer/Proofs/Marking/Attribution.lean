import Mathlib
import WaitDefer.Proofs.Marking.Violations

/-!
# Whose callbacks

A callback belongs to the innermost wait-block around it:

* `Node.direct`, `Node.ownDefers`: the statements that belong to a piece of code and to none of the
  wait-blocks inside it, and their callbacks;
* `Node.postorder`: the code in a node, each node after what it holds;
* `Node.survey_defers`: the survey of a wait-block's body counts its own callbacks;
* `Func.warnings_eq`: there is one warning for each wait-block without callbacks of its own, those
  inside first.
-/

namespace WaitDefer

/-! ## Own statements -/

namespace Node

theorem sizeOf_child {n c : Node} (h : c ∈ n.children) : sizeOf c < sizeOf n := by
  cases n with
  | block b =>
    obtain ⟨s, hs, rfl⟩ := List.mem_map.mp h
    have := Block.sizeOf_statement hs
    simp only [block.sizeOf_spec, statement.sizeOf_spec]
    omega
  | statement s =>
    rcases List.mem_append.mp h with h | h
    · obtain ⟨x, hx, rfl⟩ := List.mem_map.mp h
      have := Statement.sizeOf_header hx
      simp only [statement.sizeOf_spec]
      omega
    · obtain ⟨b, hb, rfl⟩ := List.mem_map.mp h
      have := Statement.sizeOf_block hb
      simp only [block.sizeOf_spec, statement.sizeOf_spec]
      omega
  | _ => cases h

/-- The statements in a node that are in no wait-block inside it. A wait-block is one of them, what
it holds is not. -/
def direct (n : Node) : List Statement :=
  n.statement?.toList ++
    if n.isWait then [] else n.children.attach.flatMap fun c => c.1.direct
termination_by sizeOf n
decreasing_by exact sizeOf_child c.2

/-- The blocks and statements of own code in a node, each after what it holds. -/
def postorder (n : Node) : List Node :=
  (n.children.attach.flatMap fun c => c.1.postorder) ++ [n]
termination_by sizeOf n
decreasing_by exact sizeOf_child c.2

/-- The places of the callbacks that belong to the wait-block around a node. -/
def ownDefers (n : Node) : List Span :=
  n.direct.flatMap fun s => (s.kind.tests ++ s.kind.operands).flatMap Expr.deferSpans

/-- A wait-block without callbacks of its own. -/
def isEmptyWait : Node → Bool
  | statement ⟨_, .wait body, _⟩ => (block body).ownDefers.isEmpty
  | _ => false

theorem direct_eq (n : Node) :
    n.direct = n.statement?.toList ++ if n.isWait then [] else n.children.flatMap direct := by
  rw [direct, List.flatMap_subtype (g := direct) (fun _ _ => rfl), List.unattach_attach]

theorem postorder_eq (n : Node) : n.postorder = n.children.flatMap postorder ++ [n] := by
  rw [postorder, List.flatMap_subtype (g := postorder) (fun _ _ => rfl), List.unattach_attach]

theorem direct_block (b : Block) :
    (block b).direct = b.statements.flatMap fun s => (statement s).direct := by
  have notWait : (block b).isWait = false := rfl
  rw [direct_eq, notWait, children, if_neg Bool.false_ne_true, List.flatMap_map]
  rfl

theorem direct_statement (s : Statement) (notWait : s.kind.isWait = false) :
    (statement s).direct = s :: (statement s).children.flatMap direct := by
  rw [direct_eq, isWait, notWait]
  rfl

theorem direct_wait (s : Statement) (isWait : s.kind.isWait = true) :
    (statement s).direct = [s] := by
  rw [direct_eq, Node.isWait, isWait]
  rfl

theorem mem_direct_statement {s x : Statement} : x ∈ (statement s).direct ↔
    x = s ∨ s.kind.isWait = false ∧ ∃ c ∈ (statement s).children, x ∈ c.direct := by
  cases isWait : s.kind.isWait with
  | true => simp [direct_wait s isWait]
  | false => simp [direct_statement s isWait]

theorem ownDefers_block (b : Block) :
    (block b).ownDefers = b.statements.flatMap fun s => (statement s).ownDefers := by
  rw [ownDefers, direct_block, List.flatMap_assoc]
  rfl

theorem ownDefers_statement (s : Statement) (notWait : s.kind.isWait = false) :
    (statement s).ownDefers = (s.kind.tests ++ s.kind.operands).flatMap Expr.deferSpans ++
      (statement s).children.flatMap ownDefers := by
  rw [ownDefers, direct_statement s notWait, List.flatMap_cons, List.flatMap_assoc]
  rfl

theorem ownDefers_wait (s : Statement) (isWait : s.kind.isWait = true) :
    (statement s).ownDefers = [] := by
  rw [ownDefers, direct_wait s isWait]
  obtain ⟨id, kind, span⟩ := s
  cases kind <;> first | rfl | cases isWait

/-- A statement of own code belongs to the node itself or to a wait-block in it. -/
theorem direct_or_inside {n : Node} {x : Statement} (hx : statement x ∈ n.ownNodes) :
    x ∈ n.direct ∨ ∃ w body, statement w ∈ n.ownNodes ∧ w.kind = .wait body ∧
      x ∈ (block body).direct := by
  induction n using Node.inductOn with
  | step n ih =>
    rcases (mem_ownNodes (i := x.id) rfl).mp hx with rfl | ⟨c, hc, hx⟩
    · exact .inl (mem_direct_statement.mpr (.inl rfl))
    · rcases ih c hc hx with own | ⟨w, body, hw, isWait, inside⟩
      · cases n with
        | block b =>
          left
          obtain ⟨s, hs, rfl⟩ := List.mem_map.mp hc
          rw [direct_block]
          exact List.mem_flatMap.mpr ⟨s, hs, own⟩
        | statement s =>
          cases hk : s.kind.isWait with
          | false => exact .inl (mem_direct_statement.mpr (.inr ⟨hk, c, hc, own⟩))
          | true =>
            right
            obtain ⟨body, isWait⟩ : ∃ body, s.kind = .wait body := by
              cases k : s.kind <;> simp_all [StatementKind.isWait]
            obtain rfl : c = block body := by
              simpa [children, isWait, StatementKind.headers, StatementKind.blocks] using hc
            exact ⟨s, body, self_mem_ownNodes _, isWait, own⟩
        | _ => cases hc
      · exact .inr ⟨w, body, ownNodes_of_child hc hw, isWait, inside⟩

theorem direct_subset (n : Node) {x : Statement} (hx : x ∈ n.direct) :
    statement x ∈ n.ownNodes := by
  induction n using Node.inductOn with
  | step n ih =>
    cases n with
    | block b =>
      rw [direct_block] at hx
      obtain ⟨s, hs, hx⟩ := List.mem_flatMap.mp hx
      have child : statement s ∈ (block b).children := List.mem_map_of_mem hs
      exact ownNodes_of_child child (ih _ child hx)
    | statement s =>
      rcases mem_direct_statement.mp hx with rfl | ⟨-, c, hc, hx⟩
      · exact self_mem_ownNodes _
      · exact ownNodes_of_child hc (ih c hc hx)
    | _ => simp [direct_eq, statement?, children] at hx

end Node

/-! ## What the survey counts -/

namespace Survey

@[simp] theorem append_defers (a b : Survey) : (a ++ b).defers = a.defers + b.defers := rfl

@[simp] theorem append_warnings (a b : Survey) : (a ++ b).warnings = a.warnings ++ b.warnings := rfl

@[simp] theorem within_defers (id : NodeId) (s : Survey) : (within id s).defers = s.defers := by
  unfold within; split <;> rfl

@[simp] theorem within_warnings (id : NodeId) (s : Survey) :
    (within id s).warnings = s.warnings := by
  unfold within; split <;> rfl

@[simp] theorem apart_defers (s : Survey) : (apart s).defers = s.defers := rfl

@[simp] theorem apart_warnings (s : Survey) : (apart s).warnings = s.warnings := rfl

@[simp] theorem declares_defers (config : Config) (name : Ident) :
    (declares config name).defers = 0 := by
  unfold declares; split <;> rfl

@[simp] theorem declares_warnings (config : Config) (name : Ident) :
    (declares config name).warnings = [] := by
  unfold declares; split <;> rfl

@[simp] theorem ofExpr_defers (e : Expr) : (ofExpr true e).defers = e.deferSpans.length := rfl

@[simp] theorem ofExpr_warnings (inWait : Bool) (e : Expr) : (ofExpr inWait e).warnings = [] := by
  unfold ofExpr; cases inWait <;> rfl

end Survey

open Survey

section
variable (config : Config)

theorem Statement.listSurvey_defers (room : Nat) (inWait : Bool) (ss : List Statement) :
    (listSurvey config room inWait ss).defers =
      (ss.map fun s => (s.survey config room inWait).defers).sum := by
  induction ss with
  | nil => rfl
  | cons s ss ih => rw [listSurvey, append_defers, ih, List.map_cons, List.sum_cons]

theorem Statement.listSurvey_warnings (room : Nat) (inWait : Bool) (ss : List Statement) :
    (listSurvey config room inWait ss).warnings =
      ss.flatMap fun s => (s.survey config room inWait).warnings := by
  induction ss with
  | nil => rfl
  | cons s ss ih => rw [listSurvey, append_warnings, ih, List.flatMap_cons]

theorem Arm.listSurvey_defers (room : Nat) (arms : List Arm) :
    (listSurvey config room true arms).defers =
      (arms.map fun a => a.test.deferSpans.length).sum +
        (arms.map fun a => (a.body.survey config room true).defers).sum := by
  induction arms with
  | nil => rfl
  | cons a arms ih =>
    obtain ⟨test, body, span⟩ := a
    simp only [listSurvey, append_defers, ofExpr_defers, ih, List.map_cons, List.sum_cons]
    omega

theorem Arm.listSurvey_warnings (room : Nat) (inWait : Bool) (arms : List Arm) :
    (listSurvey config room inWait arms).warnings =
      (arms.map Arm.body).flatMap fun b => (b.survey config room inWait).warnings := by
  induction arms with
  | nil => rfl
  | cons a arms ih =>
    obtain ⟨test, body, span⟩ := a
    simp only [listSurvey, append_warnings, ofExpr_warnings, List.nil_append, ih, List.map_cons,
      List.flatMap_cons]

/-- The callbacks counted for a statement are those of its parts; a wait-block has its own. -/
theorem StatementKind.survey_defers (room : Nat) (span : Span) {kind : StatementKind}
    (notWait : kind.isWait = false) : (kind.survey config room true span).defers =
      ((kind.tests ++ kind.operands).map fun e => e.deferSpans.length).sum +
        (kind.headers.map fun h => (h.survey config room true).defers).sum +
        (kind.blocks.map fun b => (b.survey config room true).defers).sum := by
  cases kind with
  | declare name init =>
    cases init <;> simp [survey, ofExpr?, nothing, tests, operands, headers, blocks]
  | ret value => cases value <;> simp [survey, nothing, tests, operands, headers, blocks]
  | branch condition yes no =>
    cases no <;> simp [survey, tests, operands, headers, blocks, Nat.add_assoc]
  | switch subject arms otherwise =>
    cases otherwise <;>
      simp [survey, Arm.listSurvey_defers, tests, operands, headers, blocks, Function.comp_def,
        Nat.add_assoc]
  | loop label head body =>
    cases head with
    | counting init test update =>
      cases init <;> cases test <;> cases update <;>
        simp [survey, ofExpr?, nothing, tests, operands, headers, LoopHead.statements,
          LoopHead.test?, blocks] <;> omega
    | whileDo _ | doWhile _ =>
      simp [survey, tests, operands, headers, LoopHead.statements, LoopHead.test?, blocks]
  | func f =>
    obtain ⟨_, name, _, _, _⟩ := f
    cases name <;> simp [survey, nothing, tests, operands, headers, blocks]
  | wait body => cases notWait
  | _ => simp [survey, nothing, tests, operands, headers, blocks]

/-- The warnings about a statement are those about its parts, and one if it is a wait-block whose
body has no callbacks. -/
theorem StatementKind.survey_warnings (room : Nat) (inWait : Bool) (span : Span)
    (kind : StatementKind) : (kind.survey config room inWait span).warnings =
      kind.headers.flatMap (fun h => (h.survey config room inWait).warnings) ++
        kind.blocks.flatMap (fun b => (b.survey config room (inWait || kind.isWait)).warnings) ++
        match kind with
        | .wait body => if (body.survey config room true).defers = 0 then [⟨span⟩] else []
        | _ => [] := by
  cases kind with
  | declare name init =>
    cases init <;> simp [survey, ofExpr?, nothing, headers, blocks]
  | ret value => cases value <;> simp [survey, nothing, headers, blocks]
  | branch condition yes no => cases no <;> simp [survey, headers, blocks, isWait]
  | switch subject arms otherwise =>
    cases otherwise <;> simp [survey, Arm.listSurvey_warnings, headers, blocks, isWait]
  | loop label head body =>
    cases head with
    | counting init test update =>
      cases init <;> cases test <;> cases update <;>
        simp [survey, ofExpr?, nothing, headers, LoopHead.statements, blocks, isWait]
    | whileDo _ | doWhile _ => simp [survey, headers, LoopHead.statements, blocks, isWait]
  | func f =>
    obtain ⟨_, name, _, _, _⟩ := f
    cases name <;> simp [survey, nothing, headers, blocks]
  | block body | wait body => simp [survey, waiting, headers, blocks, isWait]
  | _ => simp [survey, nothing, headers, blocks]

/-! ## Whole code -/

/-- Inside a wait-block the survey counts the callbacks that belong to it. -/
theorem Node.survey_defers (n : Node) (room : Nat) (fits : (n.survey config room true).Fits) :
    (n.survey config room true).defers = n.ownDefers.length := by
  induction n using Node.inductOn generalizing room with
  | step n ih =>
    cases n with
    | block b =>
      rw [Node.survey, Block.survey_eq, within_defers, Statement.listSurvey_defers,
        ownDefers_block, List.length_flatMap]
      congr 1
      apply List.map_congr_left
      intro s hs
      exact ih (.statement s) (List.mem_map_of_mem hs) room (Block.fits_statement config fits hs)
    | statement s =>
      obtain ⟨room, rfl⟩ := Statement.room_of_fits config fits
      rw [Node.survey, Statement.survey_succ, within_defers]
      cases isWait : s.kind.isWait with
      | true =>
        rw [ownDefers_wait s isWait]
        obtain ⟨id, kind, span⟩ := s
        cases kind <;> first | rfl | cases isWait
      | false =>
        have headers : (s.kind.headers.map fun h => (h.survey config room true).defers) =
            s.kind.headers.map fun h => (Node.statement h).ownDefers.length := by
          apply List.map_congr_left
          intro h hh
          exact ih (.statement h) (List.mem_append_left _ (List.mem_map_of_mem hh)) room
            (Statement.fits_header config fits hh)
        have blocks : (s.kind.blocks.map fun b => (b.survey config room true).defers) =
            s.kind.blocks.map fun b => (Node.block b).ownDefers.length := by
          apply List.map_congr_left
          intro b hb
          exact ih (.block b) (List.mem_append_right _ (List.mem_map_of_mem hb)) room
            (Statement.fits_block config fits hb)
        rw [StatementKind.survey_defers config room s.span isWait, headers, blocks,
          ownDefers_statement s isWait, children, List.length_append, List.length_flatMap,
          List.length_flatMap, Nat.add_assoc]
        simp only [List.map_append, List.sum_append, List.map_map, Function.comp_def]
    | _ => simp [Node.survey, nothing, ownDefers, direct_eq, statement?, children]

/-- Where code does not nest too deep, neither does the body of a wait-block in it. -/
theorem Node.fits_wait {n : Node} {room : Nat} {inWait : Bool} (distinct : n.ownIds.Nodup)
    (fits : (n.survey config room inWait).Fits) {w : Statement} {body : Block}
    (hw : .statement w ∈ n.ownNodes) (isWait : w.kind = .wait body) :
    (body.survey config (room - ((n.around w.id).countP (·.statement?.isSome) + 1)) true).Fits := by
  induction n using Node.inductOn generalizing room inWait with
  | step n ih =>
    have below : ∀ c ∈ n.children, .statement w ∈ c.ownNodes →
        ∀ room inWait, (c.survey config room inWait).Fits → (body.survey config
          (room - ((c.around w.id).countP (·.statement?.isSome) + 1)) true).Fits :=
      fun c hc hw room inWait fits => ih c hc (nodup_ownIds_of_child distinct hc) fits hw
    have deeper : ∀ c ∈ n.children, .statement w ∈ c.ownNodes →
        n.around w.id = n :: c.around w.id := fun c hc hw =>
      around_child distinct hc (mem_ownIds hw rfl)
    cases n with
    | block b =>
      rcases (mem_ownNodes (i := w.id) rfl).mp hw with same | ⟨c, hc, hw⟩
      · cases same
      · have step := below c hc hw room inWait
        rw [deeper c hc hw]
        obtain ⟨s, hs, rfl⟩ := List.mem_map.mp hc
        exact step (Block.fits_statement config fits hs)
    | statement s =>
      obtain ⟨room, rfl⟩ := Statement.room_of_fits config fits
      rcases (mem_ownNodes (i := w.id) rfl).mp hw with same | ⟨c, hc, hw⟩
      · cases same
        have inBody := Statement.fits_block config fits (b := body)
          (by simp [isWait, StatementKind.blocks])
        rw [isWait, StatementKind.isWait, Bool.or_true] at inBody
        rw [around_self (i := w.id) distinct rfl]
        simpa using inBody
      · have step := below c hc hw room
        rw [deeper c hc hw, List.countP_cons, statement?, Option.isSome_some, if_pos rfl,
          Nat.add_sub_add_right]
        rcases List.mem_append.mp hc with hc | hc
        · obtain ⟨h, hh, rfl⟩ := List.mem_map.mp hc
          exact step inWait (Statement.fits_header config fits hh)
        · obtain ⟨b, hb, rfl⟩ := List.mem_map.mp hc
          exact step _ (Statement.fits_block config fits hb)
    | _ => simp [ownNodes] at hw

/-- Where no rule is broken, code outside of wait-blocks has no callbacks. -/
theorem Node.ownDefers_of_survey {n : Node} {room : Nat}
    (lawful : (n.survey config room false).violations = []) : n.ownDefers = [] := by
  induction n using Node.inductOn generalizing room with
  | step n ih =>
    cases n with
    | block b =>
      rw [Node.survey, Block.survey_eq, within_violations,
        Statement.listSurvey_violations_eq_nil] at lawful
      rw [ownDefers_block, List.flatMap_eq_nil_iff]
      intro s hs
      exact ih (.statement s) (List.mem_map_of_mem hs) (lawful s hs)
    | statement s =>
      obtain ⟨room, rfl⟩ := Statement.room_of_survey config lawful
      have parts := Statement.lawful_of_survey config lawful
      cases isWait : s.kind.isWait with
      | true => exact ownDefers_wait s isWait
      | false =>
        have blocks := parts.blocks
        rw [isWait] at blocks
        rw [ownDefers_statement s isWait, children, List.append_eq_nil_iff,
          List.flatMap_eq_nil_iff, List.flatMap_eq_nil_iff]
        refine ⟨fun e he => List.map_eq_nil_iff.mp (parts.exprs e he), fun c hc => ?_⟩
        rcases List.mem_append.mp hc with child | child
        · obtain ⟨h, hh, rfl⟩ := List.mem_map.mp child
          exact ih _ hc (parts.headers h hh)
        · obtain ⟨b, hb, rfl⟩ := List.mem_map.mp child
          exact ih _ hc (blocks b hb)
    | _ => simp [ownDefers, direct_eq, statement?, children]

/-- The survey warns of the wait-blocks without callbacks of their own, those inside first. -/
theorem Node.survey_warnings (n : Node) (room : Nat) (inWait : Bool)
    (fits : (n.survey config room inWait).Fits) :
    (n.survey config room inWait).warnings =
      (n.postorder.filter isEmptyWait).map fun w => ⟨w.span⟩ := by
  induction n using Node.inductOn generalizing room inWait with
  | step n ih =>
    rw [postorder_eq, List.filter_append, List.filter_flatMap, List.map_append, List.map_flatMap]
    cases n with
    | block b =>
      have notWait : [Node.block b].filter isEmptyWait = [] := rfl
      rw [Node.survey, Block.survey_eq, within_warnings, Statement.listSurvey_warnings, notWait,
        List.map_nil, List.append_nil, children, List.flatMap_map]
      apply List.flatMap_congr
      intro s hs
      exact ih (.statement s) (List.mem_map_of_mem hs) room inWait
        (Block.fits_statement config fits hs)
    | statement s =>
      obtain ⟨room, rfl⟩ := Statement.room_of_fits config fits
      rw [Node.survey, Statement.survey_succ, within_warnings, StatementKind.survey_warnings,
        children, List.flatMap_append, List.flatMap_map, List.flatMap_map]
      refine congrArg₂ _ (congrArg₂ _ ?_ ?_) ?_
      · apply List.flatMap_congr
        intro h hh
        exact ih (.statement h) (List.mem_append_left _ (List.mem_map_of_mem hh)) room inWait
          (Statement.fits_header config fits hh)
      · apply List.flatMap_congr
        intro b hb
        exact ih (.block b) (List.mem_append_right _ (List.mem_map_of_mem hb)) room _
          (Statement.fits_block config fits hb)
      · obtain ⟨id, kind, span⟩ := s
        cases kind with
        | wait body =>
          have inBody : (body.survey config room true).Fits := by
            have := Statement.fits_block config fits (b := body) (by simp [StatementKind.blocks])
            simpa [StatementKind.isWait] using this
          have count := Node.survey_defers config (.block body) room inBody
          rw [Node.survey] at count
          simp only [count, List.length_eq_zero_iff]
          cases none : (Node.block body).ownDefers <;> simp [isEmptyWait, none, Node.span]
        | _ => rfl
    | _ => rfl

end

/-! ## Functions -/

namespace Func

variable {config : Config} {f : Func} {m : Marking}

/-- The wait-blocks of a function without callbacks of their own, those inside first. -/
def emptyWaits (f : Func) : List Node := (Node.block f.body).postorder.filter Node.isEmptyWait

theorem survey_warnings (config : Config) (f : Func) :
    (f.survey config).warnings = (f.body.survey config config.maxDepth false).warnings := by
  rw [survey]
  generalize f.name.toList ++ f.params = names
  induction names with
  | nil => rfl
  | cons i names ih => simpa using ih

/-- There is one warning for each wait-block without callbacks of its own, those inside first. -/
theorem warnings_eq (ok : f.marking config = .ok m) :
    m.warnings = f.emptyWaits.map fun w => ⟨w.span⟩ := by
  have fits := Survey.fits_of_lawful (marking_spec ok).1.body
  have surveyed : m.warnings = (f.survey config).warnings := by
    unfold marking at ok
    simp only at ok
    split at ok
    · cases ok
    · split at ok
      · cases ok
        rfl
      · cases ok
  rw [surveyed, survey_warnings]
  exact Node.survey_warnings config (.block f.body) config.maxDepth false fits

/-- The number of callbacks counted for a wait-block is the number of those that belong to it. -/
theorem counted_eq (distinct : (Node.block f.body).ownIds.Nodup) (ok : f.marking config = .ok m)
    {w : Statement} {body : Block} (hw : .statement w ∈ f.body.ownNodes)
    (isWait : w.kind = .wait body) :
    (body.survey config (config.maxDepth - f.depth w) true).defers =
      (Node.block body).ownDefers.length := by
  have fits := Survey.fits_of_lawful (marking_spec ok).1.body
  exact Node.survey_defers config (.block body) _
    (Node.fits_wait config (n := .block f.body) distinct fits hw isWait)

/-- A statement with a callback belongs to a wait-block. -/
theorem exists_innermost (ok : f.marking config = .ok m) {x : Statement}
    (hx : .statement x ∈ f.body.ownNodes) {e : Expr} (he : e ∈ x.kind.tests ++ x.kind.operands)
    (calls : e.deferSpans ≠ []) : ∃ w body, .statement w ∈ f.body.ownNodes ∧
      w.kind = .wait body ∧ x ∈ (Node.block body).direct := by
  rcases Node.direct_or_inside (n := .block f.body) hx with own | inside
  · have none := Node.ownDefers_of_survey config (n := .block f.body) (marking_spec ok).1.body
    rw [Node.ownDefers, List.flatMap_eq_nil_iff] at none
    exact absurd (List.flatMap_eq_nil_iff.mp (none x own) e he) calls
  · exact inside

end Func

end WaitDefer
