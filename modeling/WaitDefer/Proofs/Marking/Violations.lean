import WaitDefer.Marking
import WaitDefer.Proofs.Marking.Exact
import WaitDefer.Proofs.Tree.Around

/-!
# The rules a function breaks

Whether a function is marked or rejected, and with which errors, can be read off its tree:

* `Func.violations`: the rules that the code of a function breaks, statement by statement, each by
  the nodes that lie around it;
* `Node.survey_violations_perm`, `Node.escapes_violations_perm`: the two passes over the tree find
  just these;
* `marking_rejects`: a function is rejected exactly if it breaks a rule, and each broken rule is
  reported once, in the order of the places.
-/

namespace WaitDefer

/-! ## What breaks a rule

In each definition `outward` lists the nodes around a statement, the innermost first. -/

/-- Names that begin with the reserved prefix. -/
def Config.violationsOf (config : Config) (names : List Ident) : List Violation :=
  (names.filter (config.isReserved ·.name)).map fun x =>
    ⟨.reservedName x.name config.reservedPrefix, x.span⟩

/-- The places of the callbacks in an expression. -/
def Expr.deferSpans (e : Expr) : List Span :=
  e.ownNodes.filterMap fun
    | .expr (.defer _ span) => some span
    | _ => none

/-- A loop that is or holds a wait-block. -/
def Node.isWaitingLoop (n : Node) : Bool := n.isLoop && n.ownNodes.any Node.isWait

namespace Statement

/-- Callbacks without a wait-block around them. -/
def strayDefers (outward : List Node) (s : Statement) : List Violation :=
  if outward.any Node.isWait then []
  else ((s.kind.tests ++ s.kind.operands).flatMap Expr.deferSpans).map (⟨.deferOutsideWait, ·⟩)

/-- The rule a jump breaks. It leads to the nearest loop that catches it; `inside` is what lies
between the two, the innermost first. -/
def badJump (outward : List Node) (s : Statement) : List Violation :=
  match s.kind with
  | .jump kind label =>
    let inside := outward.takeWhile (!·.catches label)
    match outward.find? (·.catches label), inside.reverse.find? Node.isWait,
        inside.find? Node.isLoop with
    | none, _, _ =>
      match label with
      | some l => [⟨.undefinedLabel l.name, l.span⟩]
      | none => [⟨.jumpOutsideLoop kind, s.span⟩]
    | some _, some wait, _ => [⟨.jumpOutOfWait kind wait.span, s.span⟩]
    | some target, none, some inner =>
      if (target :: inside).any Node.isWaitingLoop then
        [⟨.crossLoopJump kind ((label.map Ident.name).getD "") inner.span, s.span⟩]
      else []
    | some _, none, none => []
  | _ => []

end Statement

namespace Func

/-- The rules a function breaks, one for each occurrence. -/
def violations (config : Config) (f : Func) : List Violation :=
  let body := Node.block f.body
  config.violationsOf (f.name.toList ++ f.params) ++ body.statements.flatMap fun s =>
    let outward := (body.around s.id).reverse
    config.violationsOf s.kind.introduced ++ s.strayDefers outward ++ s.badJump outward ++
      if body.ownNodes.any Node.isWait then
        (s.kind.returned s.span).map (⟨.valueReturn f.displayName, ·⟩)
      else []

/-- How deep a statement is nested: those of the body count one, and one in a loop's head counts
one more than its loop. -/
def depth (f : Func) (s : Statement) : Nat :=
  ((Node.block f.body).around s.id).countP (·.statement?.isSome) + 1

end Func

/-! ## The survey -/

section
variable (config : Config)

/-- What surveys list of a statement itself. -/
def Statement.listed {β : Type} (part : Survey → List β) (outward : List Node) (s : Statement) :
    List β :=
  (s.kind.tests ++ s.kind.operands).flatMap
      (fun e => part (.ofExpr (outward.any Node.isWait) e)) ++
    s.kind.introduced.flatMap (fun x => part (.declares config x)) ++
    part { Survey.nothing with valueReturns := s.kind.returned s.span }

/-- A survey lists what its statements call for, each by the nodes around it. -/
theorem Node.survey_perm {β : Type} {part : Survey → List β} (listing : Survey.Listing part)
    (n : Node) (room : Nat) (outward : List Node) (distinct : n.ownIds.Nodup)
    (fits : (n.survey config room (outward.any Node.isWait)).Fits) :
    (part (n.survey config room (outward.any Node.isWait))).Perm
      (n.gather (Statement.listed config part) outward) := by
  induction n using Node.inductOn generalizing room outward with
  | step n ih =>
    apply List.Perm.trans _ (Node.gather_perm _ outward distinct).symm
    have inChild := fun c (hc : c ∈ n.children) room (fits : (c.survey config room _).Fits) =>
      ih c hc room (n :: outward) (Node.nodup_ownIds_of_child distinct hc) fits
    cases n with
    | block b =>
      have same : (Node.block b :: outward).any Node.isWait = outward.any Node.isWait := rfl
      rw [same] at inChild
      rw [Node.survey, Block.survey_eq, listing.within, Statement.listSurvey_listing config listing]
      simp only [Node.statement?, Node.children, List.flatMap_map, Option.toList_none,
        List.flatMap_nil, List.nil_append]
      apply List.Perm.flatMap_left
      intro s hs
      exact inChild (.statement s) (List.mem_map_of_mem hs) room
        (Block.fits_statement config fits hs)
    | statement s =>
      obtain ⟨room, rfl⟩ := Statement.room_of_fits config fits
      have same : (Node.statement s :: outward).any Node.isWait =
          (outward.any Node.isWait || s.kind.isWait) := Bool.or_comm ..
      rw [same] at inChild
      rw [Node.survey, Statement.survey_succ, listing.within]
      apply (StatementKind.survey_listing config listing room _ s.span s.kind).trans
      simp only [Node.statement?, Node.children, List.flatMap_append, List.flatMap_map,
        Option.toList_some, List.flatMap_cons, List.flatMap_nil, List.append_nil]
      have headers : (s.kind.headers.flatMap fun h =>
          part (h.survey config room (outward.any Node.isWait))).Perm
          (s.kind.headers.flatMap fun h =>
            (Node.statement h).gather (Statement.listed config part) (.statement s :: outward)) := by
        apply List.Perm.flatMap_left
        intro h hh
        -- a statement with a head is a loop
        have notWait : s.kind.isWait = false := by
          obtain ⟨id, kind, span⟩ := s
          cases kind <;> first | rfl | cases hh
        rw [notWait, Bool.or_false] at inChild
        exact inChild (.statement h) (List.mem_append_left _ (List.mem_map_of_mem hh)) room
          (Statement.fits_header config fits hh)
      have blocks : (s.kind.blocks.flatMap fun b =>
          part (b.survey config room (outward.any Node.isWait || s.kind.isWait))).Perm
          (s.kind.blocks.flatMap fun b =>
            (Node.block b).gather (Statement.listed config part) (.statement s :: outward)) := by
        apply List.Perm.flatMap_left
        intro b hb
        exact inChild (.block b) (List.mem_append_right _ (List.mem_map_of_mem hb)) room
          (Statement.fits_block config fits hb)
      refine .trans ?_ (((headers.append blocks).append_right _).trans List.perm_append_comm)
      simp only [Statement.listed, List.append_assoc, List.flatMap_append]
      exact .refl _
    | _ => exact .of_eq listing.nothing

end

namespace Survey

theorem flatMap_declares (config : Config) (names : List Ident) :
    (names.flatMap fun x => (declares config x).violations) = config.violationsOf names := by
  have single : ∀ x, (declares config x).violations = config.violationsOf [x] := by
    intro x
    unfold declares Config.violationsOf
    cases h : config.isReserved x.name <;> simp [h, violation, nothing]
  induction names with
  | nil => rfl
  | cons x names ih =>
    rw [List.flatMap_cons, ih, single, Config.violationsOf, Config.violationsOf,
      Config.violationsOf, ← List.map_append, ← List.filter_append]
    rfl

theorem flatMap_ofExpr (outward : List Node) (s : Statement) :
    ((s.kind.tests ++ s.kind.operands).flatMap fun e =>
      (ofExpr (outward.any Node.isWait) e).violations) = s.strayDefers outward := by
  unfold Statement.strayDefers
  cases outward.any Node.isWait with
  | true => exact List.flatMap_eq_nil_iff.mpr fun _ _ => rfl
  | false => exact List.map_flatMap.symm

end Survey

section
variable {config : Config} {n : Node} {room : Nat}

theorem Node.survey_violations_perm (distinct : n.ownIds.Nodup)
    (fits : (n.survey config room false).Fits) :
    (n.survey config room false).violations.Perm
      (n.gather (fun outward s =>
        config.violationsOf s.kind.introduced ++ s.strayDefers outward) []) := by
  apply (Node.survey_perm config Survey.violations_listing n room [] distinct fits).trans
  apply List.Perm.flatMap_left
  intro s _
  rw [Statement.listed, Survey.flatMap_ofExpr, Survey.flatMap_declares]
  exact (List.append_nil _).symm ▸ List.perm_append_comm

theorem Node.survey_valueReturns_perm (distinct : n.ownIds.Nodup)
    (fits : (n.survey config room false).Fits) :
    (n.survey config room false).valueReturns.Perm
      (n.statements.flatMap fun s => s.kind.returned s.span) := by
  apply (Node.survey_perm config Survey.valueReturns_listing n room [] distinct fits).trans
  apply List.Perm.flatMap_left
  intro s _
  have noExprs : ∀ es : List Expr, (es.flatMap fun e =>
      (Survey.ofExpr (((n.around s.id).reverse ++ []).any Node.isWait) e).valueReturns) = [] := by
    intro es
    apply List.flatMap_eq_nil_iff.mpr
    intro e _
    unfold Survey.ofExpr
    split <;> rfl
  have noNames : ∀ names : List Ident, (names.flatMap fun x =>
      (Survey.declares config x).valueReturns) = [] := by
    intro names
    apply List.flatMap_eq_nil_iff.mpr
    intro x _
    unfold Survey.declares
    split <;> rfl
  rw [Statement.listed, noExprs, noNames]
  exact .refl _

/-- Code whose statements are not nested deeper than there is room fits. -/
theorem Node.fits_of_shallow (n : Node) (room : Nat) (inWait : Bool) (distinct : n.ownIds.Nodup)
    (shallow : ∀ s ∈ n.statements, (n.around s.id).countP (·.statement?.isSome) < room) :
    (n.survey config room inWait).Fits := by
  induction n using Node.inductOn generalizing room inWait with
  | step n ih =>
    have inChild : ∀ c ∈ n.children, ∀ s ∈ c.statements,
        (c.around s.id).countP (·.statement?.isSome) + (if n.statement?.isSome then 1 else 0) <
          room := by
      intro c hc s hs
      have inside : s.id ∈ c.ownIds := Node.mem_ownIds (Node.mem_statements.mp hs) rfl
      have := shallow s (Node.mem_statements.mpr
        (Node.ownNodes_of_child hc (Node.mem_statements.mp hs)))
      rwa [Node.around_child distinct hc inside, List.countP_cons] at this
    have below := fun c (hc : c ∈ n.children) room inWait =>
      ih c hc room inWait (Node.nodup_ownIds_of_child distinct hc)
    cases n with
    | block b =>
      intro v hv
      rw [Node.survey, Block.survey_eq, Survey.within_violations,
        Statement.listSurvey_listing config Survey.violations_listing] at hv
      obtain ⟨s, hs, hv⟩ := List.mem_flatMap.mp hv
      have child : Node.statement s ∈ (Node.block b).children := List.mem_map_of_mem hs
      exact below _ child room inWait (inChild _ child) v hv
    | statement s =>
      obtain ⟨room, rfl⟩ : ∃ r, room = r + 1 := by
        have := shallow s (Node.mem_statements.mpr (Node.self_mem_ownNodes _))
        exact ⟨room - 1, by omega⟩
      intro v hv
      rw [Node.survey, Statement.mem_survey_violations] at hv
      simp only [List.mem_append, List.mem_flatMap] at hv
      rcases hv with ((⟨h, hh, hv⟩ | ⟨b, hb, hv⟩) | ⟨e, he, hv⟩) | ⟨x, hx, hv⟩
      · have child : Node.statement h ∈ (Node.statement s).children :=
          List.mem_append_left _ (List.mem_map_of_mem hh)
        exact below _ child room _ (fun x hx => Nat.lt_of_add_lt_add_right (inChild _ child x hx)) v
          hv
      · have child : Node.block b ∈ (Node.statement s).children :=
          List.mem_append_right _ (List.mem_map_of_mem hb)
        exact below _ child room _ (fun x hx => Nat.lt_of_add_lt_add_right (inChild _ child x hx)) v
          hv
      · unfold Survey.ofExpr at hv
        split at hv
        · cases hv
        · obtain ⟨span, -, rfl⟩ := List.mem_map.mp hv
          rfl
      · unfold Survey.declares at hv
        split at hv
        · rw [List.mem_singleton.mp hv]
          rfl
        · cases hv
    | _ =>
      intro v hv
      cases hv

end

/-! ## The jumps -/

section
variable (t : MarkTable)

theorem Statement.listEscapes_violations (around : Surroundings) (ss : List Statement) :
    (listEscapes t around ss).violations = ss.flatMap fun s => (s.escapes t around).violations := by
  induction ss with
  | nil => rfl
  | cons s ss ih => exact congrArg ((s.escapes t around).violations ++ ·) ih

theorem Arm.listEscapes_violations (around : Surroundings) (arms : List Arm) :
    (listEscapes t around arms).violations =
      (arms.map Arm.body).flatMap fun b => (b.escapes t around).violations := by
  induction arms with
  | nil => rfl
  | cons a arms ih =>
    obtain ⟨test, body, span⟩ := a
    exact congrArg ((body.escapes t around).violations ++ ·) ih

/-- The rule that a statement breaks if it is a jump. -/
def Statement.jumpIn (outward : List Node) (s : Statement) : List Violation :=
  match s.kind with
  | .jump kind label =>
    ((Surroundings.outermost.along t (.statement s :: outward).reverse).jump kind label
      s.span).violations
  | _ => []

theorem Statement.escapes_violations (outward : List Node) (s : Statement) :
    (s.escapes t (Surroundings.outermost.along t outward.reverse)).violations =
      s.jumpIn t outward ++ s.kind.blocks.flatMap fun b =>
        (b.escapes t (Surroundings.outermost.along t
          (.statement s :: outward).reverse)).violations := by
  unfold jumpIn
  rw [List.reverse_cons, Surroundings.along_append]
  obtain ⟨id, kind, span⟩ := s
  cases kind with
  | branch condition yes no =>
    cases no with
    | none => exact (List.append_nil _).symm
    | some no => exact congrArg (_ ++ ·) (List.append_nil _).symm
  | switch subject arms otherwise =>
    have inArms := Arm.listEscapes_violations t
      ((Surroundings.outermost.along t outward.reverse).enter id) arms
    cases otherwise with
    | none =>
      rw [StatementKind.blocks, Option.toList_none, List.append_nil]
      exact inArms
    | some b =>
      rw [StatementKind.blocks, List.flatMap_append, List.nil_append]
      exact congrArg₂ (· ++ ·) inArms (List.append_nil _).symm
  | block body | wait body => exact (List.append_nil _).symm
  | loop label head body => exact (List.append_nil _).symm
  | jump kind label => exact (List.append_nil _).symm
  | _ => rfl

theorem Node.escapes_perm (n : Node) (outward : List Node) (distinct : n.ownIds.Nodup)
    (simple : ∀ m ∈ n.ownNodes, m.HasSimpleHead) :
    (n.escapes t (Surroundings.outermost.along t outward.reverse)).violations.Perm
      (n.gather (Statement.jumpIn t) outward) := by
  induction n using Node.inductOn generalizing outward with
  | step n ih =>
    apply List.Perm.trans _ (Node.gather_perm _ outward distinct).symm
    have inChild := fun c (hc : c ∈ n.children) =>
      ih c hc (n :: outward) (Node.nodup_ownIds_of_child distinct hc)
        fun m hm => simple m (Node.ownNodes_of_child hc hm)
    cases n with
    | block b =>
      have entered : (Node.block b).escapes t (Surroundings.outermost.along t outward.reverse) =
          Statement.listEscapes t
            (Surroundings.outermost.along t (Node.block b :: outward).reverse) b.statements := by
        rw [List.reverse_cons, Surroundings.along_append]
        obtain ⟨id, statements, span⟩ := b
        rfl
      rw [entered, Statement.listEscapes_violations]
      simp only [Node.statement?, Node.children, List.flatMap_map, Option.toList_none,
        List.flatMap_nil, List.nil_append]
      apply List.Perm.flatMap_left
      intro s hs
      exact inChild (.statement s) (List.mem_map_of_mem hs)
    | statement s =>
      rw [Node.escapes, Statement.escapes_violations]
      simp only [Node.statement?, Node.children, List.flatMap_append, List.flatMap_map,
        Option.toList_some, List.flatMap_cons, List.flatMap_nil, List.append_nil]
      have headers : (s.kind.headers.flatMap fun h =>
          (Node.statement h).gather (Statement.jumpIn t) (.statement s :: outward)) = [] := by
        -- no jump stands in the head of a loop
        apply List.flatMap_eq_nil_iff.mpr
        intro h hh
        have noJumps := inChild (.statement h) (List.mem_append_left _ (List.mem_map_of_mem hh))
        have simpleHead := simple (.statement s) (Node.self_mem_ownNodes _) h hh
        rw [Node.escapes, Statement.escapes_violations] at noJumps
        obtain ⟨id, kind, span⟩ := h
        cases kind with
        | declare _ _ | assign _ _ | expr _ => exact noJumps.nil_eq.symm
        | _ => cases simpleHead
      rw [headers, List.nil_append]
      apply List.Perm.append_left
      apply List.Perm.flatMap_left
      intro b hb
      exact inChild (.block b) (List.mem_append_right _ (List.mem_map_of_mem hb))
    | _ => exact .refl _

end

/-! ## Rules broken by jumps -/

/-- What is found of a jump that leads to a loop, by the frames of the loops. -/
theorem Surroundings.jump_violations {around : Surroundings} {kind : JumpKind}
    {label : Option Ident} {span : Span} {inner outer : List LoopFrame} {frame : LoopFrame}
    (loops : around.loops = inner ++ frame :: outer)
    (target : around.target? label = some inner.length) :
    (around.jump kind label span).violations =
      match around.waitInside? frame, inner.head? with
      | some wait, _ => [⟨.jumpOutOfWait kind wait, span⟩]
      | none, some first =>
        if (frame :: inner).any (·.marked) then
          [⟨.crossLoopJump kind ((label.map Ident.name).getD "") first.span, span⟩]
        else []
      | none, none => [] := by
  have found : around.loops[inner.length]? = some frame := by
    rw [loops, List.getElem?_append_right (Nat.le_refl _)]
    simp
  have taken : around.loops.take (inner.length + 1) = inner ++ [frame] := by
    rw [loops, List.take_length_add_append]
    rfl
  rw [jump.eq_def, target]
  simp only [taken, found]
  cases inner with
  | nil =>
    cases h : around.waitInside? frame <;> cases h' : frame.marked <;>
      simp [h, h', Escapes.violation, Escapes.nothing]
  | cons first inner =>
    have any : (first :: (inner ++ [frame])).any (·.marked) =
        (frame :: first :: inner).any (·.marked) := by
      simp [Bool.or_comm, Bool.or_left_comm]
    simp only [List.cons_append, any, List.length_cons, List.head?_cons]
    cases around.waitInside? frame <;> cases (frame :: first :: inner).any (·.marked) <;>
      cases frame.marked <;> simp [Escapes.violation, Escapes.nothing]

/-- What the frames of some loops say about the nodes they come from. -/
theorem Surroundings.frames_spec (t : MarkTable) {inner : List LoopFrame} {inside : List Node}
    (frames : inner.map (fun frame => (frame.marked, frame.span)) =
      (inside.filter Node.isLoop).map fun n => (n.isMarkedLoop t, n.span)) :
    inner.any (·.marked) = inside.any (fun n => n.isLoop && n.isMarkedLoop t) ∧
      inner.head?.map LoopFrame.span = (inside.find? Node.isLoop).map Node.span := by
  constructor
  · have same := congrArg (List.any · Prod.fst) frames
    simp only [List.any_map, List.any_filter] at same
    exact same
  · have same := congrArg (fun l => l.head?.map Prod.snd) frames
    simp only [List.head?_map, List.head?_filter, Option.map_map] at same
    exact same

/-- What is found of a jump that leads to a loop, by the nodes between the two. -/
theorem Surroundings.jump_violations_of_catches (t : MarkTable) (inside outside : List Node)
    {l j : Statement} {kind : JumpKind} {label : Option Ident} (isJump : j.kind = .jump kind label)
    (catches : (Node.statement l).catches label = true)
    (free : ∀ n ∈ inside, n.catches label = false) :
    ((outermost.along t (.statement j :: (inside ++ .statement l :: outside)).reverse).jump kind
        label j.span).violations =
      match inside.reverse.find? Node.isWait, inside.find? Node.isLoop with
      | some wait, _ => [⟨.jumpOutOfWait kind wait.span, j.span⟩]
      | none, some first =>
        if (Node.statement l :: inside).any (fun n => n.isLoop && n.isMarkedLoop t) then
          [⟨.crossLoopJump kind ((label.map Ident.name).getD "") first.span, j.span⟩]
        else []
      | none, none => [] := by
  have isLoop := Node.isLoop_of_catches catches
  have notWait : (Node.statement l).isWait = false := by
    obtain ⟨_, _, _, _, ⟨⟩, hk, -⟩ := Node.exists_of_catches catches
    simp [Node.isWait, hk, StatementKind.isWait]
  have jumpNoWait : (Node.statement j).isWait = false := by
    simp [Node.isWait, isJump, StatementKind.isWait]
  have jumpNoLoop : (Node.statement j).isLoop = false := by
    simp [Node.isLoop, isJump, StatementKind.isLoop]
  have way : (.statement j :: (inside ++ .statement l :: outside)).reverse =
      outside.reverse ++ Node.statement l :: (inside.reverse ++ [.statement j]) := by simp
  rw [way, along_append]
  have freeBelow : ∀ n ∈ inside.reverse ++ [Node.statement j], n.catches label = false := by
    intro n hn
    rcases List.mem_append.mp hn with hn | hn
    · exact free n (List.mem_reverse.mp hn)
    · rw [List.mem_singleton.mp hn]
      by_contra caught
      rw [Bool.not_eq_false] at caught
      simp [Node.isLoop_of_catches caught] at jumpNoLoop
  obtain ⟨_, inner, own, ⟨⟩, -, loops, leads⟩ :=
    target?_of_catches t (outermost.along t outside.reverse) label _ _ catches freeBelow
  have frames := along_frames t (outermost.along t outside.reverse)
    (.statement l :: (inside.reverse ++ [.statement j]))
  rw [loops] at frames
  have frames : inner.map (fun frame => (frame.marked, frame.span)) =
      (inside.filter Node.isLoop).map fun n => (n.isMarkedLoop t, n.span) := by
    simpa [isLoop, jumpNoLoop, Node.isMarkedLoop, Node.id?, Node.span] using frames
  obtain ⟨marked, first⟩ := frames_spec t frames
  rw [jump_violations loops leads, waitInside?_along t _ _ rfl,
    List.find?_cons_of_neg (by simp [notWait]), List.find?_append]
  simp only [List.any_cons, marked, isLoop, Bool.true_and]
  cases inside.reverse.find? Node.isWait with
  | some wait => rfl
  | none =>
    cases hf : inside.find? Node.isLoop with
    | none =>
      rw [hf] at first
      simp [Option.map_eq_none_iff.mp first, jumpNoWait]
    | some f =>
      rw [hf] at first
      obtain ⟨g, hg, same⟩ := Option.map_eq_some_iff.mp first
      simp [hg, same, jumpNoWait, Node.isMarkedLoop, Node.id?]

theorem Statement.jumpIn_eq (t : MarkTable) (outward : List Node) (s : Statement)
    (marked : ∀ n ∈ outward, n.isLoop = true → n.isMarkedLoop t = n.isWaitingLoop) :
    s.jumpIn t outward = s.badJump outward := by
  unfold jumpIn badJump
  cases hk : s.kind with
  | jump kind label =>
    simp only
    cases found : outward.find? (·.catches label) with
    | none =>
      have free : ∀ n ∈ (Node.statement s :: outward).reverse, n.catches label = false := by
        intro n hn
        rcases List.mem_cons.mp (List.mem_reverse.mp hn) with rfl | hn
        · by_contra caught
          rw [Bool.not_eq_false] at caught
          simpa [Node.isLoop, hk, StatementKind.isLoop] using Node.isLoop_of_catches caught
        · simpa using List.find?_eq_none.mp found n hn
      rw [Surroundings.jump.eq_def, Surroundings.target?_of_free t label _ free]
      cases label <;> rfl
    | some target =>
      obtain ⟨catches, inside, outside, rfl, free⟩ := List.find?_eq_some_iff_append.mp found
      obtain ⟨l, -, -, -, rfl, -⟩ := Node.exists_of_catches catches
      have between : (inside ++ .statement l :: outside).takeWhile (!·.catches label) = inside := by
        rw [List.takeWhile_append_of_pos free, List.takeWhile_cons_of_neg (by simp [catches]),
          List.append_nil]
      have waits : (Node.statement l :: inside).any (fun n => n.isLoop && n.isMarkedLoop t) =
          (Node.statement l :: inside).any Node.isWaitingLoop := by
        rw [Bool.eq_iff_iff, List.any_eq_true, List.any_eq_true]
        apply exists_congr
        intro n
        apply and_congr_right
        intro hn
        have mem : n ∈ inside ++ Node.statement l :: outside := by
          rcases List.mem_cons.mp hn with rfl | hn <;> simp [*]
        cases h : n.isLoop with
        | true => rw [Bool.true_and, marked n mem h]
        | false => simp [Node.isWaitingLoop, h]
      rw [between, Surroundings.jump_violations_of_catches t inside outside hk catches
        fun n hn => by simpa using free n hn, waits]
      cases inside.reverse.find? Node.isWait <;> cases inside.find? Node.isLoop <;> rfl
  | _ => rfl

/-! ## The whole function -/

theorem Survey.firstTooDeep_of_fits {vs : List Violation}
    (fits : ∀ v ∈ vs, v.rule.isNestingTooDeep = false) : firstTooDeep vs = vs := by
  induction vs with
  | nil => rfl
  | cons v vs ih =>
    obtain ⟨here, rest⟩ := List.forall_mem_cons.mp fits
    simp only [firstTooDeep, here, Bool.false_eq_true, ↓reduceIte, ih rest]

theorem Marking.inOrder_perm (vs : List Violation) : (inOrder vs).Perm vs :=
  List.mergeSort_perm _ _

theorem Marking.inOrder_pairwise (vs : List Violation) :
    (inOrder vs).Pairwise fun a b => a.span.start ≤ b.span.start := by
  have sorted : (inOrder vs).Pairwise fun a b => decide (a.span.start ≤ b.span.start) = true := by
    apply List.pairwise_mergeSort
    · intro a b c
      simpa using Nat.le_trans
    · intro a b
      simpa using Nat.le_total _ _
  exact sorted.imp fun h => by simpa using h

namespace Func

section
variable {config : Config} {f : Func} (distinct : (Node.block f.body).ownIds.Nodup)
  (fits : (f.body.survey config config.maxDepth false).Fits)
include distinct fits

omit distinct in
theorem survey_violations_eq (simple : f.HasSimpleHeads) :
    (f.survey config).violations = config.violationsOf (f.name.toList ++ f.params) ++
      (f.body.survey config config.maxDepth false).violations ++
      if f.body.ownNodes.any Node.isWait then
        (f.body.survey config config.maxDepth false).valueReturns.map
          (⟨.valueReturn f.displayName, ·⟩)
      else [] := by
  obtain ⟨waits, -, valueReturns, violations⟩ := Survey.foldr_declares config
    (f.name.toList ++ f.params) (f.body.survey config config.maxDepth false)
  have hasWait : (f.body.survey config config.maxDepth false).waits =
      f.body.ownNodes.any Node.isWait := by
    rw [Bool.eq_iff_iff, List.any_eq_true]
    exact (Node.survey_finds config (.block f.body) config.maxDepth false fits simple).1
  rw [survey]
  simp only [waits, valueReturns, violations, hasWait, Survey.flatMap_declares]
  rw [Survey.firstTooDeep_of_fits]
  intro v hv
  rcases List.mem_append.mp hv with hv | hv
  · obtain ⟨x, -, rfl⟩ := List.mem_map.mp hv
    rfl
  · exact fits v hv

/-- The passes together find the rules that the function breaks. -/
theorem violations_perm (simple : f.HasSimpleHeads) :
    ((f.survey config).violations ++ (f.body.escapes
      (Marking.waitsAndLoops f (f.survey config)) .outermost).violations).Perm
      (f.violations config) := by
  have marked : ∀ n ∈ f.body.ownNodes, n.isLoop = true →
      n.isMarkedLoop (Marking.waitsAndLoops f (f.survey config)) = n.isWaitingLoop := by
    intro n hn isLoop
    cases n with
    | statement s =>
      have here := (waitsAndLoops_iff distinct simple fits s.id).trans
        (Node.exists_id_iff distinct hn rfl)
      rw [Bool.eq_iff_iff, Node.isWaitingLoop, isLoop, Bool.true_and, List.any_eq_true]
      exact here.trans (and_iff_right isLoop)
    | _ => cases isLoop
  have jumps : (f.body.escapes (Marking.waitsAndLoops f (f.survey config))
      .outermost).violations.Perm ((Node.block f.body).gather (fun outward s =>
        s.badJump outward) []) := by
    apply (Node.escapes_perm _ (.block f.body) [] distinct simple).trans
    apply List.Perm.flatMap_left
    intro s hs
    apply List.Perm.of_eq
    apply Statement.jumpIn_eq
    intro n hn
    rw [List.append_nil, List.mem_reverse, Node.around, List.mem_filter] at hn
    exact marked n hn.1
  have surveyed := Node.survey_violations_perm distinct fits
  have returns := Node.survey_valueReturns_perm distinct fits
  rw [Node.survey] at surveyed returns
  have returned : (if f.body.ownNodes.any Node.isWait then
        (f.body.survey config config.maxDepth false).valueReturns.map
          (⟨.valueReturn f.displayName, ·⟩)
      else [] : List Violation).Perm ((Node.block f.body).statements.flatMap fun s =>
        if f.body.ownNodes.any Node.isWait then
          (s.kind.returned s.span).map (⟨.valueReturn f.displayName, ·⟩)
        else []) := by
    cases f.body.ownNodes.any Node.isWait with
    | true =>
      simp only [↓reduceIte]
      rw [← List.map_flatMap]
      exact returns.map _
    | false => exact .of_eq (List.flatMap_eq_nil_iff.mpr fun _ _ => rfl).symm
  rw [survey_violations_eq fits simple, List.append_assoc, List.append_assoc, violations]
  apply List.Perm.append_left
  apply (surveyed.append (List.perm_append_comm.trans (jumps.append returned))).trans
  simp only [Node.gather, List.append_nil]
  rw [← List.append_assoc]
  exact ((List.flatMap_append_perm _ _ _).append_right _).trans (List.flatMap_append_perm _ _ _)

omit distinct in
theorem survey_fits (simple : f.HasSimpleHeads) : (f.survey config).Fits := by
  intro v hv
  rw [survey_violations_eq fits simple, List.mem_append, List.mem_append] at hv
  rcases hv with (hv | hv) | hv
  · obtain ⟨x, -, rfl⟩ := List.mem_map.mp hv
    rfl
  · exact fits v hv
  · split at hv
    · obtain ⟨span, -, rfl⟩ := List.mem_map.mp hv
      rfl
    · cases hv

end

/-- **Exactly the functions that break a rule are rejected, and each broken rule is reported once,
in the order of the places.** -/
theorem marking_rejects {config : Config} {f : Func} (distinct : f.ids.Nodup)
    (simple : f.HasSimpleHeads)
    (shallow : ∀ s ∈ (Node.block f.body).statements, f.depth s ≤ config.maxDepth) :
    ((∃ vs, f.marking config = .error vs) ↔ f.violations config ≠ []) ∧
      ∀ vs, f.marking config = .error vs →
        vs.Perm (f.violations config) ∧ vs.Pairwise fun a b => a.span.start ≤ b.span.start := by
  have distinct := (nodup_ownIds distinct).1
  have fits : (f.body.survey config config.maxDepth false).Fits :=
    Node.fits_of_shallow (.block f.body) config.maxDepth false distinct fun s hs =>
      Nat.lt_of_succ_le (shallow s hs)
  have found := violations_perm distinct fits simple
  have ordered := (Marking.inOrder_perm _).trans found
  have notTooDeep : (f.survey config).violations.any (·.rule.isNestingTooDeep) = false := by
    apply List.any_eq_false.mpr
    intro v hv
    simp [survey_fits fits simple v hv]
  simp only [marking, notTooDeep, Bool.false_eq_true, ↓reduceIte]
  split
  · rename_i none
    rw [none] at ordered
    have clear := List.nil_perm.mp ordered
    constructor
    · simp [clear]
    · intro vs error
      cases error
  · rename_i nonempty
    constructor
    · constructor
      · rintro - clear
        rw [clear] at ordered
        exact nonempty (List.perm_nil.mp ordered)
      · exact fun _ => ⟨_, rfl⟩
    · intro vs error
      cases error
      exact ⟨ordered, Marking.inOrder_pairwise _⟩

/-- A function that returns a value, leaves a wait-block by a jump, and jumps to no loop:
`while (busy) { wait { fetch(defer()); continue; } } return reply; break far;`. -/
def unruly : Func :=
  let at' (start : Nat) : Span := { (default : Span) with start }
  let name (n : String) (start : Nat) : Ident := ⟨n, at' start⟩
  let fetch : Expr := .call (.ident (name "fetch" 20)) [.defer [] (at' 26)] (at' 20)
  let wait : Statement := ⟨4, .wait ⟨5, [⟨6, .expr fetch, at' 20⟩,
    ⟨7, .jump .resume none, at' 36⟩], at' 18⟩, at' 15⟩
  let loop : Statement := ⟨2, .loop none (.whileDo (.ident (name "busy" 7))) ⟨3, [wait], at' 13⟩,
    at' 0⟩
  let leave : Statement := ⟨8, .jump .leave (some (name "far" 73)), at' 67⟩
  let reply : Statement := ⟨9, .ret (some (.ident (name "reply" 59))), at' 52⟩
  ⟨0, some (name "poll" 0), [], ⟨1, [loop, reply, leave], at' 0⟩, at' 0⟩

theorem marking_rejects_unruly : unruly.ids.Nodup ∧ unruly.HasSimpleHeads ∧
    (∀ s ∈ (Node.block unruly.body).statements, unruly.depth s ≤ ({} : Config).maxDepth) ∧
    ∃ vs, unruly.marking {} = .error vs ∧
      (vs.map fun v => (v.code, v.span.start)).Perm [("E1005", 36), ("E1007", 52), ("E1003", 73)] ∧
      vs.Pairwise fun a b => a.span.start ≤ b.span.start := by
  have distinct : unruly.ids.Nodup := by decide
  have simple : unruly.HasSimpleHeads := by decide
  have shallow : ∀ s ∈ (Node.block unruly.body).statements,
      unruly.depth s ≤ ({} : Config).maxDepth := by decide +kernel
  have broken : (unruly.violations {}).map (fun v => (v.code, v.span.start)) =
      [("E1005", 36), ("E1007", 52), ("E1003", 73)] := by decide +kernel
  obtain ⟨rejected, reported⟩ := marking_rejects distinct simple shallow
  have some : unruly.violations {} ≠ [] := by
    intro none
    rw [none] at broken
    cases broken
  obtain ⟨vs, error⟩ := rejected.mpr some
  obtain ⟨perm, ordered⟩ := reported vs error
  exact ⟨distinct, simple, shallow, vs, error, broken ▸ perm.map _, ordered⟩

end Func
end WaitDefer
