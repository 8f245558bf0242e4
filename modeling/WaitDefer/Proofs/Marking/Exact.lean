import WaitDefer.Marking
import WaitDefer.Proofs.Marking.Jumps

/-!
# What the marks of a function mean

A function that breaks no rule is marked so that the marks can be read off its tree:

* `has_await_iff`, `has_loop_iff`, `has_propagate_iff`: each mark, for every node of the function's
  own code;
* `get_eq_none_of_outside`: nothing else is marked;
* `marking_exact`: all of it together.
-/

namespace WaitDefer

/-! ## A function that breaks no rule -/

namespace Survey

theorem firstTooDeep_eq_nil (vs : List Violation) : firstTooDeep vs = [] ↔ vs = [] := by
  cases vs with
  | nil => simp [firstTooDeep]
  | cons v vs =>
    simp only [firstTooDeep]
    split <;> simp

/-- What names declare comes on top of the survey of a body. -/
theorem foldr_declares (config : Config) (names : List Ident) (body : Survey) :
    let s := (names.map (declares config)).foldr (· ++ ·) body
    s.waits = body.waits ∧ s.awaiting = body.awaiting ∧ s.valueReturns = body.valueReturns ∧
      s.violations = (names.flatMap fun i => (declares config i).violations) ++
        body.violations := by
  induction names with
  | nil => exact ⟨rfl, rfl, rfl, rfl⟩
  | cons i names ih =>
    obtain ⟨waits, awaiting, valueReturns, violations⟩ := ih
    have noReturn : (declares config i).valueReturns = [] := by
      unfold declares; split <;> rfl
    simp only [List.map_cons, List.foldr_cons, append_waits, append_awaiting, append_violations,
      append_valueReturns, declares_waits, declares_awaiting, noReturn, List.nil_append,
      Bool.false_or, List.flatMap_cons, List.append_assoc]
    exact ⟨waits, awaiting, valueReturns, by rw [violations]⟩

end Survey

theorem Marking.inOrder_eq_nil (vs : List Violation) : inOrder vs = [] ↔ vs = [] := by
  rw [← List.length_eq_zero_iff, inOrder, List.length_mergeSort, List.length_eq_zero_iff]

namespace Func

/-- What holds of a function that breaks no rule, before anything is said about jumps. -/
structure Lawful (config : Config) (f : Func) : Prop where
  body : (f.body.survey config config.maxDepth false).violations = []
  names : ∀ i ∈ f.name.toList ++ f.params, config.isReserved i.name = false
  returns : (f.body.survey config config.maxDepth false).waits = true →
    (f.body.survey config config.maxDepth false).valueReturns = []

theorem survey_awaiting (config : Config) (f : Func) :
    (f.survey config).awaiting = (f.body.survey config config.maxDepth false).awaiting :=
  (Survey.foldr_declares config (f.name.toList ++ f.params) _).2.1

theorem lawful_of_survey {config : Config} {f : Func} (h : (f.survey config).violations = []) :
    f.Lawful config := by
  obtain ⟨waits, -, valueReturns, violations⟩ := Survey.foldr_declares config
    (f.name.toList ++ f.params) (f.body.survey config config.maxDepth false)
  simp only [survey, List.append_eq_nil_iff, Survey.firstTooDeep_eq_nil, violations,
    List.flatMap_eq_nil_iff, Survey.declares_violations_eq_nil] at h
  obtain ⟨⟨names, body⟩, returns⟩ := h
  refine ⟨body, names, fun hw => ?_⟩
  rw [waits, valueReturns] at returns
  simpa [hw] using returns

/-- Marks come only with a function that breaks no rule. -/
theorem marking_spec {config : Config} {f : Func} {m : Marking} (ok : f.marking config = .ok m) :
    f.Lawful config ∧
      (f.body.escapes (Marking.waitsAndLoops f (f.survey config)) .outermost).violations = [] ∧
      m.table = (Marking.waitsAndLoops f (f.survey config)).markAll
        (f.body.escapes (Marking.waitsAndLoops f (f.survey config)) .outermost).propagating
        .propagate := by
  simp only [marking] at ok
  split at ok
  · cases ok
  · split at ok
    · rename_i none
      rw [Marking.inOrder_eq_nil, List.append_eq_nil_iff] at none
      cases ok
      exact ⟨lawful_of_survey none.1, none.2, rfl⟩
    · cases ok

end Func

/-! ## Each mark -/

/-- A node lies strictly inside another. -/
def Node.Holds (n m : Node) : Prop := ∃ c ∈ n.children, m ∈ c.ownNodes

/-- A jump leads to the nearest loop around it that catches it. -/
def Statement.LeadsTo (j l : Statement) : Prop :=
  ∃ kind label, j.kind = .jump kind label ∧ (Node.statement l).catches label = true ∧
    (Node.statement l).Holds (.statement j) ∧
    ∀ m, (Node.statement l).Holds m → m.Holds (.statement j) → m.catches label = false

theorem Node.Holds.mem {n m : Node} (h : n.Holds m) : m ∈ n.ownNodes := by
  obtain ⟨c, hc, hm⟩ := h
  exact ownNodes_of_child hc hm

theorem Node.holds_of_mem {n m : Node} {i : NodeId} (hm : m ∈ n.ownNodes) (hi : m.id? = some i)
    (ne : m ≠ n) : n.Holds m :=
  ((mem_ownNodes hi).mp hm).resolve_left ne

/-- A way down ends with its end. -/
theorem Node.Path.eq_append {n m : Node} {p : List Node} (h : Path n p m) : ∃ q, p = q ++ [m] := by
  induction h with
  | here n => exact ⟨[], rfl⟩
  | down _ _ ih =>
    obtain ⟨q, rfl⟩ := ih
    exact ⟨_ :: q, rfl⟩

/-- What lies on the way down to a node, below its start. -/
theorem Node.Path.mem_iff_holds {n m x : Node} {p : List Node} {i j k : NodeId}
    (distinct : n.ownIds.Nodup) (path : Path n (n :: p) m) (hn : n.id? = some k)
    (hm : m.id? = some i) (hx : x.id? = some j) :
    x ∈ p ↔ n.Holds x ∧ m ∈ x.ownNodes := by
  obtain ⟨-, ⟨rfl, rfl⟩ | ⟨c, hc, rest⟩⟩ := Path.cons_cases path
  · simp only [List.not_mem_nil, false_iff, not_and]
    rintro ⟨c, hc, inside⟩ around
    exact id_not_below distinct hm hc (mem_ownIds (ownNodes_trans inside around) hm)
  · constructor
    · intro mem
      exact ⟨⟨c, hc, (rest.mem mem).1⟩, (rest.mem mem).2⟩
    · rintro ⟨⟨d, hd, inside⟩, around⟩
      have mem := path.mem_of_between distinct hm hx (ownNodes_of_child hd inside) around
      refine (List.mem_cons.mp mem).resolve_left ?_
      rintro rfl
      exact id_not_below distinct hx hd (mem_ownIds inside hx)

/-- With distinct ids, what holds of the node with some id can be said of that node. -/
theorem Node.exists_id_iff {n k : Node} {i : NodeId} {P : Node → Prop} (distinct : n.ownIds.Nodup)
    (hk : k ∈ n.ownNodes) (hi : k.id? = some i) :
    (∃ x ∈ n.ownNodes, x.id? = some i ∧ P x) ↔ P k := by
  constructor
  · rintro ⟨x, hx, ix, px⟩
    exact eq_of_id distinct hx hk ix hi ▸ px
  · intro pk
    exact ⟨k, hk, hi, pk⟩

theorem Node.Path.nodup_ownIds {n m : Node} {p : List Node} (path : Path n p m)
    (distinct : n.ownIds.Nodup) : m.ownIds.Nodup := by
  induction path with
  | here => exact distinct
  | down child _ ih => exact ih (nodup_ownIds_of_child distinct child)

/-- The last loop on the way to a jump that catches it is where it leads. -/
theorem Statement.leadsTo_of_path {n : Node} {p₁ p₂ : List Node} {j l : Statement}
    {kind : JumpKind} {label : Option Ident} (distinct : n.ownIds.Nodup)
    (path : Node.Path n (p₁ ++ .statement l :: p₂) (.statement j))
    (isJump : j.kind = .jump kind label) (catches : (Node.statement l).catches label = true)
    (free : ∀ x ∈ p₂, x.catches label = false) : j.LeadsTo l := by
  obtain ⟨up, down⟩ := path.split
  have distinct := up.nodup_ownIds distinct
  obtain ⟨-, ⟨rfl, same⟩ | ⟨c, hc, rest⟩⟩ := Node.Path.cons_cases down
  · cases same
    obtain ⟨_, _, _, _, ⟨⟩, isLoop, -⟩ := Node.exists_of_catches catches
    simp [isLoop] at isJump
  · refine ⟨kind, label, isJump, catches, ⟨c, hc, rest.end_mem_ownNodes⟩, fun x inside around => ?_⟩
    by_contra caught
    rw [Bool.not_eq_false] at caught
    obtain ⟨s, -, -, -, rfl, -⟩ := Node.exists_of_catches caught
    have mem := (down.mem_iff_holds distinct rfl rfl rfl).mpr ⟨inside, around.mem⟩
    simp [free _ mem] at caught

theorem Statement.LeadsTo.path {n : Node} {j l : Statement} (leads : j.LeadsTo l)
    (distinct : n.ownIds.Nodup) (hl : .statement l ∈ n.ownNodes) :
    ∃ (p₁ p₂ : List Node) (kind : JumpKind) (label : Option Ident),
      Node.Path n (p₁ ++ .statement l :: p₂) (.statement j) ∧ j.kind = .jump kind label ∧
        (Node.statement l).catches label = true ∧ ∀ x ∈ p₂, x.catches label = false := by
  obtain ⟨kind, label, isJump, catches, holds, nearest⟩ := leads
  obtain ⟨p, up⟩ := Node.path_of_mem (i := l.id) rfl hl
  obtain ⟨p₁, rfl⟩ := up.eq_append
  have distinct := up.nodup_ownIds distinct
  obtain ⟨c, hc, hj⟩ := holds
  obtain ⟨p₂, rest⟩ := Node.path_of_mem (i := j.id) rfl hj
  have down := Node.Path.down hc rest
  refine ⟨p₁, p₂, kind, label, up.join down, isJump, catches, fun x hx => ?_⟩
  by_contra caught
  rw [Bool.not_eq_false] at caught
  obtain ⟨s, _, _, _, rfl, isLoop, -⟩ := Node.exists_of_catches caught
  obtain ⟨inside, around⟩ := (down.mem_iff_holds distinct rfl rfl rfl).mp hx
  have differ : Node.statement j ≠ .statement s := by
    rintro ⟨⟩
    simp [isLoop] at isJump
  simp [nearest _ inside (Node.holds_of_mem around rfl differ)] at caught

namespace Func

section
variable {config : Config} {f : Func} {m : Marking}

/-! The first two passes, where code does not nest too deep. -/

theorem firstPass_iff (simple : f.HasSimpleHeads)
    (fits : (f.body.survey config config.maxDepth false).Fits) (i : NodeId) :
    (MarkTable.empty.markAll (f.survey config).awaiting .await).has i .await = true ↔
      ∃ n ∈ f.body.ownNodes, n.id? = some i ∧ n.Waits := by
  rw [MarkTable.has_await, MarkTable.awaits_markAll, survey_awaiting]
  simp only [MarkTable.get_empty, Marks.none, Marks.await, Bool.false_eq_true, false_or, and_true]
  exact (Node.survey_finds config (.block f.body) config.maxDepth false fits simple).2 i

theorem waitsAndLoops_iff (distinct : (Node.block f.body).ownIds.Nodup) (simple : f.HasSimpleHeads)
    (fits : (f.body.survey config config.maxDepth false).Fits) (i : NodeId) :
    (Marking.waitsAndLoops f (f.survey config)).has i .loop = true ↔
      ∃ n ∈ f.body.ownNodes, n.id? = some i ∧ n.isLoop = true ∧ n.Waits := by
  have first : ∀ n ∈ f.body.ownNodes, ∀ j, n.id? = some j →
      ((MarkTable.empty.markAll (f.survey config).awaiting .await).has j .await = true ↔
        n.Waits) := by
    intro n hn j hj
    rw [firstPass_iff simple fits]
    exact Node.exists_id_iff distinct hn hj
  rw [Marking.waitsAndLoops, MarkTable.has_loop, MarkTable.loops_markAll, MarkTable.loops_markAll]
  simp only [MarkTable.get_empty, Marks.none, Marks.await, Marks.loop, Bool.false_eq_true,
    and_false, or_false, false_or, and_true]
  apply (Node.mem_waitingLoops _ (.block f.body) i first).trans
  constructor
  · rintro ⟨s, hs, isLoop, rfl, waits⟩
    exact ⟨_, hs, rfl, isLoop, (first _ hs _ rfl).mp waits⟩
  · rintro ⟨n, hn, hi, isLoop, waits⟩
    cases n with
    | statement s => exact ⟨s, hn, isLoop, Option.some.inj hi, (first _ hn _ hi).mpr waits⟩
    | _ => cases isLoop

/-! The table, pass by pass. -/

theorem awaits_iff (ok : f.marking config = .ok m) (i : NodeId) :
    (m.table.get i).awaits = true ↔
      i ∈ (f.body.survey config config.maxDepth false).awaiting := by
  rw [(marking_spec ok).2.2]
  simp [Marking.waitsAndLoops, MarkTable.awaits_markAll, MarkTable.get_empty, survey_awaiting,
    Marks.none, Marks.await, Marks.loop, Marks.propagate]

theorem propagates_iff (ok : f.marking config = .ok m) (i : NodeId) :
    (m.table.get i).propagates = true ↔
      i ∈ (f.body.escapes (Marking.waitsAndLoops f (f.survey config)) .outermost).propagating := by
  rw [(marking_spec ok).2.2]
  simp [MarkTable.propagates_markAll, Marking.waitsAndLoops, MarkTable.get_empty, Marks.none,
    Marks.await, Marks.loop, Marks.propagate]

/-- The last pass marks no loops. -/
theorem waitsAndLoops_has_loop (ok : f.marking config = .ok m) (i : NodeId) :
    (Marking.waitsAndLoops f (f.survey config)).has i .loop = m.table.has i .loop := by
  rw [(marking_spec ok).2.2, Bool.eq_iff_iff, MarkTable.has_loop, MarkTable.has_loop,
    MarkTable.loops_markAll]
  simp [Marks.propagate]

/-! The marked ids. -/

theorem awaits_iff_exists (simple : f.HasSimpleHeads) (ok : f.marking config = .ok m)
    (i : NodeId) :
    m.table.has i .await = true ↔ ∃ n ∈ f.body.ownNodes, n.id? = some i ∧ n.Waits := by
  rw [MarkTable.has_await, awaits_iff ok]
  exact (Node.survey_finds config (.block f.body) config.maxDepth false
    (Survey.fits_of_lawful (marking_spec ok).1.body) simple).2 i

/-- A node carries the first mark exactly if it is or holds a wait-block. -/
theorem has_await_iff (distinct : (Node.block f.body).ownIds.Nodup) (simple : f.HasSimpleHeads)
    (ok : f.marking config = .ok m) {n : Node} {i : NodeId} (hn : n ∈ f.body.ownNodes)
    (hi : n.id? = some i) : m.table.has i .await = true ↔ n.Waits := by
  rw [awaits_iff_exists simple ok]
  exact Node.exists_id_iff distinct hn hi

theorem loops_iff_exists (distinct : (Node.block f.body).ownIds.Nodup) (simple : f.HasSimpleHeads)
    (ok : f.marking config = .ok m) (i : NodeId) :
    m.table.has i .loop = true ↔
      ∃ n ∈ f.body.ownNodes, n.id? = some i ∧ n.isLoop = true ∧ m.table.has i .await = true := by
  have fits := Survey.fits_of_lawful (marking_spec ok).1.body
  rw [← waitsAndLoops_has_loop ok, waitsAndLoops_iff distinct simple fits]
  apply exists_congr
  intro n
  apply and_congr_right
  intro hn
  apply and_congr_right
  intro hi
  rw [has_await_iff distinct simple ok hn hi]

/-- A node carries the second mark exactly if it is a loop that carries the first. -/
theorem has_loop_iff (distinct : (Node.block f.body).ownIds.Nodup) (simple : f.HasSimpleHeads)
    (ok : f.marking config = .ok m) {n : Node} {i : NodeId} (hn : n ∈ f.body.ownNodes)
    (hi : n.id? = some i) :
    m.table.has i .loop = true ↔ n.isLoop = true ∧ m.table.has i .await = true := by
  rw [loops_iff_exists distinct simple ok]
  exact Node.exists_id_iff distinct hn hi

theorem jump_violations (simple : f.HasSimpleHeads) (ok : f.marking config = .ok m)
    {p : List Node} {j : Statement} {kind : JumpKind} {label : Option Ident}
    (path : Node.Path (.block f.body) p (.statement j)) (isJump : j.kind = .jump kind label) :
    ((Surroundings.outermost.along (Marking.waitsAndLoops f (f.survey config)) p).jump kind label
      j.span).violations = [] := by
  rw [List.eq_nil_iff_forall_not_mem]
  intro v hv
  have noted := (Node.escapes_iff _ (.block f.body) .outermost (.inl v) simple).mpr
    ⟨p, j, kind, label, path, isJump, hv⟩
  have none := (marking_spec ok).2.1
  simp only [Node.escapes, Escapes.Notes, none, List.not_mem_nil] at noted

/-- Each jump of the function leads to a loop. -/
theorem exists_leadsTo (distinct : (Node.block f.body).ownIds.Nodup) (simple : f.HasSimpleHeads)
    (ok : f.marking config = .ok m) {j : Statement} {kind : JumpKind} {label : Option Ident}
    (hj : .statement j ∈ f.body.ownNodes) (isJump : j.kind = .jump kind label) :
    ∃ l, .statement l ∈ f.body.ownNodes ∧ j.LeadsTo l := by
  obtain ⟨p, path⟩ := Node.path_of_mem (n := .block f.body) (i := j.id) rfl hj
  have lawful := jump_violations simple ok path isJump
  obtain ⟨p₁, p₂, l, rfl, catches, free⟩ := Surroundings.exists_target _ _ _ _ _ lawful
  exact ⟨l, path.split.1.end_mem_ownNodes,
    Statement.leadsTo_of_path distinct path isJump catches free⟩

/-- Between a jump and where it leads there is no wait-block, and if it leads to a loop that waits
no other loop. -/
theorem between_leadsTo (distinct : (Node.block f.body).ownIds.Nodup)
    (simple : f.HasSimpleHeads) (ok : f.marking config = .ok m) {j l : Statement}
    (hl : .statement l ∈ f.body.ownNodes) (leads : j.LeadsTo l) {n : Node} {i : NodeId}
    (hi : n.id? = some i) (inside : (Node.statement l).Holds n)
    (around : .statement j ∈ n.ownNodes) :
    n.isWait = false ∧ (m.table.has l.id .loop = true → n.isLoop = false) := by
  obtain ⟨p₁, p₂, kind, label, path, isJump, catches, free⟩ := leads.path distinct hl
  have lawful := jump_violations simple ok path isJump
  obtain ⟨waits, loops, -⟩ := Surroundings.jump_spec _ _ _ _ _ _ _ catches free lawful
  obtain ⟨up, down⟩ := path.split
  have mem := (down.mem_iff_holds (up.nodup_ownIds distinct) rfl rfl hi).mpr ⟨inside, around⟩
  rw [← waitsAndLoops_has_loop ok]
  exact ⟨waits n mem, fun marked => loops marked n mem⟩

theorem propagates_iff_exists (distinct : (Node.block f.body).ownIds.Nodup)
    (simple : f.HasSimpleHeads) (ok : f.marking config = .ok m) (i : NodeId) :
    m.table.has i .propagate = true ↔ ∃ n ∈ f.body.ownNodes, n.id? = some i ∧
      ∃ l j, .statement l ∈ f.body.ownNodes ∧ m.table.has l.id .loop = true ∧ j.LeadsTo l ∧
        (Node.statement l).Holds n ∧ .statement j ∈ n.ownNodes := by
  rw [MarkTable.has_propagate, propagates_iff ok]
  refine (Node.escapes_iff _ (.block f.body) .outermost (.inr i) simple).trans ?_
  constructor
  · rintro ⟨p, j, kind, label, path, isJump, noted⟩
    have lawful := jump_violations simple ok path isJump
    obtain ⟨p₁, p₂, l, rfl, catches, free⟩ := Surroundings.exists_target _ _ _ _ _ lawful
    obtain ⟨-, -, propagating⟩ := Surroundings.jump_spec _ _ _ _ _ _ _ catches free lawful
    obtain ⟨marked, n, hn, hi⟩ := (propagating i).mp noted
    obtain ⟨up, down⟩ := path.split
    obtain ⟨inside, around⟩ :=
      (down.mem_iff_holds (up.nodup_ownIds distinct) rfl rfl hi).mp hn
    exact ⟨n, Node.ownNodes_trans up.end_mem_ownNodes inside.mem, hi, l, j, up.end_mem_ownNodes,
      waitsAndLoops_has_loop ok l.id ▸ marked,
      Statement.leadsTo_of_path distinct path isJump catches free, inside, around⟩
  · rintro ⟨n, hn, hi, l, j, hl, marked, leads, inside, around⟩
    obtain ⟨p₁, p₂, kind, label, path, isJump, catches, free⟩ := leads.path distinct hl
    have lawful := jump_violations simple ok path isJump
    obtain ⟨-, -, propagating⟩ := Surroundings.jump_spec _ _ _ _ _ _ _ catches free lawful
    obtain ⟨up, down⟩ := path.split
    have mem := (down.mem_iff_holds (up.nodup_ownIds distinct) rfl rfl hi).mpr ⟨inside, around⟩
    rw [← waitsAndLoops_has_loop ok] at marked
    exact ⟨_, j, kind, label, path, isJump, (propagating i).mpr ⟨marked, n, mem, hi⟩⟩

/-- A node carries the third mark exactly if it lies between a loop that waits and a jump that
leads there, or is that jump. -/
theorem has_propagate_iff (distinct : (Node.block f.body).ownIds.Nodup) (simple : f.HasSimpleHeads)
    (ok : f.marking config = .ok m) {n : Node} {i : NodeId} (hn : n ∈ f.body.ownNodes)
    (hi : n.id? = some i) :
    m.table.has i .propagate = true ↔ ∃ l j, .statement l ∈ f.body.ownNodes ∧
      m.table.has l.id .loop = true ∧ j.LeadsTo l ∧ (Node.statement l).Holds n ∧
        .statement j ∈ n.ownNodes := by
  rw [propagates_iff_exists distinct simple ok]
  exact Node.exists_id_iff distinct hn hi

/-- Nothing but the function's own code is marked. -/
theorem get_eq_none_of_outside (ok : f.marking config = .ok m) {i : NodeId}
    (outside : ∀ n ∈ f.body.ownNodes, n.id? ≠ some i) : m.table.get i = .none := by
  have apart : ¬ (Node.block f.body).OwnsId i := fun ⟨n, hn, hi⟩ => outside n hn hi
  rw [Marks.eq_none_iff]
  simp only [← Bool.not_eq_true]
  refine ⟨fun marked => apart ?_, fun marked => apart ?_, fun marked => apart ?_⟩
  · exact Node.ownsId_of_awaiting config (.block f.body) _ _ ((awaits_iff ok i).mp marked)
  · rw [← MarkTable.has_loop, ← waitsAndLoops_has_loop ok, Marking.waitsAndLoops, MarkTable.has_loop,
      MarkTable.loops_markAll, MarkTable.loops_markAll] at marked
    simp only [MarkTable.get_empty, Marks.none, Marks.await, Marks.loop, Bool.false_eq_true,
      and_false, or_false, false_or, and_true] at marked
    exact Node.ownsId_of_waitingLoops _ (.block f.body) marked
  · have noted := (propagates_iff ok i).mp marked
    rcases Node.ownsId_of_escapes (.block f.body) .outermost noted with none | own
    · cases none
    · exact own

/-- **The marks of a function are those its tree calls for.** Each node of its own code carries the
first mark exactly if it is or holds a wait-block, the second exactly if it is a loop with the
first, and the third exactly if it lies strictly inside a loop with the second, on the way down to
a jump that leads to this loop. Nothing else is marked. -/
theorem marking_exact (distinct : f.ids.Nodup) (simple : f.HasSimpleHeads)
    (ok : f.marking config = .ok m) :
    (∀ n ∈ f.body.ownNodes, ∀ i, n.id? = some i →
      (m.table.has i .await = true ↔ ∃ w ∈ n.ownNodes, w.isWait = true) ∧
      (m.table.has i .loop = true ↔ n.isLoop = true ∧ m.table.has i .await = true) ∧
      (m.table.has i .propagate = true ↔ ∃ l j, .statement l ∈ f.body.ownNodes ∧
        m.table.has l.id .loop = true ∧ j.LeadsTo l ∧ (Node.statement l).Holds n ∧
          .statement j ∈ n.ownNodes)) ∧
    ∀ i, (∀ n ∈ f.body.ownNodes, n.id? ≠ some i) → m.table.get i = .none := by
  have distinct := (nodup_ownIds distinct).1
  constructor
  · intro n hn i hi
    exact ⟨has_await_iff distinct simple ok hn hi, has_loop_iff distinct simple ok hn hi,
      has_propagate_iff distinct simple ok hn hi⟩
  · intro i outside
    exact get_eq_none_of_outside ok outside

end

/-- A function that waits in a loop and leaves it by a jump:
`while (busy) { wait { fetch(defer(reply)); } if (reply) { break; } }`. -/
def polling : Func :=
  let name (n : String) : Ident := ⟨n, default⟩
  let fetch : Expr := .call (.ident (name "fetch")) [.defer [name "reply"] default] default
  let wait : Statement := ⟨4, .wait ⟨5, [⟨6, .expr fetch, default⟩], default⟩, default⟩
  let leave : Block := ⟨8, [⟨9, .jump .leave none, default⟩], default⟩
  let branch : Statement := ⟨7, .branch (.ident (name "reply")) leave none, default⟩
  let loop : Statement :=
    ⟨2, .loop none (.whileDo (.ident (name "busy"))) ⟨3, [wait, branch], default⟩, default⟩
  ⟨0, some (name "poll"), [], ⟨1, [loop], default⟩, default⟩

theorem marking_eq_ok {config : Config} {f : Func} (survey : (f.survey config).violations = [])
    (jumps : (f.body.escapes (Marking.waitsAndLoops f (f.survey config)) .outermost).violations =
      []) : ∃ m, f.marking config = .ok m := by
  simp [marking, survey, jumps, Marking.inOrder]

theorem polling_marking : ∃ m, polling.marking {} = .ok m :=
  marking_eq_ok (by decide +kernel) (by decide +kernel)

theorem marking_exact_polling : ∃ m, polling.marking {} = .ok m ∧
    polling.ids.Nodup ∧ polling.HasSimpleHeads ∧
    (∀ n ∈ polling.body.ownNodes, ∀ i, n.id? = some i →
      (m.table.has i .await = true ↔ ∃ w ∈ n.ownNodes, w.isWait = true) ∧
      (m.table.has i .loop = true ↔ n.isLoop = true ∧ m.table.has i .await = true) ∧
      (m.table.has i .propagate = true ↔ ∃ l j, .statement l ∈ polling.body.ownNodes ∧
        m.table.has l.id .loop = true ∧ j.LeadsTo l ∧ (Node.statement l).Holds n ∧
          .statement j ∈ n.ownNodes)) ∧
    ∀ i, (∀ n ∈ polling.body.ownNodes, n.id? ≠ some i) → m.table.get i = .none := by
  obtain ⟨m, ok⟩ := polling_marking
  have distinct : polling.ids.Nodup := by decide
  have simple : polling.HasSimpleHeads := by decide
  exact ⟨m, ok, distinct, simple, marking_exact distinct simple ok⟩

end Func

end WaitDefer
