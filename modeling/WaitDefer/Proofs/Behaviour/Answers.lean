import WaitDefer.Proofs.Behaviour.Simulation

/-!
# Rotated code runs in step

What rotation made of a piece of code does what the code does, one lemma for each form:

* `answers_pivot`, `answers_jump`: a marked statement;
* `answers_run`: a list of statements;
* `Turning.follows_next`, `Turning.follows_restart`: the routines of a loop;
* `answers_exit`: what goes on with the code that follows;
* `Matches.answers`: wherever a function and what was made of it are.
-/

namespace WaitDefer

section
variable {t : MarkTable} {max : NodeId} {fresh : NodeId → Prop} {r : Reading} {oracle : Oracle}
  {todo rest : List Task} {callers : List Frame} {visible : List String}
  {sight₀ sight : Sight} {store₀ store : Store} {events : List Event}

/-! ## Ways to go on -/

/-- Where nothing can be seen, both go on. -/
theorem answers_go {todo₀ left₀ left : List Task} (moved₀ : Task.move r todo₀ = some (.go left₀))
    (moved : Task.move r todo = some (.go left))
    (there : Matches t max fresh r ⟨[⟨left₀, sight₀⟩], store₀, events⟩
      ⟨⟨left, sight⟩ :: callers, store, events⟩) :
    Answers t max fresh r oracle ⟨[⟨todo₀, sight₀⟩], store₀, events⟩
      ⟨⟨todo, sight⟩ :: callers, store, events⟩ :=
  .step (Thread.step_of_move moved₀ _ _ _ _) (Thread.step_of_move moved _ _ _ _) .refl there

/-- Where there is less to do than before, the other need not go on. -/
theorem answers_stay {todo₀ left₀ : List Task} {τ : Thread}
    (moved₀ : Task.move r todo₀ = some (.go left₀)) (less : left₀.length < todo₀.length)
    (there : Matches t max fresh r ⟨[⟨left₀, sight₀⟩], store₀, events⟩ τ) :
    Answers t max fresh r oracle ⟨[⟨todo₀, sight₀⟩], store₀, events⟩ τ :=
  .stay (Thread.step_of_move moved₀ _ _ _ _) there
    (by simpa [Thread.size, Thread.resume] using less)

/-- Where both show the same, both go on. -/
theorem answers_event {e : Event} {todo₀ left₀ left : List Task}
    (moved₀ : Task.move r todo₀ = some (.event e left₀))
    (moved : Task.move r todo = some (.event e left))
    (there : Matches t max fresh r ⟨[⟨left₀, sight₀⟩], store₀, e :: events⟩
      ⟨⟨left, sight⟩ :: callers, store, e :: events⟩) :
    Answers t max fresh r oracle ⟨[⟨todo₀, sight₀⟩], store₀, events⟩
      ⟨⟨todo, sight⟩ :: callers, store, events⟩ :=
  .step (Thread.step_of_move moved₀ _ _ _ _) (Thread.step_of_move moved _ _ _ _) .refl there

/-- Where both ask the same, both go on the same way. -/
theorem answers_choose {e : Expr} {todo₀ yes₀ no₀ yes no : List Task}
    (moved₀ : Task.move r todo₀ = some (.choose e yes₀ no₀))
    (moved : Task.move r todo = some (.choose e yes no))
    (inYes : ∀ events, Matches t max fresh r ⟨[⟨yes₀, sight₀⟩], store₀, events⟩
      ⟨⟨yes, sight⟩ :: callers, store, events⟩)
    (inNo : ∀ events, Matches t max fresh r ⟨[⟨no₀, sight₀⟩], store₀, events⟩
      ⟨⟨no, sight⟩ :: callers, store, events⟩) :
    Answers t max fresh r oracle ⟨[⟨todo₀, sight₀⟩], store₀, events⟩
      ⟨⟨todo, sight⟩ :: callers, store, events⟩ := by
  refine .step (Thread.step_of_move moved₀ _ _ _ _) (Thread.step_of_move moved _ _ _ _) .refl ?_
  by_cases answer : oracle (.ask e :: events) = true
  · simpa [Thread.resume, Thread.see, answer] using inYes _
  · simpa [Thread.resume, Thread.see, answer] using inNo _

/-- An arm that may be missing does what it did, or what follows it. -/
theorem Matches.choice {around : Option LoopContext}
    {otherwise₀ otherwise otherwise' : Option Block} {after : Option Expr} {entries : List Entry}
    (woven : Woven r.config t max fresh visible around (.choice otherwise after otherwise') entries)
    (apart : Apart visible entries)
    (same : otherwise₀.map (Block.plain r.config) = otherwise.map (Block.plain r.config))
    (jumps : Leads t max fresh r store visible sight (.jump around) todo)
    (goesOn : Leads t max fresh r store visible sight (.go after) todo)
    (made : ∀ i, fresh i → r.given i = false)
    (known : ∀ k ∈ otherwise₀.toList.map Task.block ++ todo, k.Known r)
    (owned : store.Owned sight) (idle : Idle rest callers) :
    Matches t max fresh r ⟨[⟨otherwise₀.toList.map .block ++ todo, sight₀⟩], store₀, events⟩
      ⟨⟨otherwise'.toList.map .block ++ rest, sight⟩ :: callers, store, events⟩ := by
  cases woven with
  | chosen inner =>
    cases otherwise₀ with
    | none => cases same
    | some b₀ =>
      have same := Block.map_plain_eq (Option.some.inj same)
      exact .rotated known (.run inner apart same jumps goesOn) owned idle
  | missing hi =>
    obtain rfl := Option.map_eq_none_iff.mp same
    exact .rotated known (.exit (.last rfl (made _ hi)) goesOn) owned idle
  | absent =>
    obtain rfl := Option.map_eq_none_iff.mp same
    exact .rotated known (.exit .nothing goesOn) owned idle

/-! ## Marked statements -/

/-- What was made of a marked statement does what the statement does. -/
theorem answers_pivot {s₀ s wired : Statement} {ss₀ : List Statement} {around : Option LoopContext}
    {after : Option Expr} {entries : List Entry}
    (woven : Woven r.config t max fresh visible around (.pivot s after wired) entries)
    (apart : Apart visible entries) (same : s₀.plain r.config = s.plain r.config)
    (jumps : Leads t max fresh r store visible sight (.jump around) (.statements ss₀ :: todo))
    (goesOn : Leads t max fresh r store visible sight (.go after) (.statements ss₀ :: todo))
    (made : ∀ i, fresh i → r.given i = false)
    (known : ∀ k ∈ .statements (s₀ :: ss₀) :: todo, k.Known r)
    (owned : store.Owned sight) (idle : Idle rest callers) :
    Answers t max fresh r oracle ⟨[⟨.statements (s₀ :: ss₀) :: todo, sight₀⟩], store₀, events⟩
      ⟨⟨.statements [wired] :: rest, sight⟩ :: callers, store, events⟩ := by
  have sameKind : s₀.kind.plain r.config = s.kind.plain r.config := by
    simpa using congrArg Statement.kind same
  have source {m : Move} (notJump : s₀.kind.isJump = false) (moved : s₀.move r = some m) :
      Task.move r (.statements (s₀ :: ss₀) :: todo) =
        some (m.map (· ++ .statements ss₀ :: todo)) :=
    Task.move_of_statement notJump moved ss₀ todo
  have known {m : Move} (h : Task.move r (.statements (s₀ :: ss₀) :: todo) = some m) :
      m.Every fun todo => ∀ k ∈ todo, k.Known r :=
    (Task.move_of_known known h).2
  cases woven with
  | @block _ _ _ body out _ _ isBlock inner =>
    rw [isBlock, StatementKind.plain_block] at sameKind
    obtain ⟨b₀, isBlock₀, sameBody⟩ := StatementKind.plain_eq_block sameKind
    have moved := source (by simp [isBlock₀, StatementKind.isJump]) (Statement.move_block isBlock₀)
    exact answers_go moved rfl (.rotated (known moved)
      (.run inner apart (Block.map_plain_eq sameBody) jumps goesOn) owned idle.cons)
  | branch isBranch inYes inNo =>
    rw [isBranch, StatementKind.plain_branch] at sameKind
    obtain ⟨c₀, yes₀, no₀, isBranch₀, sameTest, sameYes, sameNo⟩ :=
      StatementKind.plain_eq_branch sameKind
    have moved := source (by simp [isBranch₀, StatementKind.isJump])
      (Statement.move_branch isBranch₀)
    rw [sameTest] at moved
    obtain ⟨knownYes, knownNo⟩ := known moved
    refine answers_choose moved rfl (fun events => ?_) fun events => ?_
    · exact .rotated knownYes (.run inYes apart.left (Block.map_plain_eq sameYes) jumps goesOn)
        owned idle.cons
    · exact .choice inNo apart.right sameNo jumps goesOn made knownNo owned idle.cons
  | switch isSwitch inArms inRest =>
    rw [isSwitch, StatementKind.plain_switch] at sameKind
    obtain ⟨subject₀, arms₀, otherwise₀, isSwitch₀, sameSubject, sameArms, sameRest⟩ :=
      StatementKind.plain_eq_switch sameKind
    have moved := source (by simp [isSwitch₀, StatementKind.isJump])
      (Statement.move_switch isSwitch₀)
    rw [sameSubject] at moved
    exact answers_event moved rfl (.rotated (known moved)
      (.switch inArms inRest apart sameArms sameRest jumps goesOn) owned idle.cons)
  | @wait _ _ _ body body' out _ counter value i _ isWait hi lowers plain rewritten resumes inner =>
    rw [isWait, StatementKind.plain_wait] at sameKind
    obtain ⟨b₀, isWait₀, sameBody⟩ := StatementKind.plain_eq_wait r.config sameKind
    have moved := source (by simp [isWait₀, StatementKind.isJump]) (Statement.move_wait isWait₀)
    have unseen : counter ∉ visible := apart.new _ List.mem_cons_self
    have waits : Leads t max fresh r (store.bind sight counter .counter) (counter :: visible) sight
        (.go (some (.call (.memberNamed counter r.config.runtime.wait s.span) [value] s.span)))
        (.statements ss₀ :: todo) :=
      .wait List.mem_cons_self (Store.find_bind owned counter .counter) resumes
        (goesOn.bind sight .counter unseen (List.subset_cons_self _ _))
    have stands : Stands t max fresh r (store.bind sight counter .counter) (counter :: visible)
        sight [.statements out] (.block b₀ :: .statements ss₀ :: todo) :=
      .run inner apart.seen (Block.map_plain_eq (sameBody.trans plain.symm)) .free waits
    exact .step (Thread.step_of_move moved _ _ _ _) rfl (.single (Thread.step_counter (made i hi)))
      (.rotated (known moved) stands (Store.owned_bind owned counter .counter) idle.cons)
  | @loop _ _ _ label head body out _ names parts i₁ j₁ k₁ i₂ j₂ k₂ x y z entries isLoop headers new
      inner parted =>
    rw [isLoop, StatementKind.plain_loop] at sameKind
    obtain ⟨head₀, body₀, isLoop₀, sameHead, sameBody⟩ :=
      StatementKind.plain_eq_loop r.config sameKind
    have moved := source (by simp [isLoop₀, StatementKind.isJump]) (Statement.move_loop isLoop₀)
    let l : Turning :=
      ⟨label, head, body, after, s.span, names, parts, out, visible, sight, entries⟩
    have distinct := apart.distinct
    simp only [List.map_cons, List.nodup_cons, List.mem_cons, not_or] at distinct
    have makes : l.Makes t max fresh r ⟨label, head₀, body₀⟩ :=
      { same := by simp [Rounds.plain, sameHead, sameBody, l]
        headers := fun h hh => (headers h hh).1
        inner := inner
        apart := apart.seen.seen.mono (List.Perm.swap ..).subset
        parted := ⟨x, new x (by simp), parted⟩ }
    have stands := Turning.stands_start makes goesOn
      ⟨distinct.1.1, apart.new _ List.mem_cons_self, apart.tail.new _ List.mem_cons_self⟩
      ⟨new i₁ (by simp), new i₂ (by simp), new z (by simp)⟩ j₁ k₁ j₂ k₂
    exact answers_go moved rfl (.rotated (known moved) stands owned idle.cons)

/-! ## Lists of statements -/

/-- What was made of a jump to a rotated loop goes on where the jump leads. -/
theorem answers_jump {s₀ s : Statement} {ss₀ : List Statement} {kind : JumpKind}
    {label : Option Ident} {context : LoopContext} (isJump : s.kind = .jump kind label)
    (caught : ∀ l ∈ label, context.label = some l.name)
    (same : s₀.plain r.config = s.plain r.config)
    (jumps : Leads t max fresh r store visible sight (.jump (some context)) todo)
    (known : ∀ k ∈ .statements (s₀ :: ss₀) :: todo, k.Known r)
    (owned : store.Owned sight) (idle : Idle rest callers) :
    Answers t max fresh r oracle ⟨[⟨.statements (s₀ :: ss₀) :: todo, sight₀⟩], store₀, events⟩
      ⟨⟨.statements [⟨s.id, context.lowered kind, s.span⟩] :: rest, sight⟩ :: callers, store,
        events⟩ := by
  obtain ⟨first, knownRest⟩ := List.forall_mem_cons.mp known
  have isJump₀ : s₀.kind = .jump kind label := by
    have sameKind : s₀.kind.plain r.config = s.kind.plain r.config := by
      simpa using congrArg Statement.kind same
    rw [isJump, StatementKind.plain_jump] at sameKind
    exact StatementKind.plain_eq_jump r.config sameKind
  have notGiven : r.given s.id = false := by
    have known₀ : (Node.statement s₀).Known r := first _ List.mem_cons_self
    have sameId : s₀.id = s.id := by simpa using congrArg Statement.id same
    rw [← sameId, known₀.given, isJump₀]
    rfl
  obtain ⟨left, tail, jumped, isExit, goesOn⟩ := jumps.jump kind caught
  have moved := Task.move_jump (r := r) isJump₀ ss₀ todo
  rw [jumped] at moved
  have less : left.length ≤ todo.length := (Task.jump_suffix jumped).length_le
  have isExit : Exit r tail [.statements [⟨s.id, _, s.span⟩]] := .last isExit notGiven
  have knownLeft : ∀ k ∈ left, k.Known r := fun k hk =>
    knownRest k ((Task.jump_suffix jumped).subset hk)
  exact answers_stay moved (Nat.lt_succ_of_le less)
    (.rotated knownLeft (.exit isExit goesOn) owned idle)

/-- What was made of a list of statements does what they do. -/
theorem answers_run {around : Option LoopContext} {ss₀ ss out : List Statement}
    {tail : Option Expr} {entries : List Entry}
    (woven : Woven r.config t max fresh visible around (.run ss tail out) entries)
    (apart : Apart visible entries)
    (same : ss₀.map (Statement.plain r.config) = ss.map (Statement.plain r.config))
    (jumps : Leads t max fresh r store visible sight (.jump around) todo)
    (goesOn : Leads t max fresh r store visible sight (.go tail) todo)
    (made : ∀ i, fresh i → r.given i = false)
    (known : ∀ k ∈ .statements ss₀ :: todo, k.Known r)
    (owned : store.Owned sight) (idle : Idle rest callers) :
    Answers t max fresh r oracle ⟨[⟨.statements ss₀ :: todo, sight₀⟩], store₀, events⟩
      ⟨⟨.statements out :: rest, sight⟩ :: callers, store, events⟩ := by
  have knownRest := (List.forall_mem_cons.mp known).2
  have passes (empty : ss₀ = []) {front rest : List Task} (idle : Idle rest callers)
      (isExit : Exit r tail front) :
      Answers t max fresh r oracle ⟨[⟨.statements ss₀ :: todo, sight₀⟩], store₀, events⟩
        ⟨⟨front ++ rest, sight⟩ :: callers, store, events⟩ := by
    subst empty
    exact answers_stay rfl (Nat.lt_succ_self _)
      (.rotated knownRest (.exit isExit goesOn) owned idle)
  cases woven with
  | done => exact passes (List.map_eq_nil_iff.mp same) idle.cons .nothing
  | goOn hi => exact passes (List.map_eq_nil_iff.mp same) idle (.last rfl (made _ hi))
  | keep unmarked quiet closed inner =>
    obtain ⟨s₀, ss₀, rfl, here, others⟩ := List.map_eq_cons_iff.mp same
    exact answers_keep known closed here (.run inner apart others jumps goesOn) owned idle
  | jump marked isJump caught =>
    obtain ⟨s₀, ss₀, rfl, here, -⟩ := List.map_eq_cons_iff.mp same
    exact answers_jump isJump caught here jumps known owned idle
  | last marked pivot =>
    obtain ⟨s₀, ss₀, rfl, here, others⟩ := List.map_eq_cons_iff.mp same
    obtain rfl := List.map_eq_nil_iff.mp others
    exact answers_pivot pivot apart here (.within jumps) (.pass goesOn) made known owned idle
  | @split _ _ s wired ss out _ name i j k entries more marked notLast hi hj hk inner pivot =>
    obtain ⟨s₀, ss₀, rfl, here, others⟩ := List.map_eq_cons_iff.mp same
    have unseen : name ∉ visible := apart.new _ List.mem_cons_self
    let value := Value.routine out sight
    have later : Leads t max fresh r (store.bind sight name value) (name :: visible) sight
        (.go (some (.callNamed name s.span))) (.statements ss₀ :: todo) :=
      .routine List.mem_cons_self (Store.find_bind owned name value) (List.subset_cons_self _ _)
        inner apart.tail.left others (jumps.bind sight value unseen (List.Subset.refl _))
        (goesOn.bind sight value unseen (List.Subset.refl _))
    have sub : visible ⊆ name :: visible := List.subset_cons_self _ _
    exact .first (Thread.step_routine (made i hi)) (answers_pivot pivot apart.seen.right here
      (.within (jumps.bind sight value unseen sub)) later made known
      (Store.owned_bind owned name value) idle).follows

/-! ## Switches and tests -/

/-- What was made of the arms of a switch does what they do. -/
theorem answers_switch {around : Option LoopContext} {arms₀ arms arms' : List Arm}
    {otherwise₀ otherwise otherwise' : Option Block} {after : Option Expr}
    {entries more : List Entry}
    (inArms : Woven r.config t max fresh visible around (.arms arms after arms') entries)
    (inRest : Woven r.config t max fresh visible around (.choice otherwise after otherwise') more)
    (apart : Apart visible (entries ++ more))
    (sameArms : arms₀.map (Arm.plain r.config) = arms.map (Arm.plain r.config))
    (sameRest : otherwise₀.map (Block.plain r.config) = otherwise.map (Block.plain r.config))
    (jumps : Leads t max fresh r store visible sight (.jump around) todo)
    (goesOn : Leads t max fresh r store visible sight (.go after) todo)
    (made : ∀ i, fresh i → r.given i = false)
    (known : ∀ k ∈ .switch arms₀ otherwise₀ :: todo, k.Known r)
    (owned : store.Owned sight) (idle : Idle rest callers) :
    Answers t max fresh r oracle ⟨[⟨.switch arms₀ otherwise₀ :: todo, sight₀⟩], store₀, events⟩
      ⟨⟨.switch arms' otherwise' :: rest, sight⟩ :: callers, store, events⟩ := by
  have known {m : Move} (h : Task.move r (.switch arms₀ otherwise₀ :: todo) = some m) :
      m.Every fun todo => ∀ k ∈ todo, k.Known r :=
    (Task.move_of_known known h).2
  cases inArms with
  | noArms =>
    obtain rfl := List.map_eq_nil_iff.mp sameArms
    exact answers_go rfl rfl
      (.choice inRest apart sameRest jumps goesOn made (known rfl) owned idle)
  | arm inArm others =>
    obtain ⟨a₀, arms₀, rfl, here, sameArms⟩ := List.map_eq_cons_iff.mp sameArms
    have sameTest : a₀.test.plain r.config = _ := congrArg Arm.test here
    have sameBody : a₀.body.plain r.config = _ := congrArg Arm.body here
    have moved : Task.move r (.switch (a₀ :: arms₀) otherwise₀ :: todo) =
      some (.choose (a₀.test.plain r.config) (.block a₀.body :: todo)
        (.switch arms₀ otherwise₀ :: todo)) := rfl
    obtain ⟨knownYes, knownNo⟩ := known moved
    rw [sameTest] at moved
    rw [List.append_assoc] at apart
    refine answers_choose moved rfl (fun events => ?_) fun events => ?_
    · have stands := Stands.run inArm apart.left (Block.map_plain_eq sameBody) jumps goesOn
      exact .rotated knownYes stands owned idle
    · have stands := Stands.switch others inRest apart.right sameArms sameRest jumps goesOn
      exact .rotated knownNo stands owned idle

/-- What was made of the test of a loop does what the test does. -/
theorem answers_test {i j : NodeId} {condition₀ condition : Expr} {loop : Rounds} {yes : Block}
    {exit : Statement} {span : Span} (tests : loop.head.test? = some condition₀)
    (same : condition₀.plain r.config = condition.plain r.config)
    (inYes : Stands t max fresh r store visible sight [.block yes] (loop.round ++ todo))
    (inNo : Stands t max fresh r store visible sight [.statements [exit]] todo)
    (known : ∀ k ∈ .test loop :: todo, k.Known r)
    (owned : store.Owned sight) (idle : Idle rest callers) :
    Answers t max fresh r oracle ⟨[⟨.test loop :: todo, sight₀⟩], store₀, events⟩
      ⟨⟨.statements [.branchWith i j condition yes exit span] :: rest, sight⟩ :: callers,
        store, events⟩ := by
  have moved : Task.move r (.test loop :: todo) =
      some (.choose (condition.plain r.config) (loop.round ++ todo) todo) := by
    rw [Task.move, tests, ← same]
  obtain ⟨knownYes, knownNo⟩ := (Task.move_of_known known moved).2
  exact answers_choose moved rfl (fun _ => .rotated knownYes inYes owned idle.cons)
    fun _ => .rotated knownNo inNo owned idle.cons

/-! ## Calls -/

section
variable {l : Turning} {loop : Rounds} {store' : Store}
  (makes : l.Makes t max fresh r loop) (routines : l.Bound store)
  (goesOn : Leads t max fresh r store l.inside l.home (.go l.after) todo)
  (agree : store.Agree l.inside store') (made : ∀ i, fresh i → r.given i = false)
  (idle : Idle [] callers)

include makes routines goesOn agree made idle

/-- The routine that comes after a round does what the loop does from there on. -/
theorem Turning.follows_next (known : ∀ k ∈ .around loop :: todo, k.Known r) :
    Follows t max fresh r oracle ⟨[⟨.around loop :: todo, sight₀⟩], store₀, events⟩
      ⟨⟨[.statements l.parts.next], store'.length :: l.home⟩ :: callers, store' ++ [[]],
        events⟩ := by
  have agree := agree.trans (store'.agree_new _)
  have stands := stands_next makes (routines.agree agree)
    (fun name _ => (store'.find_enter l.home name).trans (store'.find_new l.home name).symm)
    (goesOn.transport agree (agree _) (List.Subset.refl _)) made
  have moved : Task.move r (.around loop :: todo) = some (.go (loop.next ++ todo)) := rfl
  exact ⟨_, _, Thread.step_of_move moved _ _ _ _, .refl,
    .rotated (Task.move_of_known known moved).2 stands (store'.owned_enter _) idle⟩

/-- The routine of a loop whose test comes first does what the loop does from its test on. -/
theorem Turning.follows_restart (testFirst : ∀ condition, l.head ≠ .doWhile condition)
    (known : ∀ k ∈ .test loop :: todo, k.Known r) :
    Follows t max fresh r oracle ⟨[⟨.test loop :: todo, sight₀⟩], store₀, events⟩
      ⟨⟨[.statements l.parts.restart], store'.length :: l.home⟩ :: callers, store' ++ [[]],
        events⟩ := by
  have agree := agree.trans (store'.agree_new _)
  have routines := routines.agree agree
  have found : ∀ name ∈ l.inside, (store' ++ [[]]).find (store'.length :: l.home) name =
      (store' ++ [[]]).find l.home name := fun name _ =>
    (store'.find_enter l.home name).trans (store'.find_new l.home name).symm
  have goesOn := goesOn.transport agree (agree _) (List.Subset.refl _)
  have inYes := stands_round makes routines found goesOn
  rcases makes.restart_cases testFirst with
    ⟨i, j, x, c₀, c, new, tests, sameTest, parts⟩ | ⟨noTest, parts⟩
  · rw [parts]
    have inNo := stands_exit found goesOn made new l.span
    exact (answers_test tests sameTest inYes inNo known (store'.owned_enter _) idle).follows
  · have moved : Task.move r (.test loop :: todo) = some (.go (loop.round ++ todo)) := by
      rw [Task.move, noTest]
    rw [parts]
    exact ⟨_, _, Thread.step_of_move moved _ _ _ _, .refl,
      .rotated (Task.move_of_known known moved).2 inYes (store'.owned_enter _) idle⟩

end

/-- A name that is called stands for a routine that does what is to be done, unless nothing is. -/
theorem Leads.named {name : Ident} {span : Span}
    (h : Leads t max fresh r store visible sight (.go (some (.call (.ident name) [] span))) todo)
    (made : ∀ i, fresh i → r.given i = false) (known : ∀ k ∈ todo, k.Known r) :
    (∃ todo', todo = .statements [] :: todo' ∧ Leads t max fresh r store visible sight
      (.go (some (.call (.ident name) [] span))) todo') ∨
    name.name ∈ visible ∧ ∃ body home, store.find sight name.name = some (.routine body home) ∧
      ∀ store', store.Agree visible store' → Idle [] callers →
        Follows t max fresh r oracle ⟨[⟨todo, sight₀⟩], store₀, events⟩
          ⟨⟨[.statements body], store'.length :: home⟩ :: callers, store' ++ [[]], events⟩ := by
  generalize same : Aim.go (some (Expr.call (.ident name) [] span)) = aim at h
  cases h with
  | pass rest =>
    cases same
    exact .inl ⟨_, rfl, rest⟩
  | routine seen bound sub woven apart sameCode jumps rest =>
    cases same
    refine .inr ⟨seen, _, _, bound, fun store' agree idle => ?_⟩
    have agree := agree.mono sub
    exact (answers_run woven apart sameCode (jumps.enter agree) (rest.enter agree) made known
      (store'.owned_enter _) idle).follows
  | next sub makes bound routines rest =>
    cases same
    refine .inr ⟨sub (by simp [Turning.inside]), _, _, bound, fun store' agree idle => ?_⟩
    exact Turning.follows_next makes routines rest (agree.mono sub) made idle known
  | again sub makes testFirst bound routines rest =>
    cases same
    refine .inr ⟨sub (by simp [Turning.inside]), _, _, bound, fun store' agree idle => ?_⟩
    exact Turning.follows_restart makes routines rest (agree.mono sub) made idle testFirst known
  | _ => cases same

/-- Calling a routine that is found enters it. -/
theorem Thread.step_call {s : Statement} {name : Ident} {span : Span}
    (isCall : s.kind = .expr (.call (.ident name) [] span)) (made : r.given s.id = false)
    {body : List Statement} {home : Sight}
    (found : store.find sight name.name = some (.routine body home)) :
    Thread.step r oracle ⟨⟨.statements [s] :: rest, sight⟩ :: callers, store, events⟩ =
      some ⟨⟨[.statements body], store.length :: home⟩ ::
        ⟨.statements [] :: rest, sight⟩ :: callers, store ++ [[]], events⟩ := by
  have isMade : s.kind.made r.config = _ := isCall ▸ StatementKind.made_call r.config name span
  rw [step_made made isMade]
  simp [Move.map, perform, enter, resume, Store.routine, found]

/-- A counter calls at once what it is given. -/
theorem Thread.step_wait {s : Statement} {counter : String} {callee : Expr} {span : Span}
    (isWait : s.kind =
      .expr (.call (.memberNamed counter r.config.runtime.wait span) [callee] span))
    (made : r.given s.id = false) (isCounter : store.find sight counter = some .counter)
    {body : List Statement} {home : Sight}
    (found : store.routine sight callee = some (body, home)) :
    Thread.step r oracle ⟨⟨.statements [s] :: rest, sight⟩ :: callers, store, events⟩ =
      some ⟨⟨[.statements body], store.length :: home⟩ ::
        ⟨.statements [] :: rest, sight⟩ :: callers, store ++ [[]], events⟩ := by
  have isMade : s.kind.made r.config = _ :=
    isWait ▸ StatementKind.made_wait r.config counter callee span
  rw [step_made made isMade]
  simp [Move.map, perform, enter, resume, isCounter, found]

theorem Thread.Reaches.step_of_ends {f : Frame} {frames : List Frame}
    (h : Thread.Reaches r oracle ⟨f :: frames, store, events⟩ ⟨[], store, events⟩) :
    ∃ τ₁, Thread.step r oracle ⟨f :: frames, store, events⟩ = some τ₁ ∧
      τ₁.Reaches r oracle ⟨[], store, events⟩ := by
  rcases h.cases_head with same | ⟨τ₁, step, rest⟩
  · cases same
  · exact ⟨τ₁, step, rest⟩

/-- A thread that has nothing to do but to end does so. -/
theorem Exit.ends {front : List Task} (isExit : Exit r none front) (idle : Idle rest callers) :
    Thread.Reaches r oracle ⟨⟨front ++ rest, sight⟩ :: callers, store, events⟩
      ⟨[], store, events⟩ := by
  cases isExit with
  | @last _ s isExit made =>
    have moved : Task.move r (.statements [s] :: rest) = some (.leave none) := by
      have leaves : s.move r = some (.leave none) := by rw [Statement.move, isExit]; rfl
      have notJump : s.kind.isJump = false := by rw [isExit]; rfl
      rw [Task.move_of_statement notJump leaves]
      rfl
    exact .head (Thread.step_of_move moved _ _ _ _) (idle.callers_end _ _)
  | nothing => exact idle.ends _ _ _

/-- Calling what follows does what is to be done. -/
theorem answers_named {name : String} {span : Span}
    (h : Leads t max fresh r store visible sight (.go (some (.callNamed name span))) todo)
    {front : List Task} (isExit : Exit r (some (.callNamed name span)) front)
    (made : ∀ i, fresh i → r.given i = false) (known : ∀ k ∈ todo, k.Known r) {store' : Store}
    {sight' : Sight} (agree : store.Agree visible store')
    (found : ∀ name ∈ visible, store'.find sight' name = store.find sight name)
    (owned : store'.Owned sight') (idle : Idle rest callers) :
    Answers t max fresh r oracle ⟨[⟨todo, sight₀⟩], store₀, events⟩
      ⟨⟨front ++ rest, sight'⟩ :: callers, store', events⟩ := by
  rcases h.named made known with ⟨todo', rfl, rest⟩ | ⟨seen, body, home, bound, follows⟩
  · exact answers_stay rfl (Nat.lt_succ_self _) (.rotated (List.forall_mem_cons.mp known).2
      (.exit isExit (rest.transport agree found (List.Subset.refl _))) owned idle)
  · cases isExit with
    | last isCall notGiven =>
      exact .first (Thread.step_call isCall notGiven ((found name seen).trans bound))
        (follows store' agree (idle.enter sight'))

/-- What goes on with the code that follows does what is to be done. -/
theorem answers_exit {aim : Aim} (h : Leads t max fresh r store visible sight aim todo)
    {tail : Option Expr} (isGo : aim = .go tail) {front : List Task} (isExit : Exit r tail front)
    (made : ∀ i, fresh i → r.given i = false) (known : ∀ k ∈ todo, k.Known r) {store' : Store}
    {sight' : Sight} (agree : store.Agree visible store')
    (found : ∀ name ∈ visible, store'.find sight' name = store.find sight name)
    (owned : store'.Owned sight') (idle : Idle rest callers) :
    Answers t max fresh r oracle ⟨[⟨todo, sight₀⟩], store₀, events⟩
      ⟨⟨front ++ rest, sight'⟩ :: callers, store', events⟩ := by
  induction h generalizing tail front rest callers store' sight' with
  | done =>
    cases isGo
    have run : Thread.Reaches r oracle ⟨⟨_ ++ _, sight'⟩ :: _, store', events⟩
        ⟨[], store', events⟩ := isExit.ends idle
    obtain ⟨τ₁, target, more⟩ := run.step_of_ends
    have source : Thread.step r oracle ⟨[⟨[], sight₀⟩], store₀, events⟩ =
      some ⟨[], store₀, events⟩ := rfl
    exact .step source target more .ended
  | pass goesOn ih =>
    cases isGo
    exact answers_stay rfl (Nat.lt_succ_self _) (.rotated (List.forall_mem_cons.mp known).2
      (.exit isExit (goesOn.transport agree found (List.Subset.refl _))) owned idle)
  | routine seen bound sub woven apart sameCode jumps goesOn =>
    cases isGo
    exact answers_named (.routine seen bound sub woven apart sameCode jumps goesOn) isExit made
      known agree found owned idle
  | next sub makes bound routines goesOn =>
    cases isGo
    exact answers_named (.next sub makes bound routines goesOn) isExit made known agree found owned
      idle
  | again sub makes testFirst bound routines goesOn =>
    cases isGo
    exact answers_named (.again sub makes testFirst bound routines goesOn) isExit made known agree
      found owned idle
  | @wait _ _ counter value span after todo seen bound resumes goesOn ih =>
    cases isGo
    cases isExit with
    | last isWait notGiven =>
      have isCounter := (found counter seen).trans bound
      have entered := agree.trans (store'.agree_new _)
      have same : ∀ name ∈ _, (store' ++ [[]]).find (store'.length :: sight') name = _ :=
        fun name seen => (store'.find_enter sight' name).trans (found name seen)
      cases resumes with
      | @routine name place =>
        rcases goesOn.named made known with
          ⟨todo', rfl, later⟩ | ⟨seen', body, home, bound', follows⟩
        · have resumes : Expr.Resumes fresh span (some (.call (.ident name) [] place))
              (.ident name) := .routine
          have waits := (Leads.wait seen bound resumes later).transport agree found
            (List.Subset.refl _)
          exact answers_stay rfl (Nat.lt_succ_self _) (.rotated (List.forall_mem_cons.mp known).2
            (.exit (.last isWait notGiven) waits) owned idle)
        · have called : store'.routine sight' (.ident name) = some (body, home) := by
            simp [Store.routine, (found _ seen').trans bound']
          exact .first (Thread.step_wait isWait notGiven isCounter called)
            (follows store' agree (idle.enter sight'))
      | call hi hj hk =>
        exact .first (Thread.step_wait isWait notGiven isCounter rfl)
          (ih rfl (.last rfl (made _ hk)) known entered same (store'.owned_enter _)
            (idle.enter sight')).follows
      | nothing hi hj =>
        exact .first (Thread.step_wait isWait notGiven isCounter rfl)
          (ih rfl .nothing known entered same (store'.owned_enter _)
            (idle.enter sight').cons).follows
  | free | within | caught => cases isGo

/-- The declarations of a loop's routines come before the call that starts the loop. -/
theorem answers_opening {l : Turning} {i₁ j₁ k₁ i₂ j₂ k₂ z : NodeId}
    (new : fresh i₁ ∧ fresh i₂ ∧ fresh z) (home : l.home = sight) (around : l.visible = visible)
    (distinct : l.names.restart ≠ l.names.next ∧ l.names.restart ∉ visible ∧
      l.names.next ∉ visible)
    (goesOn : ∀ store', store.Agree visible store' → l.Bound store' →
      Leads t max fresh r store' l.inside sight (.go (some l.restart)) todo)
    (made : ∀ i, fresh i → r.given i = false) (known : ∀ k ∈ todo, k.Known r)
    (owned : store.Owned sight) (idle : Idle rest callers) :
    Answers t max fresh r oracle ⟨[⟨todo, sight₀⟩], store₀, events⟩
      ⟨⟨.statements (l.openings i₁ j₁ k₁ i₂ j₂ k₂ z) :: rest, sight⟩ :: callers, store,
        events⟩ := by
  subst home around
  let once := store.bind l.home l.names.restart (.routine l.parts.restart l.home)
  let twice := once.bind l.home l.names.next (.routine l.parts.next l.home)
  have ownedOnce := Store.owned_bind owned l.names.restart (.routine l.parts.restart l.home)
  have bound : l.Bound twice :=
    ⟨(Store.find_bind_of_ne _ _ _ _ distinct.1).trans (Store.find_bind owned _ _),
      Store.find_bind ownedOnce _ _⟩
  have agree : store.Agree l.visible twice :=
    (store.agree_bind _ _ distinct.2.1).trans (once.agree_bind _ _ distinct.2.2)
  have isExit : Exit r (some l.restart) [.statements [.callWith z l.restart]] :=
    .last rfl (made z new.2.2)
  refine .first (Thread.step_routine (made i₁ new.1)) (Answers.follows ?_)
  refine .first (Thread.step_routine (made i₂ new.2.1)) (Answers.follows ?_)
  exact answers_exit (goesOn twice agree bound) rfl isExit made known (.refl _ _) (fun _ _ => rfl)
    (Store.owned_bind ownedOnce _ _) idle

/-! ## Wherever they are -/

variable (oracle) in
/-- **Whatever a function does next, what was made of it does too.** -/
theorem Matches.answers {σ τ : Thread} (h : Matches t max fresh r σ τ) (running : σ.frames ≠ [])
    (made : ∀ i, fresh i → r.given i = false) : Answers t max fresh r oracle σ τ := by
  cases h with
  | @running kept₀ kept todo front rest callers visible sight₀ sight store₀ store events known
      closed same stands owned idle =>
    cases kept₀ with
    | cons k₀ kept₀ => exact answers_kept known closed same stands owned idle
    | nil =>
      obtain rfl := List.map_eq_nil_iff.mp same.symm
      cases stands with
      | run woven apart same jumps goesOn =>
        exact answers_run woven apart same jumps goesOn made known owned idle
      | switch inArms inRest apart sameArms sameRest jumps goesOn =>
        exact answers_switch inArms inRest apart sameArms sameRest jumps goesOn made known owned
          idle
      | exit isExit goesOn =>
        exact answers_exit goesOn rfl isExit made known (.refl _ _) (fun _ _ => rfl) owned idle
      | keep closed same goesOn => exact answers_keep known closed same goesOn owned idle
      | test tests same inYes inNo => exact answers_test tests same inYes inNo known owned idle
      | opening new home around distinct goesOn =>
        exact answers_opening new home around distinct goesOn made known owned idle
  | ended => exact absurd rfl running

end

end WaitDefer
