import WaitDefer.Proofs.Behaviour.Leads

/-!
# A rotated function runs in step with its source

* `Matches`: a thread of the source and one of the rotated function are at the same place;
* `Answers`: whatever the first does next, the second does it too;
* `answers_kept`, `answers_keep`: this is so where the code was left as it is.
-/

namespace WaitDefer

/-! ## Steps -/

section
variable {r : Reading} {oracle : Oracle}

theorem Thread.step_of_move {todo : List Task} {m : Move} (h : Task.move r todo = some m)
    (sight : Sight) (callers : List Frame) (store : Store) (events : List Event) :
    Thread.step r oracle ⟨⟨todo, sight⟩ :: callers, store, events⟩ =
      Thread.perform oracle ⟨callers, store, events⟩ sight m := by
  simp [Thread.step, h]

/-- Made-up statements do what they were made for. -/
theorem Statement.move_of_made {s : Statement} {m : Move} (made : r.given s.id = false)
    (h : s.kind.made r.config = some m) : s.move r = some m := by
  have made : ¬ r.given s.id = true := by simp [made]
  obtain ⟨id, kind, span⟩ := s
  cases kind with
  | declare | assign | expr | func => exact (if_neg made).trans h
  | _ => cases h

theorem Task.move_made {s : Statement} {m : Move} (made : r.given s.id = false)
    (h : s.kind.made r.config = some m) (ss : List Statement) (todo : List Task) :
    Task.move r (.statements (s :: ss) :: todo) = some (m.map (· ++ .statements ss :: todo)) := by
  have notJump : s.kind.isJump = false := by
    cases hk : s.kind <;> first | rfl | (rw [hk] at h; cases h)
  rw [Task.move_statement notJump, Statement.move_of_made made h]
  rfl

theorem Thread.step_made {s : Statement} {m : Move} (made : r.given s.id = false)
    (h : s.kind.made r.config = some m) (ss : List Statement) (todo : List Task) (sight : Sight)
    (callers : List Frame) (store : Store) (events : List Event) :
    Thread.step r oracle ⟨⟨.statements (s :: ss) :: todo, sight⟩ :: callers, store, events⟩ =
      Thread.perform oracle ⟨callers, store, events⟩ sight
        (m.map (· ++ .statements ss :: todo)) :=
  step_of_move (Task.move_made made h ss todo) sight callers store events

namespace StatementKind

theorem made_routine (config : Config) (i j k : NodeId) (name : String) (body : List Statement)
    (span : Span) : (Statement.routineWith i j k name body span).kind.made config =
      some (.declare name body []) := rfl

theorem made_call (config : Config) (name : Ident) (span : Span) :
    (expr (.call (.ident name) [] span)).made config = some (.call (.ident name) []) := rfl

theorem made_counter (config : Config) (counter : String) (span : Span) :
    (declare ⟨counter, span⟩ (some (.callNamed config.runtime.newCounter span))).made config =
      some (.create counter []) :=
  if_pos rfl

theorem made_wait (config : Config) (counter : String) (callee : Expr) (span : Span) :
    (expr (.call (.memberNamed counter config.runtime.wait span) [callee] span)).made config =
      some (.wait counter callee []) :=
  if_pos rfl

end StatementKind

namespace Thread

variable {i : NodeId} {ss : List Statement} {todo : List Task} {callers : List Frame}
  {sight : Sight} {store : Store} {events : List Event}

/-- The declaration of a routine binds its name. -/
theorem step_routine (made : r.given i = false) {j k : NodeId} {name : String}
    {body : List Statement} {span : Span} :
    step r oracle ⟨⟨.statements (.routineWith i j k name body span :: ss) :: todo, sight⟩ ::
        callers, store, events⟩ =
      some ⟨⟨.statements ss :: todo, sight⟩ :: callers,
        store.bind sight name (.routine body sight), events⟩ :=
  step_made made (StatementKind.made_routine r.config i j k name body span) ..

/-- The declaration of a counter makes one and binds its name. -/
theorem step_counter (made : r.given i = false) {counter : String} {span place : Span} :
    step r oracle ⟨⟨.statements (⟨i, .declare ⟨counter, span⟩
        (some (.callNamed r.config.runtime.newCounter span)), place⟩ :: ss) :: todo, sight⟩ ::
          callers, store, events⟩ =
      some ⟨⟨.statements ss :: todo, sight⟩ :: callers, store.bind sight counter .counter,
        events⟩ := by
  rw [step_made made (StatementKind.made_counter r.config counter span)]
  rfl

end Thread

/-- Nothing is left to be done by some activations. -/
structure Idle (rest : List Task) (callers : List Frame) : Prop where
  here : ∀ k ∈ rest, k = .statements []
  callers : ∀ f ∈ callers, ∀ k ∈ f.todo, k = .statements []

theorem Idle.cons {rest : List Task} {callers : List Frame} (h : Idle rest callers) :
    Idle (.statements [] :: rest) callers :=
  ⟨List.forall_mem_cons.mpr ⟨rfl, h.here⟩, h.callers⟩

/-- Where something is called last, nothing is left to be done by the caller. -/
theorem Idle.enter {rest : List Task} {callers : List Frame} (h : Idle rest callers)
    (sight : Sight) : Idle [] (⟨.statements [] :: rest, sight⟩ :: callers) :=
  ⟨by simp, List.forall_mem_cons.mpr ⟨h.cons.here, h.callers⟩⟩

/-- A thread in which nothing is left to be done ends. -/
theorem Idle.ends {rest : List Task} {callers : List Frame} (h : Idle rest callers)
    (sight : Sight) (store : Store) (events : List Event) :
    Thread.Reaches r oracle ⟨⟨rest, sight⟩ :: callers, store, events⟩ ⟨[], store, events⟩ := by
  induction callers generalizing rest sight with
  | nil =>
    induction rest with
    | nil => exact .single rfl
    | cons k rest ih =>
      obtain ⟨rfl, here⟩ := List.forall_mem_cons.mp h.here
      exact .head rfl (ih ⟨here, h.callers⟩)
  | cons f callers ihCallers =>
    obtain ⟨first, others⟩ := List.forall_mem_cons.mp h.callers
    induction rest with
    | nil => exact .head rfl (ihCallers ⟨first, others⟩ f.sight)
    | cons k rest ih =>
      obtain ⟨rfl, here⟩ := List.forall_mem_cons.mp h.here
      exact .head rfl (ih ⟨here, h.callers⟩)

theorem Idle.callers_end {rest : List Task} {callers : List Frame} (h : Idle rest callers)
    (store : Store) (events : List Event) :
    Thread.Reaches r oracle ⟨callers, store, events⟩ ⟨[], store, events⟩ := by
  cases callers with
  | nil => exact .refl
  | cons f callers =>
    obtain ⟨first, others⟩ := List.forall_mem_cons.mp h.callers
    exact Idle.ends ⟨first, others⟩ f.sight store events

end

/-! ## Threads at the same place -/

section
variable (t : MarkTable) (max : NodeId) (fresh : NodeId → Prop) (r : Reading) (oracle : Oracle)

/-- The first thread runs a function, the second what rotation made of it, and they are at the same
place: first in code that was left as it is, then in rotated code. -/
inductive Matches : Thread → Thread → Prop
  | running {kept₀ kept todo front rest : List Task} {callers : List Frame}
      {visible : List String} {sight₀ sight : Sight} {store₀ store : Store} {events : List Event}
      (known : ∀ k ∈ kept₀ ++ todo, k.Known r) (closed : Task.AllClosed [] kept)
      (same : kept₀.map (Task.plain r.config) = kept.map (Task.plain r.config))
      (stands : Stands t max fresh r store visible sight front todo) (owned : store.Owned sight)
      (idle : Idle rest callers) :
      Matches ⟨[⟨kept₀ ++ todo, sight₀⟩], store₀, events⟩
        ⟨⟨kept ++ (front ++ rest), sight⟩ :: callers, store, events⟩
  | ended {store₀ store : Store} {events : List Event} :
      Matches ⟨[], store₀, events⟩ ⟨[], store, events⟩

/-- How much there is still to do, without regard to how long it takes. -/
def Thread.size (t : Thread) : Nat := (t.frames.map fun f => f.todo.length).sum

/-- The first thread has a step, and the second gets to the same place. -/
def Follows (σ τ : Thread) : Prop :=
  ∃ σ' τ', σ.step r oracle = some σ' ∧ τ.Reaches r oracle τ' ∧ Matches t max fresh r σ' τ'

/-- The first thread has a step, and the second gets to the same place. If it is there already,
this does not happen again and again. -/
def Answers (σ τ : Thread) : Prop :=
  ∃ σ', σ.step r oracle = some σ' ∧
    ((∃ τ₁ τ', τ.step r oracle = some τ₁ ∧ τ₁.Reaches r oracle τ' ∧ Matches t max fresh r σ' τ') ∨
      Matches t max fresh r σ' τ ∧ σ'.size < σ.size)

end

section
variable {t : MarkTable} {max : NodeId} {fresh : NodeId → Prop} {r : Reading} {oracle : Oracle}

namespace Answers

theorem step {σ σ' τ τ₁ τ' : Thread} (source : σ.step r oracle = some σ')
    (target : τ.step r oracle = some τ₁) (more : τ₁.Reaches r oracle τ')
    (there : Matches t max fresh r σ' τ') : Answers t max fresh r oracle σ τ :=
  ⟨σ', source, .inl ⟨τ₁, τ', target, more, there⟩⟩

theorem stay {σ σ' τ : Thread} (source : σ.step r oracle = some σ')
    (there : Matches t max fresh r σ' τ) (less : σ'.size < σ.size) :
    Answers t max fresh r oracle σ τ :=
  ⟨σ', source, .inr ⟨there, less⟩⟩

/-- The second thread goes ahead. -/
theorem first {σ τ τ₁ : Thread} (target : τ.step r oracle = some τ₁)
    (follows : Follows t max fresh r oracle σ τ₁) : Answers t max fresh r oracle σ τ := by
  obtain ⟨σ', τ', source, more, there⟩ := follows
  exact .step source target more there

theorem follows {σ τ : Thread} (answers : Answers t max fresh r oracle σ τ) :
    Follows t max fresh r oracle σ τ := by
  obtain ⟨σ', source, ⟨τ₁, τ', next, more, there⟩ | ⟨there, -⟩⟩ := answers
  · exact ⟨σ', τ', source, .head next more, there⟩
  · exact ⟨σ', τ, source, .refl, there⟩

end Answers

/-- Threads that run rotated code match where the piece of code stands for what is to be done. -/
theorem Matches.rotated {todo front rest : List Task} {callers : List Frame}
    {visible : List String} {sight₀ sight : Sight} {store₀ store : Store} {events : List Event}
    (known : ∀ k ∈ todo, k.Known r)
    (stands : Stands t max fresh r store visible sight front todo) (owned : store.Owned sight)
    (idle : Idle rest callers) :
    Matches t max fresh r ⟨[⟨todo, sight₀⟩], store₀, events⟩
      ⟨⟨front ++ rest, sight⟩ :: callers, store, events⟩ := by
  show Matches t max fresh r ⟨[⟨[] ++ todo, sight₀⟩], store₀, events⟩
    ⟨⟨[] ++ (front ++ rest), sight⟩ :: callers, store, events⟩
  exact .running known trivial rfl stands owned idle

/-! ## Code that is left as it is -/

variable (oracle) in
/-- Two moves with one plain form lead to the same place. -/
theorem Matches.lockstep {m₀ m : Move} {todo front rest : List Task} {callers : List Frame}
    {visible : List String} {sight₀ sight : Sight} {store₀ store : Store} {events : List Event}
    (own : m₀.isOwn = true) (same : m₀.plain r.config = m.plain r.config)
    (known : (m₀.map (· ++ todo)).Every fun todo => ∀ k ∈ todo, k.Known r)
    (closed : m.Every (Task.AllClosed []))
    (stands : Stands t max fresh r store visible sight front todo) (owned : store.Owned sight)
    (idle : Idle rest callers) :
    ∃ σ' τ₁ τ', Thread.perform oracle ⟨[], store₀, events⟩ sight₀ (m₀.map (· ++ todo)) = some σ' ∧
      Thread.perform oracle ⟨callers, store, events⟩ sight (m.map (· ++ (front ++ rest))) =
        some τ₁ ∧ τ₁.Reaches r oracle τ' ∧ Matches t max fresh r σ' τ' := by
  cases m₀ with
  | go left₀ =>
    cases m with
    | go left =>
      have left : left₀.map (Task.plain r.config) = left.map (Task.plain r.config) := by
        simpa [Move.plain, Move.map] using same
      exact ⟨_, _, _, rfl, rfl, .refl, .running known closed left stands owned idle⟩
    | _ => cases same
  | event e₀ left₀ =>
    cases m with
    | event e left =>
      obtain ⟨rfl, left⟩ : e₀ = e ∧
          left₀.map (Task.plain r.config) = left.map (Task.plain r.config) := by
        simpa [Move.plain, Move.map] using same
      exact ⟨_, _, _, rfl, rfl, .refl, .running known closed left stands owned idle⟩
    | _ => cases same
  | choose e₀ yes₀ no₀ =>
    cases m with
    | choose e yes no =>
      obtain ⟨rfl, sameYes, sameNo⟩ : e₀ = e ∧
          yes₀.map (Task.plain r.config) = yes.map (Task.plain r.config) ∧
            no₀.map (Task.plain r.config) = no.map (Task.plain r.config) := by
        simpa [Move.plain, Move.map] using same
      refine ⟨_, _, _, rfl, rfl, .refl, ?_⟩
      by_cases answer : oracle (.ask e₀ :: events) = true
      · simpa [Thread.resume, Thread.see, answer] using
          .running known.1 closed.1 sameYes stands owned idle
      · simpa [Thread.resume, Thread.see, answer] using
          .running known.2 closed.2 sameNo stands owned idle
    | _ => cases same
  | leave e₀ =>
    cases m with
    | leave e =>
      obtain rfl : e₀ = e := by simpa [Move.plain, Move.map] using same
      cases e₀ with
      | none => exact ⟨_, _, _, rfl, rfl, idle.callers_end _ _, .ended⟩
      | some e => exact ⟨_, _, _, rfl, rfl, idle.callers_end _ _, .ended⟩
    | _ => cases same
  | _ => cases own

/-- Code that was left as it is runs in step. -/
theorem answers_kept {k₀ : Task} {kept₀ kept todo front rest : List Task}
    {callers : List Frame} {visible : List String} {sight₀ sight : Sight} {store₀ store : Store}
    {events : List Event} (known : ∀ k ∈ k₀ :: kept₀ ++ todo, k.Known r)
    (closed : Task.AllClosed [] kept)
    (same : (k₀ :: kept₀).map (Task.plain r.config) = kept.map (Task.plain r.config))
    (stands : Stands t max fresh r store visible sight front todo) (owned : store.Owned sight)
    (idle : Idle rest callers) :
    Answers t max fresh r oracle ⟨[⟨k₀ :: kept₀ ++ todo, sight₀⟩], store₀, events⟩
      ⟨⟨kept ++ (front ++ rest), sight⟩ :: callers, store, events⟩ := by
  have known₀ : ∀ k ∈ k₀ :: kept₀, k.Known r := fun k hk => known k (List.mem_append_left _ hk)
  have plain₀ := Task.move_plain known₀
  have plain := Task.move_plain (Task.known_of_plain_eq known₀ same)
  cases kept with
  | nil => cases same
  | cons k kept =>
    obtain ⟨m, moved, closed⟩ := Task.move_of_closed (Task.known_of_plain_eq known₀ same) closed
    rw [same, plain, moved] at plain₀
    obtain ⟨m₀, moved₀, eq⟩ := Option.map_eq_some_iff.mp plain₀.symm
    have moved₀ := Task.move_append moved₀ todo
    obtain ⟨own, known⟩ := Task.move_of_known known moved₀
    obtain ⟨σ', τ₁, τ', source, target, more, there⟩ :=
      Matches.lockstep oracle (by simpa using own) eq known closed stands owned idle
    exact .step ((Thread.step_of_move moved₀ _ _ _ _).trans source)
      ((Thread.step_of_move (Task.move_append moved _) _ _ _ _).trans target) more there

section
variable {todo rest : List Task} {callers : List Frame} {visible : List String}
  {sight₀ sight : Sight} {store₀ store : Store} {events : List Event}

/-- A statement that was left as it is runs in step. -/
theorem answers_keep {s₀ s : Statement} {ss₀ ss : List Statement}
    (known : ∀ k ∈ .statements (s₀ :: ss₀) :: todo, k.Known r)
    (closed : (Node.statement s).Closed []) (same : s₀.plain r.config = s.plain r.config)
    (stands : Stands t max fresh r store visible sight [.statements ss] (.statements ss₀ :: todo))
    (owned : store.Owned sight) (idle : Idle rest callers) :
    Answers t max fresh r oracle ⟨[⟨.statements (s₀ :: ss₀) :: todo, sight₀⟩], store₀, events⟩
      ⟨⟨.statements (s :: ss) :: rest, sight⟩ :: callers, store, events⟩ := by
  have known₀ : (Node.statement s₀).Known r := known _ List.mem_cons_self _ List.mem_cons_self
  have known' : (Node.statement s).Known r :=
    known₀.of_plain_eq (congrArg Node.statement same.symm)
  have plain₀ := Statement.move_plain known₀
  have notJump : s.kind.isJump = false := by
    cases isJump : s.kind.isJump with
    | false => rfl
    | true =>
      obtain ⟨kind, label, isJump⟩ := StatementKind.exists_of_isJump isJump
      obtain ⟨own, mem, -⟩ := closed.caught isJump
      cases mem
  have notJump₀ : s₀.kind.isJump = false := by
    rw [← StatementKind.isJump_plain r.config, ← Statement.plain_kind, same]
    simpa using notJump
  obtain ⟨m, moved, -⟩ := Statement.move_of_known known' notJump
  rw [same, Statement.move_plain known', moved] at plain₀
  obtain ⟨m₀, moved₀, eq⟩ := Option.map_eq_some_iff.mp plain₀.symm
  have moved₀ := Task.move_of_statement notJump₀ moved₀ ss₀ todo
  obtain ⟨own, known⟩ := Task.move_of_known known moved₀
  obtain ⟨σ', τ₁, τ', source, target, more, there⟩ :=
    Matches.lockstep oracle (by simpa using own) eq known
      (Statement.move_of_closed known' closed moved) stands owned idle
  exact .step ((Thread.step_of_move moved₀ _ _ _ _).trans source)
    ((Thread.step_of_move (Task.move_of_statement notJump moved ss rest) _ _ _ _).trans target)
    more there

end

end

end WaitDefer
