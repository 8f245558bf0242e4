import WaitDefer.Proofs.Behaviour.Kept
import WaitDefer.Proofs.Rotation.Woven

/-!
# Where rotated code leads

In a rotated function the rest of what is to be done is the body of some routine, found by its name.

* `Store.find_enter`, `Store.find_bind`: what a name stands for when others are bound;
* `Leads`: calling what follows a piece of rotated code does what is still to be done in the source,
  and so does a jump;
* `Stands`: a piece of rotated code does what is still to be done in the source.
-/

namespace WaitDefer

/-! ## Names -/

namespace Store

/-- Two stores hold the same for some names. -/
def Agree (visible : List String) (store store' : Store) : Prop :=
  ∀ sight, ∀ name ∈ visible, store'.find sight name = store.find sight name

/-- The code has an activation of its own. -/
def Owned (store : Store) (sight : Sight) : Prop := ∃ a ∈ sight.head?, a < store.length

theorem find_cons (store : Store) (a : Nat) (sight : Sight) (name : String) :
    store.find (a :: sight) name = ((store.getD a []).lookup name).or (store.find sight name) := by
  rw [find, List.findSome?_cons]
  cases (store.getD a []).lookup name <;> rfl

/-- A new activation holds no names. -/
theorem find_new (store : Store) (sight : Sight) (name : String) :
    (store ++ [[]]).find sight name = store.find sight name := by
  have same : ∀ a, (store ++ [[]]).getD a [] = store.getD a [] := by
    intro a
    rw [List.getD_eq_getElem?_getD, List.getD_eq_getElem?_getD]
    rcases Nat.lt_trichotomy a store.length with less | rfl | more
    · rw [List.getElem?_append_left less]
    · simp
    · rw [List.getElem?_eq_none (by simp; omega), List.getElem?_eq_none more.le]
  simp only [find, same]

theorem find_enter (store : Store) (home : Sight) (name : String) :
    (store ++ [[]]).find (store.length :: home) name = store.find home name := by
  rw [find_cons, find_new]
  simp

theorem owned_enter (store : Store) (home : Sight) :
    (store ++ [[]]).Owned (store.length :: home) := ⟨_, rfl, by simp⟩

theorem find_bind_of_ne (store : Store) (place sight : Sight) {name other : String} (value : Value)
    (ne : other ≠ name) :
    (store.bind place name value).find sight other = store.find sight other := by
  cases place with
  | nil => rfl
  | cons b place =>
    have same : ∀ a, ((store.modify b ((name, value) :: ·)).getD a []).lookup other =
        (store.getD a []).lookup other := by
      intro a
      rw [List.getD_eq_getElem?_getD, List.getD_eq_getElem?_getD, List.getElem?_modify]
      have skip (l : List (String × Value)) :
          ((name, value) :: l).lookup other = l.lookup other := by
        rw [List.lookup_cons, beq_false_of_ne ne]
      cases store[a]? with
      | none => simp
      | some l =>
        by_cases here : b = a
        · simpa [here] using skip l
        · simp [here]
    simp only [bind, find, same]

theorem find_bind {store : Store} {sight : Sight} (owned : store.Owned sight) (name : String)
    (value : Value) : (store.bind sight name value).find sight name = some value := by
  obtain ⟨a, head, less⟩ := owned
  obtain ⟨rest, rfl⟩ := List.head?_eq_some_iff.mp head
  rw [find_cons, bind, List.getD_eq_getElem?_getD, List.getElem?_modify]
  simp [List.getElem?_eq_getElem less]

theorem owned_bind {store : Store} {sight : Sight} (owned : store.Owned sight) (name : String)
    (value : Value) : (store.bind sight name value).Owned sight := by
  obtain ⟨a, head, less⟩ := owned
  obtain ⟨rest, rfl⟩ := List.head?_eq_some_iff.mp head
  exact ⟨a, rfl, by simpa [bind] using less⟩

theorem agree_new (visible : List String) (store : Store) : Agree visible store (store ++ [[]]) :=
  fun sight name _ => store.find_new sight name

theorem agree_bind {visible : List String} (store : Store) (place : Sight) {name : String}
    (value : Value) (new : name ∉ visible) : Agree visible store (store.bind place name value) :=
  fun sight _ seen => store.find_bind_of_ne place sight value fun same => new (same ▸ seen)

namespace Agree

variable {visible less : List String} {store store' store'' : Store}

theorem refl (visible : List String) (store : Store) : Agree visible store store :=
  fun _ _ _ => rfl

theorem trans (h : Agree visible store store') (h' : Agree visible store' store'') :
    Agree visible store store'' :=
  fun sight name seen => (h' sight name seen).trans (h sight name seen)

theorem mono (h : Agree visible store store') (sub : less ⊆ visible) : Agree less store store' :=
  fun sight name seen => h sight name (sub seen)

end Agree

end Store

/-! ## Rotated loops -/

section
variable (t : MarkTable) (max : NodeId) (fresh : NodeId → Prop) (r : Reading)

/-- The names that a piece of code introduces are distinct, and no others that it sees. -/
structure Apart (visible : List String) (entries : List Entry) : Prop where
  distinct : (entries.map Entry.name).Nodup
  new : ∀ e ∈ entries, e.name ∉ visible

/-- A rotated loop, with all that was made of it. -/
structure Turning where
  label : Option Ident
  head : LoopHead
  body : Block
  after : Option Expr
  span : Span
  names : LoopNames
  parts : Wiring.LoopParts
  out : List Statement
  /-- What the code around the loop sees. -/
  visible : List String
  home : Sight
  entries : List Entry

namespace Turning

/-- The names that the routines of the loop see. -/
def inside (l : Turning) : List String := l.names.restart :: l.names.next :: l.visible

/-- Where jumps in the loop lead. -/
def context (l : Turning) : LoopContext :=
  ⟨l.after, .callNamed l.names.next l.span, l.label.map Ident.name⟩

def restart (l : Turning) : Expr := .callNamed l.names.restart l.span

/-- The declarations of the routines, and the call that starts the loop. -/
def openings (l : Turning) (i₁ j₁ k₁ i₂ j₂ k₂ z : NodeId) : List Statement :=
  [.routineWith i₁ j₁ k₁ l.names.restart l.parts.restart l.span,
    .routineWith i₂ j₂ k₂ l.names.next l.parts.next l.span, .callWith z l.restart]

/-- The routines are made of this loop. -/
structure Makes (l : Turning) (loop : Rounds) : Prop where
  same : loop.plain r.config = Rounds.plain r.config ⟨l.label, l.head, l.body⟩
  headers : ∀ h ∈ l.head.statements, h.kind.isSimple = true
  inner : Woven r.config t max fresh l.inside (some l.context)
    (.run l.body.statements (some (.callNamed l.names.next l.span)) l.out) l.entries
  apart : Apart l.inside l.entries
  parted : ∃ x, fresh x ∧ l.head.Parted fresh { l.body with statements := l.out } l.restart
    (.exitWith x l.after l.span) l.span l.parts

/-- The names stand for the routines. -/
structure Bound (l : Turning) (store : Store) : Prop where
  restart : store.find l.home l.names.restart = some (.routine l.parts.restart l.home)
  next : store.find l.home l.names.next = some (.routine l.parts.next l.home)

theorem Bound.agree {l : Turning} {store store' : Store} (h : l.Bound store)
    (agree : Store.Agree l.inside store store') : l.Bound store' :=
  ⟨(agree _ _ (by simp [inside])).trans h.restart, (agree _ _ (by simp [inside])).trans h.next⟩

end Turning

/-! ## What is still to be done -/

/-- What a piece of rotated code is to lead to: where it ends, or by a jump in it. -/
inductive Aim
  | go (tail : Option Expr)
  | jump (around : Option LoopContext)

/-- Rotated code leads to what is to be done in the source. All that matters of the store are the
visible names. -/
inductive Leads (store : Store) : List String → Sight → Aim → List Task → Prop
  | done {visible : List String} {sight : Sight} : Leads store visible sight (.go none) []
  | pass {visible : List String} {sight : Sight} {tail : Option Expr} {todo : List Task}
      (rest : Leads store visible sight (.go tail) todo) :
      Leads store visible sight (.go tail) (.statements [] :: todo)
  | routine {visible inner : List String} {sight home : Sight} {name : String} {span : Span}
      {around : Option LoopContext} {ss₀ ss out : List Statement} {tail : Option Expr}
      {entries : List Entry} {todo : List Task} (seen : name ∈ visible)
      (bound : store.find sight name = some (.routine out home)) (sub : inner ⊆ visible)
      (woven : Woven r.config t max fresh inner around (.run ss tail out) entries)
      (apart : Apart inner entries)
      (same : ss₀.map (Statement.plain r.config) = ss.map (Statement.plain r.config))
      (jumps : Leads store inner home (.jump around) todo)
      (rest : Leads store inner home (.go tail) todo) :
      Leads store visible sight (.go (some (.callNamed name span))) (.statements ss₀ :: todo)
  | next {visible : List String} {sight : Sight} {l : Turning} {loop : Rounds} {span : Span}
      {todo : List Task} (sub : l.inside ⊆ visible) (makes : l.Makes t max fresh r loop)
      (bound : store.find sight l.names.next = some (.routine l.parts.next l.home))
      (routines : l.Bound store) (rest : Leads store l.inside l.home (.go l.after) todo) :
      Leads store visible sight (.go (some (.callNamed l.names.next span))) (.around loop :: todo)
  | again {visible : List String} {sight : Sight} {l : Turning} {loop : Rounds} {span : Span}
      {todo : List Task} (sub : l.inside ⊆ visible) (makes : l.Makes t max fresh r loop)
      (testFirst : ∀ condition, l.head ≠ .doWhile condition)
      (bound : store.find sight l.names.restart = some (.routine l.parts.restart l.home))
      (routines : l.Bound store) (rest : Leads store l.inside l.home (.go l.after) todo) :
      Leads store visible sight (.go (some (.callNamed l.names.restart span))) (.test loop :: todo)
  | wait {visible : List String} {sight : Sight} {counter : String} {value : Expr} {span : Span}
      {after : Option Expr} {todo : List Task} (seen : counter ∈ visible)
      (bound : store.find sight counter = some .counter)
      (resumes : value.Resumes fresh span after)
      (rest : Leads store visible sight (.go after) todo) :
      Leads store visible sight
        (.go (some (.call (.memberNamed counter r.config.runtime.wait span) [value] span))) todo
  | free {visible : List String} {sight : Sight} {todo : List Task} :
      Leads store visible sight (.jump none) todo
  | within {visible : List String} {sight : Sight} {around : Option LoopContext}
      {ss : List Statement} {todo : List Task}
      (rest : Leads store visible sight (.jump around) todo) :
      Leads store visible sight (.jump around) (.statements ss :: todo)
  | caught {visible : List String} {sight : Sight} {context : LoopContext} {loop : Rounds}
      {todo : List Task} (label : context.label = loop.label.map Ident.name)
      (exit : Leads store visible sight (.go context.exit) todo)
      (next : Leads store visible sight (.go (some context.next)) (.around loop :: todo)) :
      Leads store visible sight (.jump (some context)) (.around loop :: todo)

end

section
variable {t : MarkTable} {max : NodeId} {fresh : NodeId → Prop} {r : Reading}

/-- Where code leads stays as it is if other names are bound, or if it is run from elsewhere. -/
theorem Leads.transport {store store' : Store} {visible visible' : List String}
    {sight sight' : Sight} {aim : Aim} {todo : List Task}
    (h : Leads t max fresh r store visible sight aim todo) (agree : store.Agree visible store')
    (found : ∀ name ∈ visible, store'.find sight' name = store.find sight name)
    (more : visible ⊆ visible') : Leads t max fresh r store' visible' sight' aim todo := by
  induction h generalizing sight' visible' with
  | done => exact .done
  | pass _ ih => exact .pass (ih agree found more)
  | routine seen bound sub woven apart same _ _ ihJumps ihRest =>
    have inner := agree.mono sub
    exact .routine (more seen) ((found _ seen).trans bound) (List.Subset.trans sub more) woven apart
      same (ihJumps inner (inner _) (List.Subset.refl _))
      (ihRest inner (inner _) (List.Subset.refl _))
  | @next _ _ l _ _ _ sub makes bound routines _ ih =>
    have inner := agree.mono sub
    have seen : l.names.next ∈ l.inside := by simp [Turning.inside]
    exact .next (List.Subset.trans sub more) makes ((found _ (sub seen)).trans bound)
      (routines.agree inner) (ih inner (inner _) (List.Subset.refl _))
  | @again _ _ l _ _ _ sub makes testFirst bound routines _ ih =>
    have inner := agree.mono sub
    have seen : l.names.restart ∈ l.inside := by simp [Turning.inside]
    exact .again (List.Subset.trans sub more) makes testFirst ((found _ (sub seen)).trans bound)
      (routines.agree inner) (ih inner (inner _) (List.Subset.refl _))
  | wait seen bound resumes _ ih =>
    exact .wait (more seen) ((found _ seen).trans bound) resumes (ih agree found more)
  | free => exact .free
  | within _ ih => exact .within (ih agree found more)
  | caught label _ _ ihExit ihNext =>
    exact .caught label (ihExit agree found more) (ihNext agree found more)

/-- In a new activation, code leads where it leads at home. -/
theorem Leads.enter {store store' : Store} {visible : List String} {home : Sight} {aim : Aim}
    {todo : List Task} (h : Leads t max fresh r store visible home aim todo)
    (agree : store.Agree visible store') :
    Leads t max fresh r (store' ++ [[]]) visible (store'.length :: home) aim todo :=
  h.transport (agree.trans (store'.agree_new visible))
    (fun name seen => (store'.find_enter home name).trans (agree home name seen))
    (List.Subset.refl _)

/-- Binding a name that code does not see changes nothing for it. -/
theorem Leads.bind {store : Store} {visible visible' : List String} {sight : Sight} {aim : Aim}
    {todo : List Task} (h : Leads t max fresh r store visible sight aim todo) (place : Sight)
    {name : String} (value : Value) (new : name ∉ visible) (more : visible ⊆ visible') :
    Leads t max fresh r (store.bind place name value) visible' sight aim todo :=
  have agree := store.agree_bind place value new
  h.transport agree (agree sight) more

/-- A jump leaves to be done what the loop's context leads to. -/
theorem Leads.jump {store : Store} {visible : List String} {sight : Sight} {context : LoopContext}
    {todo : List Task} (h : Leads t max fresh r store visible sight (.jump (some context)) todo)
    (kind : JumpKind) {label : Option Ident} (caught : ∀ l ∈ label, context.label = some l.name) :
    ∃ left tail, Task.jump kind label todo = some left ∧
      context.lowered kind = .exiting tail ∧
      Leads t max fresh r store visible sight (.go tail) left := by
  generalize same : Aim.jump (some context) = aim at h
  induction h with
  | within _ ih => exact ih same
  | @caught _ _ context loop todo isLabel exit next =>
    cases same
    have here : loop.catches label = true := Rounds.catches_iff.mpr fun l hl =>
      isLabel ▸ caught l hl
    have jumped : Task.jump kind label (.around loop :: todo) = some (loop.after todo kind) := by
      rw [Task.jump, if_pos here]
    cases kind with
    | leave => exact ⟨_, context.exit, jumped, rfl, exit⟩
    | resume => exact ⟨_, some context.next, jumped, rfl, next⟩
  | _ => cases same

end

/-! ## Pieces of rotated code -/

section
variable (t : MarkTable) (max : NodeId) (fresh : NodeId → Prop) (r : Reading)

/-- The made-up statement that goes on with `tail`, or no statement if the thread ends. -/
inductive Exit (r : Reading) : Option Expr → List Task → Prop
  | last {tail : Option Expr} {s : Statement} (isExit : s.kind = .exiting tail)
      (made : r.given s.id = false) : Exit r tail [.statements [s]]
  | nothing : Exit r none []

/-- What a piece of rotated code still does is what is to be done in the source. -/
inductive Stands (store : Store) (visible : List String) (sight : Sight) :
    List Task → List Task → Prop
  | run {around : Option LoopContext} {ss₀ ss out : List Statement} {tail : Option Expr}
      {entries : List Entry} {todo : List Task}
      (woven : Woven r.config t max fresh visible around (.run ss tail out) entries)
      (apart : Apart visible entries)
      (same : ss₀.map (Statement.plain r.config) = ss.map (Statement.plain r.config))
      (jumps : Leads t max fresh r store visible sight (.jump around) todo)
      (rest : Leads t max fresh r store visible sight (.go tail) todo) :
      Stands store visible sight [.statements out] (.statements ss₀ :: todo)
  | switch {around : Option LoopContext} {arms₀ arms arms' : List Arm}
      {otherwise₀ otherwise otherwise' : Option Block} {after : Option Expr}
      {entries more : List Entry} {todo : List Task}
      (inArms : Woven r.config t max fresh visible around (.arms arms after arms') entries)
      (inRest : Woven r.config t max fresh visible around (.choice otherwise after otherwise') more)
      (apart : Apart visible (entries ++ more))
      (sameArms : arms₀.map (Arm.plain r.config) = arms.map (Arm.plain r.config))
      (sameRest : otherwise₀.map (Block.plain r.config) = otherwise.map (Block.plain r.config))
      (jumps : Leads t max fresh r store visible sight (.jump around) todo)
      (rest : Leads t max fresh r store visible sight (.go after) todo) :
      Stands store visible sight [.switch arms' otherwise'] (.switch arms₀ otherwise₀ :: todo)
  | exit {tail : Option Expr} {front todo : List Task} (isExit : Exit r tail front)
      (rest : Leads t max fresh r store visible sight (.go tail) todo) :
      Stands store visible sight front todo
  | keep {s₀ s : Statement} {ss₀ ss : List Statement} {todo : List Task}
      (closed : (Node.statement s).Closed [])
      (same : s₀.plain r.config = s.plain r.config)
      (rest : Stands store visible sight [.statements ss] (.statements ss₀ :: todo)) :
      Stands store visible sight [.statements (s :: ss)] (.statements (s₀ :: ss₀) :: todo)
  | test {i j : NodeId} {condition₀ condition : Expr} {loop : Rounds} {yes : Block}
      {exit : Statement} {span : Span} {todo : List Task}
      (tests : loop.head.test? = some condition₀)
      (same : condition₀.plain r.config = condition.plain r.config)
      (inYes : Stands store visible sight [.block yes] (loop.round ++ todo))
      (inNo : Stands store visible sight [.statements [exit]] todo) :
      Stands store visible sight [.statements [.branchWith i j condition yes exit span]]
        (.test loop :: todo)
  | opening {l : Turning} {i₁ j₁ k₁ i₂ j₂ k₂ z : NodeId} {todo : List Task}
      (new : fresh i₁ ∧ fresh i₂ ∧ fresh z) (home : l.home = sight) (around : l.visible = visible)
      (distinct : l.names.restart ≠ l.names.next ∧ l.names.restart ∉ visible ∧
        l.names.next ∉ visible)
      (rest : ∀ store', store.Agree visible store' → l.Bound store' →
        Leads t max fresh r store' l.inside sight (.go (some l.restart)) todo) :
      Stands store visible sight [.statements (l.openings i₁ j₁ k₁ i₂ j₂ k₂ z)] todo

end

section
variable {t : MarkTable} {max : NodeId} {fresh : NodeId → Prop} {r : Reading}

namespace Apart

theorem left {visible : List String} {entries more : List Entry}
    (h : Apart visible (entries ++ more)) : Apart visible entries :=
  ⟨by have := h.distinct; simp [List.nodup_append] at this; exact this.1,
    fun e he => h.new e (List.mem_append_left _ he)⟩

theorem right {visible : List String} {entries more : List Entry}
    (h : Apart visible (entries ++ more)) : Apart visible more :=
  ⟨by have := h.distinct; simp [List.nodup_append] at this; exact this.2.1,
    fun e he => h.new e (List.mem_append_right _ he)⟩

theorem tail {visible : List String} {e : Entry} {entries : List Entry}
    (h : Apart visible (e :: entries)) : Apart visible entries :=
  ⟨(List.nodup_cons.mp h.distinct).2, fun x hx => h.new x (List.mem_cons_of_mem _ hx)⟩

theorem mono {visible less : List String} {entries : List Entry} (h : Apart visible entries)
    (sub : less ⊆ visible) : Apart less entries :=
  ⟨h.distinct, fun e he seen => h.new e he (sub seen)⟩

/-- A name that is introduced may be seen by what comes next. -/
theorem seen {visible : List String} {e : Entry} {entries : List Entry}
    (h : Apart visible (e :: entries)) : Apart (e.name :: visible) entries := by
  refine ⟨h.tail.distinct, fun x hx => ?_⟩
  rw [List.mem_cons, not_or]
  refine ⟨fun same => (List.nodup_cons.mp h.distinct).1 ?_, h.tail.new x hx⟩
  rw [← same]
  exact List.mem_map_of_mem hx

end Apart

/-- A statement in the head of a loop comes first, if there is one. -/
theorem Stands.header {store : Store} {visible : List String} {sight : Sight}
    {x₀ x : Option Statement} {ss : List Statement} {todo : List Task}
    (same : x₀.map (Statement.plain r.config) = x.map (Statement.plain r.config))
    (simple : ∀ s ∈ x, s.kind.isSimple = true)
    (last : Stands t max fresh r store visible sight [.statements ss] (.statements [] :: todo))
    (rest : Stands t max fresh r store visible sight [.statements ss] todo) :
    Stands t max fresh r store visible sight [.statements (x.toList ++ ss)]
      (x₀.toList.map .single ++ todo) := by
  cases x with
  | none =>
    cases x₀ with
    | none => exact rest
    | some s₀ => cases same
  | some s =>
    cases x₀ with
    | none => cases same
    | some s₀ =>
      exact .keep (Node.closed_of_isSimple (simple s rfl) []) (Option.some.inj same) last

/-! ## Loops -/

namespace Turning

section
variable {l : Turning} {loop : Rounds} {store : Store} {sight : Sight} {todo : List Task}
  (makes : l.Makes t max fresh r loop) (routines : l.Bound store)
  (found : ∀ name ∈ l.inside, store.find sight name = store.find l.home name)
  (rest : Leads t max fresh r store l.inside l.home (.go l.after) todo)

include makes routines found rest

/-- Going on with a loop leads to the end of the round. -/
theorem leads_next (span : Span) : Leads t max fresh r store l.inside sight
    (.go (some (.callNamed l.names.next span))) (.around loop :: todo) :=
  .next (List.Subset.refl _) makes ((found _ (by simp [inside])).trans routines.next) routines rest

theorem leads_again (testFirst : ∀ condition, l.head ≠ .doWhile condition) :
    Leads t max fresh r store l.inside sight (.go (some l.restart)) (.test loop :: todo) :=
  .again (List.Subset.refl _) makes testFirst
    ((found _ (by simp [inside])).trans routines.restart) routines rest

theorem leads_jump :
    Leads t max fresh r store l.inside sight (.jump (some l.context)) (.around loop :: todo) := by
  have label : l.context.label = loop.label.map Ident.name := by
    have same := congrArg Rounds.label makes.same
    exact congrArg (Option.map Ident.name) same.symm
  exact .caught label (rest.transport (.refl _ _) found (List.Subset.refl _))
    (leads_next makes routines found rest l.span)

/-- What was made of a round does one. -/
theorem stands_round :
    Stands t max fresh r store l.inside sight [.statements l.out] (loop.round ++ todo) := by
  have same : loop.body.plain r.config = l.body.plain r.config := congrArg Rounds.body makes.same
  exact .run makes.inner makes.apart (Block.map_plain_eq same)
    (leads_jump makes routines found rest) (leads_next makes routines found rest l.span)

/-- A loop whose routine runs a round at once starts with a round. -/
theorem leads_round (atOnce : l.parts.restart = l.out) :
    Leads t max fresh r store l.inside sight (.go (some l.restart)) (loop.round ++ todo) := by
  have same : loop.body.plain r.config = l.body.plain r.config := congrArg Rounds.body makes.same
  have seen : l.names.restart ∈ l.inside := by simp [inside]
  have bound := (found _ seen).trans routines.restart
  rw [atOnce] at bound
  exact .routine seen bound (List.Subset.refl _) makes.inner makes.apart
    (Block.map_plain_eq same)
    (leads_jump makes routines (fun _ _ => rfl) rest)
    (leads_next makes routines (fun _ _ => rfl) rest l.span)

omit makes routines in
/-- The end of the loop goes on with what follows it. -/
theorem stands_exit (made : ∀ i, fresh i → r.given i = false) {x : NodeId} (new : fresh x)
    (span : Span) :
    Stands t max fresh r store l.inside sight [.statements [.exitWith x l.after span]] todo :=
  .exit (.last rfl (made x new)) (rest.transport (.refl _ _) found (List.Subset.refl _))

/-- The routine that goes on with a loop does what follows a round. -/
theorem stands_next (made : ∀ i, fresh i → r.given i = false) :
    Stands t max fresh r store l.inside sight [.statements l.parts.next] (loop.next ++ todo) := by
  have sameHead : loop.head.plain r.config = l.head.plain r.config :=
    congrArg Rounds.head makes.same
  have headers := makes.headers
  have again := leads_again makes routines found rest
  have round := leads_round makes routines found rest
  obtain ⟨x, new, parted⟩ := makes.parted
  have inNo := stands_exit found rest made new l.span
  have sameUpdate := congrArg LoopHead.update? sameHead
  have sameTest := congrArg LoopHead.test? sameHead
  simp only [LoopHead.update?_plain, LoopHead.test?_plain] at sameUpdate sameTest
  generalize l.parts = parts at parted round ⊢
  generalize l.head = head at parted headers again sameUpdate sameTest
  cases parted with
  | whileDo _ _ hk =>
    have noUpdate : loop.head.update? = none := by simpa [LoopHead.update?] using sameUpdate
    rw [Rounds.next, noUpdate]
    exact .exit (.last rfl (made _ hk)) (again (by simp))
  | doWhile _ _ hk =>
    have noUpdate : loop.head.update? = none := by simpa [LoopHead.update?] using sameUpdate
    obtain ⟨condition₀, tests, same⟩ :=
      Option.map_eq_some_iff.mp (sameTest.trans (Option.map_some ..))
    rw [Rounds.next, noUpdate]
    exact .test tests same (.exit (.last rfl (made _ hk)) (round rfl)) inNo
  | counting _ _ hk =>
    rw [Rounds.next, List.append_assoc]
    have again := again (by simp)
    exact .header sameUpdate (fun s hs => headers s (by simp_all [LoopHead.statements]))
      (.exit (.last rfl (made _ hk)) (.pass again)) (.exit (.last rfl (made _ hk)) again)
  | endless hk =>
    rw [Rounds.next, List.append_assoc]
    have again := again (by simp)
    exact .header sameUpdate (fun s hs => headers s (by simp_all [LoopHead.statements]))
      (.exit (.last rfl (made _ hk)) (.pass again)) (.exit (.last rfl (made _ hk)) again)

end

/-- The routine that runs a round starts with the test of the loop, if it has one. -/
theorem Makes.restart_cases {l : Turning} {loop : Rounds} (makes : l.Makes t max fresh r loop)
    (testFirst : ∀ condition, l.head ≠ .doWhile condition) :
    (∃ i j x condition₀ condition, fresh x ∧ loop.head.test? = some condition₀ ∧
      condition₀.plain r.config = condition.plain r.config ∧
      l.parts.restart = [.branchWith i j condition { l.body with statements := l.out }
        (.exitWith x l.after l.span) l.span]) ∨
    loop.head.test? = none ∧ l.parts.restart = l.out := by
  have same := congrArg (LoopHead.test? ∘ Rounds.head) makes.same
  simp only [Function.comp_apply, Rounds.plain, LoopHead.test?_plain] at same
  obtain ⟨x, new, parted⟩ := makes.parted
  generalize l.parts = parts at parted ⊢
  generalize l.head = head at parted testFirst same
  cases parted with
  | whileDo | counting =>
    obtain ⟨condition₀, tests, same⟩ := Option.map_eq_some_iff.mp (same.trans (Option.map_some ..))
    exact .inl ⟨_, _, x, condition₀, _, new, tests, same, rfl⟩
  | doWhile => exact absurd rfl (testFirst _)
  | endless => exact .inr ⟨by simpa [LoopHead.test?] using same, rfl⟩

/-! ### The start of a loop -/

theorem stands_start {l : Turning} {loop : Rounds} {store : Store} {todo : List Task}
    (makes : l.Makes t max fresh r loop)
    (rest : Leads t max fresh r store l.visible l.home (.go l.after) todo)
    (distinct : l.names.restart ≠ l.names.next ∧ l.names.restart ∉ l.visible ∧
      l.names.next ∉ l.visible) {i₁ i₂ z : NodeId} (new : fresh i₁ ∧ fresh i₂ ∧ fresh z)
    (j₁ k₁ j₂ k₂ : NodeId) :
    Stands t max fresh r store l.visible l.home
      [.statements (l.parts.before ++ l.openings i₁ j₁ k₁ i₂ j₂ k₂ z)] (loop.start ++ todo) := by
  have more : l.visible ⊆ l.inside := fun n hn => by simp [inside, hn]
  have opening {todo' : List Task} (h : ∀ store', store.Agree l.visible store' → l.Bound store' →
      Leads t max fresh r store' l.inside l.home (.go (some l.restart)) todo') :
      Stands t max fresh r store l.visible l.home
        [.statements (l.openings i₁ j₁ k₁ i₂ j₂ k₂ z)] todo' :=
    .opening new rfl rfl distinct h
  have again (testFirst : ∀ condition, l.head ≠ .doWhile condition) (store' : Store)
      (agree : store.Agree l.visible store') (routines : l.Bound store') :
      Leads t max fresh r store' l.inside l.home (.go (some l.restart)) (.test loop :: todo) :=
    leads_again makes routines (fun _ _ => rfl) (rest.transport agree (agree _) more) testFirst
  have round (atOnce : l.parts.restart = l.out) (store' : Store)
      (agree : store.Agree l.visible store') (routines : l.Bound store') :
      Leads t max fresh r store' l.inside l.home (.go (some l.restart)) (loop.round ++ todo) :=
    leads_round makes routines (fun _ _ => rfl) (rest.transport agree (agree _) more) atOnce
  have sameHead : loop.head.plain r.config = l.head.plain r.config :=
    congrArg Rounds.head makes.same
  have headers := makes.headers
  obtain ⟨x, -, parted⟩ := makes.parted
  generalize hhead₀ : loop.head = head₀ at sameHead
  generalize l.parts = parts at parted round
  generalize l.head = head at parted headers again sameHead
  cases parted with
  | whileDo =>
    cases head₀ with
    | whileDo =>
      rw [Rounds.start, hhead₀]
      exact opening (again (by simp))
    | _ => cases sameHead
  | doWhile =>
    cases head₀ with
    | doWhile =>
      rw [Rounds.start, hhead₀]
      exact opening (round rfl)
    | _ => cases sameHead
  | counting | endless =>
    cases head₀ with
    | counting =>
      rw [Rounds.start, hhead₀, List.append_assoc]
      have again := again (by simp)
      simp only [LoopHead.plain, LoopHead.counting.injEq] at sameHead
      exact .header sameHead.1 (fun s hs => headers s (by simp_all [LoopHead.statements]))
        (opening fun store' agree routines => .pass (again store' agree routines))
        (opening again)
    | _ => cases sameHead

end Turning

end

end WaitDefer
