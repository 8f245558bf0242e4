import WaitDefer.Proofs.Compile.Source
import WaitDefer.Proofs.Rotation.Weighed

/-!
# What compiled code weighs

A session transforms unit after unit on one supply. If nothing goes wrong in it, its result weighs
no more than the code it was given and what was taken from the supply:

* `Session.spending`: rules for steps of a session, should it end without an error;
* `Func.makes_transform`, `Func.weighs_transform`: one unit;
* `Module.weighs_compile`: a whole module.
-/

namespace WaitDefer

open Build Rotation

/-! ## A session -/

namespace Session

/-- The supply of a session makes up reserved names and proper ids above the old ones, and ids have
not run out. -/
structure Stocked (config : Config) (max : NodeId) (s : Session) : Prop where
  reserved : s.supply.names.reserved = config.reservedPrefix
  proper : s.supply.ids.Proper
  above : ∀ n, s.supply.ids.next = some n → max < n
  enough : s.supply.ids.exhausted = false

/-- What a session made that went from `s` to `s'` without an error. -/
structure Went {β α : Type} (config : Config) (max : NodeId) (ofId : NodeId → Multiset β)
    (ofName : String → Multiset β) (s s' : Session) (a : α) (P : Multiset β → α → Prop) :
    Prop where
  stocked : s'.Stocked config max
  later : s.supply.ids.Later s'.supply.ids
  made : ∃ names, Numbered (NameSupply.Makes config.reservedPrefix) s.supply.names.next
      s'.supply.names.next names ∧
    P ((s.supply.ids.between s'.supply.ids).bind ofId + names.bind ofName) a

variable {β : Type} (config : Config) (max : NodeId) (ofId : NodeId → Multiset β)
  (ofName : String → Multiset β)

/-- A session uses up ids and names, which are charged for. Once there is an error, nothing is
promised. -/
def spending : Spending Session β where
  Of x P := ∀ s : Session, ((x s).2.errors = [] → s.errors = []) ∧
    (s.Stocked config max → (x s).2.errors = [] →
      Went config max ofId ofName s (x s).2 (x s).1 P)
  pure {α P a} h := by
    refine fun s => ⟨fun e => e, fun stocked _ => ⟨stocked, .refl _, 0, .nothing (Nat.le_refl _), ?_⟩⟩
    rw [StateM.pure_apply, IdSupply.between_self]
    simpa using h
  bind {α γ P Q x f} hx hf := by
    intro s
    obtain ⟨errors, first⟩ := hx s
    obtain ⟨errors', second⟩ := hf (x s).1 (x s).2
    rw [StateM.bind_apply]
    refine ⟨fun none => errors (errors' none), fun stocked none => ?_⟩
    obtain ⟨stocked', later, names, numbered, p⟩ := first stocked (errors' none)
    obtain ⟨stocked'', later', rest, numbered', q⟩ := second stocked' none
    refine ⟨stocked'', later.trans later', names + rest,
      numbered.add NameSupply.Makes.unique numbered', ?_⟩
    have := q _ p
    rw [← later.between_add later' stocked.proper, Multiset.add_bind, Multiset.add_bind]
    convert this using 1
    abel

variable {config max ofId ofName}

theorem spending_of {α : Type} {x : StateM Session α} {P : Multiset β → α → Prop} :
    (spending config max ofId ofName).Of x P ↔ ∀ s : Session,
      ((x s).2.errors = [] → s.errors = []) ∧
      (s.Stocked config max → (x s).2.errors = [] →
        Went config max ofId ofName s (x s).2 (x s).1 P) := Iff.rfl

/-- How deep functions nest does not matter for the supply. -/
theorem spending_deeper {α : Type} {x : StateM Session α} {P : Multiset β → α → Prop}
    (h : (spending config max ofId ofName).Of x P) :
    (spending config max ofId ofName).Of (fun s =>
      ((x { s with depth := s.depth + 1 }).1,
        { (x { s with depth := s.depth + 1 }).2 with depth := s.depth })) P := by
  refine spending_of.mpr fun s => ?_
  obtain ⟨errors, went⟩ := h { s with depth := s.depth + 1 }
  refine ⟨errors, fun stocked none => ?_⟩
  obtain ⟨stocked, later, made⟩ :=
    went ⟨stocked.reserved, stocked.proper, stocked.above, stocked.enough⟩ none
  exact ⟨⟨stocked.reserved, stocked.proper, stocked.above, stocked.enough⟩, later, made⟩

theorem fail_errors (s : Session) (e : CompileError) : (s.fail e).errors ≠ [] := by
  simp [Session.fail]

end Session

/-! ## One unit -/

section
variable {β : Type} {w : Weighing β} {config : Config} {max : NodeId}
  {ofId : NodeId → Multiset β} {ofName : String → Multiset β}

theorem Func.lowerChecked_eq_ok {ctx : RotationContext} {f g : Func} {s s' : Supply}
    (h : f.lowerChecked ctx max s = (.ok g, s')) :
    f.lower ctx s = (.ok g, s') ∧ s'.ids.exhausted = false ∧
      (ctx.config.verify = true → g.flaw? ctx.table max = none) := by
  have asked (s : Supply) : (getThe Supply : Rotation Supply) s = (.ok s, s) := rfl
  unfold lowerChecked at h
  rw [bind_apply] at h
  cases ran : f.lower ctx s with
  | mk r s₁ =>
    rw [ran] at h
    cases r with
    | error e => cases h
    | ok g₁ =>
      simp only [bind_apply, asked] at h
      cases exhausted : s₁.ids.exhausted with
      | true =>
        simp only [exhausted, ↓reduceIte] at h
        cases h
      | false =>
        simp only [exhausted, Bool.false_eq_true, ↓reduceIte] at h
        cases verify : ctx.config.verify with
        | false =>
          simp only [verify, Bool.false_eq_true, ↓reduceIte] at h
          cases h
          exact ⟨rfl, exhausted, Bool.noConfusion⟩
        | true =>
          cases flaw : g₁.flaw? ctx.table max with
          | some e =>
            simp only [verify, flaw, ↓reduceIte] at h
            cases h
          | none =>
            simp only [verify, flaw, ↓reduceIte] at h
            cases h
            exact ⟨rfl, exhausted, fun _ => flaw⟩

open Session

/-- What a unit is transformed to in a session without an error. -/
inductive Func.Transformed (config : Config) (max : NodeId) (f : Func) (s s' : Session) (g : Func) :
    Prop
  | kept {marking : Marking} (ok : f.marking config = .ok marking)
      (quiet : marking.hasWait f = false) (same : g = f) (supply : s'.supply = s.supply)
  | lowered {marking : Marking} (ok : f.marking config = .ok marking)
      (ran : f.lower ⟨config, marking.table⟩ s.supply = (.ok g, s'.supply))
      (enough : s'.supply.ids.exhausted = false)
      (checked : config.verify = true → g.flaw? marking.table max = none)

/-- A unit stays as it is or is hoisted and rotated, unless there is an error. -/
theorem Func.transform_cases (config : Config) (max : NodeId) (f : Func) (s : Session) :
    ((f.transform config max s).2.errors = [] → s.errors = []) ∧
      ((f.transform config max s).2.errors = [] →
        f.Transformed config max s (f.transform config max s).2 (f.transform config max s).1) := by
  unfold transform
  cases ok : f.marking config with
  | error violations =>
    exact ⟨fun none => absurd none (fail_errors _ _), fun none => absurd none (fail_errors _ _)⟩
  | ok marking =>
    dsimp only
    -- a warning changes neither the supply nor the errors
    generalize warned : (if config.severity EmptyWait.name EmptyWait.severity = .warn
      then s.warn marking.warnings else s) = s₁
    have same : s₁.supply = s.supply ∧ s₁.errors = s.errors := by
      subst warned
      split <;> exact ⟨rfl, rfl⟩
    split
    · exact ⟨fun none => absurd none (fail_errors _ _), fun none => absurd none (fail_errors _ _)⟩
    · split
      · cases ran : f.lowerChecked ⟨config, marking.table⟩ max s₁.supply with
        | mk r supply =>
          cases r with
          | error e =>
            exact ⟨fun none => absurd none (fail_errors _ _),
              fun none => absurd none (fail_errors _ _)⟩
          | ok g =>
            obtain ⟨lowered, enough, checked⟩ := lowerChecked_eq_ok ran
            rw [same.1] at lowered
            exact ⟨fun none => same.2 ▸ none, fun _ => .lowered ok lowered enough checked⟩
      · rename_i quiet
        exact ⟨fun none => same.2 ▸ none, fun _ => .kept ok (Bool.not_eq_true _ ▸ quiet) rfl same.1⟩

/-- What a unit is made into by a session without an error: itself, or what hoisting and rotation
turn it into. -/
theorem Func.makes_transform {P : Multiset β → Func → Prop} {f : Func}
    (kept : ∀ marking : Marking, f.marking config = .ok marking → marking.hasWait f = false → P 0 f)
    (lowered : ∀ (marking : Marking) (ds out : List Statement) (given rest : Multiset NodeId)
      (names : Multiset String) (made : Multiset Func), f.marking config = .ok marking →
      DeclaresEach f.declaredNames ds given →
      Turned config marking.table [] (.run (ds ++ f.body.undeclared.statements) none out) rest
        names made → (∀ i ∈ rest, max < i) →
      (config.verify = true →
        Func.flaw? { f with body := { f.body with statements := out } } marking.table max = none) →
      P ((given + rest).bind ofId + names.bind ofName)
        { f with body := { f.body with statements := out } }) :
    (spending config max ofId ofName).Of (f.transform config max) P := by
  refine spending_of.mpr fun s => ?_
  obtain ⟨errors, cases⟩ := f.transform_cases config max s
  refine ⟨errors, fun stocked none => ?_⟩
  generalize (f.transform config max s).2 = s' at *
  generalize (f.transform config max s).1 = g at *
  cases cases none with
  | kept ok quiet same supply =>
    subst same
    have between : s.supply.ids.between s'.supply.ids = 0 := by
      rw [supply]
      exact IdSupply.between_self _
    refine ⟨?_, ?_, 0, .nothing ?_, by simpa [between] using kept _ ok quiet⟩
    · refine ⟨?_, ?_, ?_, ?_⟩ <;> rw [supply]
      · exact stocked.reserved
      · exact stocked.proper
      · exact stocked.above
      · exact stocked.enough
    · rw [supply]
      exact .refl _
    · rw [supply]
  | lowered ok ran enough checked =>
    have gave := f.gives_lower config _ s.supply s'.supply g stocked.reserved ran
    obtain ⟨names, numbered, ds, out, given, rest, made, ids, declares, rfl, turned⟩ :=
      gave.gave stocked.proper enough
    have isNew : ∀ i ∈ s.supply.ids.between s'.supply.ids, max < i := by
      intro i hi
      obtain ⟨n, next, le⟩ := IdSupply.mem_between stocked.proper gave.later hi
      exact Nat.lt_of_lt_of_le (stocked.above n next) le
    refine ⟨⟨gave.same, gave.later.proper stocked.proper, ?_, enough⟩, gave.later, names, numbered,
      ?_⟩
    · exact fun n next => gave.later.above stocked.proper stocked.above next
    · rw [ids] at isNew ⊢
      exact lowered _ ds out given rest names made ok declares turned
        (fun i hi => isNew i (Multiset.mem_add.mpr (.inr hi))) checked

theorem Func.weighs_transform (charges : w.Charges config.reservedPrefix (max < ·) ofId ofName)
    (hoists : w.Hoists ofId fun x => config.isReserved x.name = false) (f : Func) :
    (spending config max ofId ofName).Of (f.transform config max) fun used g =>
      w.ofFunc g ≤ w.ofFunc f + used ∧ g.name = f.name := by
  refine makes_transform (fun _ _ _ => ⟨by simp, rfl⟩) ?_
  intro marking ds out given rest names made ok declares turned isNew _
  rw [← add_assoc]
  exact ⟨weighs_lower charges hoists (fun n hn x hx => not_reserved_of_marking ok hn hx) declares
    turned isNew, rfl⟩

/-! ## Units inside units -/

theorem Func.weighs_units (charges : w.Charges config.reservedPrefix (max < ·) ofId ofName)
    (hoists : w.Hoists ofId fun x => config.isReserved x.name = false) :
    let T := spending config max ofId ofName
    let r := Rewriting.transformUnits config max
    Cases (fun e => T.Rewrites w r e)
      (fun f => T.Of (f.rewrite r) fun used g => w.ofFunc g ≤ w.ofFunc f + used ∧ g.name = f.name)
      (fun b => T.Weighs (b.rewrite r) (w.ofBlock b) w.ofBlock)
      fun s => T.Weighs (s.rewrite r) (w.ofStatement s) w.ofStatement where
  expr e operands functions :=
    Expr.weighs_rewrite (fun _ => rfl) (fun o ho => (operands o ho).weighs) fun f hf =>
      Spending.weaken _ (functions f hf) fun _ _ both => both.1
  func f body := by
    refine spending_of.mpr fun s => ?_
    rw [Func.rewrite_transformUnits]
    split
    · exact ⟨fun none => absurd none (fail_errors _ _), fun _ none => absurd none (fail_errors _ _)⟩
    · refine Spending.bind _ (Q := fun used g => w.ofFunc g ≤ w.ofFunc f + used ∧ g.name = f.name)
        (spending_deeper body) (fun b => Spending.weaken _
          (Func.weighs_transform charges hoists { f with body := b }) ?_) s
      intro more g ⟨weight, named⟩ used inBody
      have func : w.ofFunc { f with body := b } ≤ w.ofFunc f + used := by
        have sameEnter : w.enters { f with body := b } = w.enters f := rfl
        rw [w.func_eq, w.func_eq, sameEnter]
        split
        · rw [add_assoc]
          exact add_le_add_right inBody _
        · exact Multiset.zero_le _
      rw [← add_assoc]
      exact ⟨weight.trans (add_le_add_left func _), named⟩
  block b statements := by
    obtain ⟨id, ss, span⟩ := b
    refine Spending.andReturn _ (Statement.weighs_listRewrite statements) fun used ss' le => ?_
    rw [w.block_eq, w.block_eq, add_assoc]
    exact add_le_add_right le _
  statement s exprs headers blocks functions := by
    obtain ⟨id, kind, span⟩ := s
    refine Spending.andReturn _ (StatementKind.weighs_rewrite exprs headers blocks functions)
      fun used k' ⟨le, declared, titled, assigned⟩ => ?_
    rw [w.statement_eq, w.statement_eq]
    simp only [declared, titled, assigned]
    rw [add_assoc]
    exact add_le_add_right le _

/-! ## Modules -/

theorem Session.stocked_new (config : Config) (max : NodeId) :
    (Session.new config max).Stocked config max where
  reserved := rfl
  proper := IdSupply.proper_above max
  above n next := IdSupply.promises_above max n next n (Nat.le_refl n)
  enough := rfl

/-- What a whole session makes of a module, if it ends without an error. -/
theorem Module.made_of_compile {m out : Module} {ws : List EmptyWait} {P : Multiset β → Module → Prop}
    (h : (spending config m.lastId ofId ofName).Of
      (m.rewrite (.transformUnits config m.lastId)) P)
    (ok : m.compile config = .ok (out, ws)) :
    ∃ (ids : Multiset NodeId) (names : Multiset String) (last : Nat), ids.Nodup ∧
      (∀ i ∈ ids, m.lastId < i) ∧ Numbered (NameSupply.Makes config.reservedPrefix) 1 last names ∧
      P (ids.bind ofId + names.bind ofName) out := by
  obtain ⟨-, went⟩ := h (.new config m.lastId)
  change Session.finish (m.rewrite (.transformUnits config m.lastId) (.new config m.lastId)).2
    (m.rewrite (.transformUnits config m.lastId) (.new config m.lastId)).1 = _ at ok
  generalize m.rewrite (.transformUnits config m.lastId) (.new config m.lastId) = r at ok went
  have none : r.2.errors = [] := by
    unfold Session.finish at ok
    split at ok
    · rename_i empty
      exact List.isEmpty_iff.mp empty
    · cases ok
  have result : r.1 = out := by
    simp only [Session.finish, none, List.isEmpty_nil, ↓reduceIte, Except.ok.injEq,
      Prod.mk.injEq] at ok
    exact ok.1
  have stocked := Session.stocked_new config m.lastId
  obtain ⟨-, later, names, numbered, made⟩ := went stocked none
  refine ⟨_, names, _, IdSupply.nodup_between _ _, fun i hi => ?_, numbered, result ▸ made⟩
  obtain ⟨n, next, le⟩ := IdSupply.mem_between stocked.proper later hi
  exact Nat.lt_of_lt_of_le (stocked.above n next) le

/-- What a module weighs. -/
def Weighing.ofModule (w : Weighing β) (m : Module) : Multiset β := bagOf w.ofFunc m.functions

/-- **A compiled module weighs no more than the module and what was taken from the supply for it:**
distinct ids above the old ones, and distinct made-up names. -/
theorem Module.weighs_compile {m out : Module} {ws : List EmptyWait}
    (charges : w.Charges config.reservedPrefix (m.lastId < ·) ofId ofName)
    (hoists : w.Hoists ofId fun x => config.isReserved x.name = false)
    (ok : m.compile config = .ok (out, ws)) :
    ∃ (ids : Multiset NodeId) (names : Multiset String) (last : Nat), ids.Nodup ∧
      (∀ i ∈ ids, m.lastId < i) ∧ Numbered (NameSupply.Makes config.reservedPrefix) 1 last names ∧
      w.ofModule out ≤ w.ofModule m + (ids.bind ofId + names.bind ofName) := by
  have functions : ∀ fs : List Func, (spending config m.lastId ofId ofName).Weighs
      (fs.mapM (Func.rewrite (.transformUnits config m.lastId))) (bagOf w.ofFunc fs)
      (bagOf w.ofFunc) := by
    intro fs
    induction fs with
    | nil => exact Spending.pure _ (by simp)
    | cons f fs ih =>
      rw [List.mapM_cons, bagOf_cons]
      have first : (spending config m.lastId ofId ofName).Weighs
          (f.rewrite (.transformUnits config m.lastId)) (w.ofFunc f) w.ofFunc :=
        Spending.weaken _ (Func.whole (Func.weighs_units charges hoists) f) fun _ _ both => both.1
      exact first.both ih fun g gs => bagOf_cons g gs
  exact made_of_compile (P := fun used out => w.ofModule out ≤ w.ofModule m + used)
    (Spending.andReturn _ (functions m.functions) fun used fs le => le) ok

end

end WaitDefer
