import WaitDefer.Proofs.Compile.Names
import WaitDefer.Proofs.Compile.Units

/-!
# Functions are compiled independently

The functions of a module share one session. What comes of a function there is what comes of it on
its own, but for the ids and the numbers that are drawn:

* `Variation.above`: ids above a largest one are raised, and names vary;
* `Func.units_above`: a function in a session that met others before;
* `Session.independent_compileEach`: one function after the other;
* `Module.independent_of_session`: a module.
-/

namespace WaitDefer

open Session

/-! ## Raised ids -/

/-- Ids above `max` are raised by `d`, and names vary. -/
def Variation.above (max d : NodeId) (R : String → String → Prop) : Variation where
  id i i' := i' = if max < i then i + d else i
  declares := R
  refers := R

/-- Ids go up to `max`, and only names occur that may stay. -/
def Variation.below (max : NodeId) (R : Nat → String → String → Prop) : Variation where
  id i i' := i' = i ∧ i ≤ max
  declares x x' := x' = x ∧ ∀ e, R e x x
  refers x x' := x' = x ∧ ∀ e, R e x x

/-- Made-up names may have their numbers raised, while callbacks' arguments and the runtime's
function keep their names. -/
structure Config.Shifts (config : Config) (R : Nat → String → String → Prop) : Prop where
  made (e : Nat) : ∀ stem ∈ NameSupply.stems, ∀ n : Nat,
    R e (config.reservedPrefix ++ stem ++ toString n) (config.reservedPrefix ++ stem ++ toString (n + e))
  argument (e n : Nat) :
    R e (config.reservedPrefix ++ "a" ++ toString n) (config.reservedPrefix ++ "a" ++ toString n)
  maker (e : Nat) : R e config.runtime.newCounter config.runtime.newCounter

section
variable {config : Config} {R : Nat → String → String → Prop} {max max' d : NodeId} {e : Nat}

/-- Supplies of which the second is ahead, by `d` ids and `e` names. -/
def Lockstep.ahead (shifts : config.Shifts R) (max d : NodeId) (e : Nat) :
    Lockstep (.above max d (R e)) where
  counts := True
  ids s s' := s.exhausted = false ∧ s'.exhausted = false ∧
    (s'.next = none ∨
      ∃ n, max < n ∧ n + d ≤ NodeId.last ∧ s.next = some n ∧ s'.next = some (n + d))
  names n n' := n.reserved = config.reservedPrefix ∧ n'.reserved = config.reservedPrefix ∧
    0 < n.next ∧ n'.next = n.next + e
  fresh := by
    rintro ⟨next, exhausted⟩ ⟨next', exhausted'⟩ ⟨enough, enough', none | ⟨n, new, -, given, given'⟩⟩
    · obtain rfl : next' = Option.none := none
      exact .inl ⟨trivial, rfl⟩
    · obtain rfl : next = some n := given
      obtain rfl : next' = some (n + d) := given'
      refine .inr ⟨⟨enough, enough', ?_⟩, (if_pos new).symm⟩
      change IdSupply.successor (n + d) = _ ∨
        ∃ k, max < k ∧ k + d ≤ NodeId.last ∧ IdSupply.successor n = some k ∧
          IdSupply.successor (n + d) = some (k + d)
      unfold IdSupply.successor
      by_cases room : n + d < NodeId.last
      · refine .inr ⟨n + 1, Nat.lt_succ_of_lt new, ?_, if_pos ?_, ?_⟩
        · rw [Nat.add_right_comm]
          exact room
        · exact Nat.lt_of_le_of_lt (Nat.le_add_right n d) room
        · rw [if_pos room, Nat.add_right_comm]
      · exact .inl (if_neg room)
  advance := by
    rintro n n' ⟨reserved, reserved', -, next⟩
    exact ⟨reserved, reserved', Nat.succ_pos _,
      (congrArg (· + 1) next).trans (Nat.add_right_comm _ _ _)⟩
  made := by
    rintro n n' ⟨reserved, reserved', -, next⟩ stem hs
    have raised := shifts.made e stem hs n.next
    rw [NameSupply.name, NameSupply.name, reserved, reserved', next]
    exact ⟨raised, raised⟩
  argument := by
    rintro n n' ⟨reserved, reserved', -⟩ index
    rw [NameSupply.argument, NameSupply.argument, NameSupply.name, NameSupply.name, reserved, reserved']
    exact ⟨rfl, shifts.argument e index⟩

theorem Lockstep.transforms_ahead (shifts : config.Shifts R) (le : max ≤ max') (far : max' ≤ max + d)
    (e : Nat) :
    (Variation.below max R).Transforms (.above max d (R e)) (ahead shifts max d e) max max' where
  le := ⟨fun ⟨same, old⟩ => same.trans (if_neg (Nat.not_lt.mpr old)).symm,
    fun ⟨same, stays⟩ => same ▸ stays e, fun ⟨same, stays⟩ => same ▸ stays e⟩
  declares h := ⟨h.1, h.1 ▸ h.2 e⟩
  given h := h.1
  varying := by
    rintro i i' rfl other
    have new : max < i := by
      by_contra old
      exact other (if_neg old)
    rw [if_pos new]
    refine ⟨fun old => absurd new (Nat.not_lt.mpr old.2), fun old => ?_⟩
    exact absurd (Nat.lt_of_lt_of_le new (Nat.le_add_right _ _)) (Nat.not_lt.mpr old.2)
  new := by
    rintro i i' rfl
    split
    · rename_i new
      exact iff_of_true new (Nat.lt_of_le_of_lt far (Nat.add_lt_add_right new d))
    · rename_i old
      exact iff_of_false old fun new => old (Nat.lt_of_le_of_lt le new)
  ends := by
    rintro s s' ⟨enough, enough', -⟩
    exact ⟨enough'.trans enough.symm, fun spent => by simp [enough] at spent⟩

/-! ## One function -/

theorem Func.depth_transform (f : Func) (s : Session) :
    (f.transform config max s).2.depth = s.depth := by
  unfold transform
  cases f.marking config with
  | error violations => rfl
  | ok marking =>
    dsimp only
    generalize warned : (if config.severity EmptyWait.name EmptyWait.severity = .warn
      then s.warn marking.warnings else s) = s₁
    have depth : s₁.depth = s.depth := by
      subst warned
      split <;> rfl
    split
    · exact depth
    · split
      · generalize f.lowerChecked _ max s₁.supply = r
        obtain ⟨r, supply⟩ := r
        cases r <;> exact depth
      · exact depth

theorem Func.depth_units (f : Func) (s : Session) :
    (f.rewrite (.transformUnits config max) s).2.depth = s.depth := by
  rw [rewrite_transformUnits]
  split
  · rfl
  · exact depth_transform _ _

/-- A session between two functions of a module, in which ids have not run out. -/
structure Session.Between (config : Config) (max : NodeId) (s : Session) : Prop where
  reserved : s.supply.names.reserved = config.reservedPrefix
  enough : s.supply.ids.exhausted = false
  ids : ∀ n, s.supply.ids.next = some n → max < n ∧ n ≤ NodeId.last
  numbers : 0 < s.supply.names.next
  outermost : s.depth = 0

theorem Session.between_new (config : Config) (max : NodeId) : (new config max).Between config max where
  reserved := rfl
  enough := rfl
  ids n h := by
    change IdSupply.successor max = some n at h
    unfold IdSupply.successor at h
    split at h
    · rename_i room
      cases h
      exact ⟨Nat.lt_succ_self max, room⟩
    · cases h
  numbers := Nat.one_pos
  outermost := rfl

/-- The supplies of a function on its own, and of a session that may be ahead. -/
theorem Session.Between.ahead (shifts : config.Shifts R) {s : Session}
    (between : s.Between config max') (le : max ≤ max') :
    ∃ d e, max' ≤ max + d ∧
      (Lockstep.ahead shifts max d e).supplies.same (new config max).supply s.supply := by
  obtain ⟨e, next⟩ := Nat.exists_eq_add_of_le between.numbers
  have names (d : NodeId) : (Lockstep.ahead shifts max d e).names (.new config.reservedPrefix)
      s.supply.names :=
    ⟨rfl, between.reserved, Nat.one_pos, next⟩
  cases given : s.supply.ids.next with
  | none =>
    obtain ⟨d, rfl⟩ := Nat.exists_eq_add_of_le le
    exact ⟨d, e, Nat.le_refl _, ⟨rfl, between.enough, .inl given⟩, names d⟩
  | some n =>
    obtain ⟨above, proper⟩ := between.ids n given
    obtain ⟨d, rfl⟩ := Nat.exists_eq_add_of_le (Nat.lt_of_le_of_lt le above)
    have room : max < NodeId.last := Nat.lt_of_lt_of_le (Nat.lt_of_le_of_lt le above) proper
    refine ⟨d, e, ?_, ⟨rfl, between.enough, .inr ?_⟩, names d⟩
    · rw [Nat.succ_add] at above
      exact Nat.le_of_lt_succ above
    · exact ⟨max + 1, Nat.lt_succ_self max, proper, if_pos room, given⟩

/-- A function in a session that met others before. -/
theorem Func.units_above (shifts : config.Shifts R) {f : Func} (le : f.maxId ≤ max')
    (varies : f.Variant (.below f.maxId R) f) {s : Session} (between : s.Between config max')
    (enough : (f.rewrite (.transformUnits config max') s).2.supply.ids.exhausted = false) :
    let r := f.rewrite (.transformUnits config f.maxId) (.new config f.maxId)
    let r' := f.rewrite (.transformUnits config max') s
    r'.2.Between config max' ∧ r'.2.errors = s.errors ++ r.2.errors ∧
      r'.2.warnings = s.warnings ++ r.2.warnings ∧
        ∃ d e, r.1.Variant (.above f.maxId d (R e)) r'.1 := by
  obtain ⟨d, e, far, supplies⟩ := between.ahead shifts le
  have units := paired_units config s.errors s.warnings (Lockstep.transforms_ahead shifts le far e)
    (shifts.maker e) varies (.new config f.maxId) s
    ⟨supplies, between.outermost, (List.append_nil _).symm, (List.append_nil _).symm⟩
  rw [show config.calling config.runtime.newCounter = config from rfl] at units
  rcases units with spent | ⟨⟨⟨ids, names⟩, depth, errors, warnings⟩, same, -⟩
  · exact absurd spent.2 (by simp [enough])
  · refine ⟨⟨names.2.1, enough, fun n given => ?_, ?_, ?_⟩, errors, warnings, d, e, same⟩
    · obtain ⟨-, -, none | ⟨k, new, proper, -, given'⟩⟩ := ids
      · rw [none] at given
        cases given
      · rw [given'] at given
        cases given
        exact ⟨Nat.lt_of_le_of_lt far (Nat.add_lt_add_right new d), proper⟩
    · rw [names.2.2.2]
      exact Nat.add_pos_left names.2.2.1 e
    · rw [f.depth_units, between.outermost]

/-! ## One function after the other -/

/-- What a function on its own comes to, with its session. -/
def Func.alone (config : Config) (f : Func) : Func × Session :=
  f.rewrite (.transformUnits config f.maxId) (.new config f.maxId)

theorem Session.enough_of_compileEach {fs : List Func} {s : Session}
    (enough : (compileEach config max fs s).2.supply.ids.exhausted = false) :
    s.supply.ids.exhausted = false := by
  have lasting : Lasting (fun s : Session => IdSupply.Spent True s.supply.ids)
      (compileEach config max fs) := by
    unfold compileEach
    infer_instance
  by_contra spent
  have := (lasting.lasts s ⟨trivial, by simpa using spent⟩).2
  simp [enough] at this

/-- The functions of a session have the errors and warnings that each has on its own, in order, and
come to what each comes to on its own, raised. -/
theorem Session.independent_compileEach (shifts : config.Shifts R) {fs : List Func}
    (each : ∀ f ∈ fs, f.maxId ≤ max ∧ f.Variant (.below f.maxId R) f) {s : Session}
    (between : s.Between config max)
    (enough : (compileEach config max fs s).2.supply.ids.exhausted = false) :
    let r := compileEach config max fs s
    r.2.errors = s.errors ++ fs.flatMap (fun f => (f.alone config).2.errors) ∧
      r.2.warnings = s.warnings ++ fs.flatMap (fun f => (f.alone config).2.warnings) ∧
        List.Forall₂ (fun f g => ∃ d e, (f.alone config).1.Variant (.above f.maxId d (R e)) g)
          fs r.1 := by
  induction fs generalizing s with
  | nil => exact ⟨(List.append_nil _).symm, (List.append_nil _).symm, .nil⟩
  | cons f fs ih =>
    obtain ⟨⟨le, varies⟩, each⟩ := List.forall_mem_cons.mp each
    rw [compileEach_cons] at enough ⊢
    have first := Func.units_above shifts le varies between (enough_of_compileEach enough)
    obtain ⟨between, errors, warnings, raised⟩ := first
    obtain ⟨moreErrors, moreWarnings, rest⟩ := ih each between enough
    refine ⟨?_, ?_, .cons raised rest⟩
    · rw [moreErrors, errors, List.flatMap_cons, List.append_assoc]
      rfl
    · rw [moreWarnings, warnings, List.flatMap_cons, List.append_assoc]
      rfl

/-! ## Modules -/

theorem Func.le_maxId {f : Func} {i : NodeId} (h : i ∈ f.ids) : i ≤ f.maxId := by
  have largest : (f.id :: f.ids).max? = some f.maxId := List.max?_cons'
  exact (List.max?_eq_some_iff.mp largest).2 i (List.mem_cons_of_mem _ h)

theorem Func.maxId_mem (f : Func) : f.maxId ∈ f.ids := by
  have largest : (f.id :: f.ids).max? = some f.maxId := List.max?_cons'
  have first : f.id ∈ f.ids := List.mem_filterMap.mpr ⟨.func f, by simp [f.allNodes_eq], rfl⟩
  rcases List.mem_cons.mp (List.max?_eq_some_iff.mp largest).1 with same | mem
  · rw [same]
    exact first
  · exact mem

theorem Module.maxId_le_lastId {m : Module} {f : Func} (hf : f ∈ m.functions) :
    f.maxId ≤ m.lastId := by
  obtain ⟨n, hn, hi⟩ := List.mem_filterMap.mp f.maxId_mem
  exact le_lastId (List.mem_filterMap.mpr ⟨n, List.mem_flatMap.mpr ⟨f, hf, hn⟩, hi⟩)

/-- A function varies from itself if the names that it binds and refers to may stay. -/
theorem Func.variant_below {f : Func} (bound : ∀ n ∈ f.allNodes, ∀ x ∈ n.bound, ∀ e, R e x.name x.name)
    (refers : ∀ n ∈ f.allNodes, ∀ x ∈ n.refers, ∀ e, R e x x) : f.Variant (.below f.maxId R) f := by
  have renamed := Func.whole (Variation.variant_renamed (v := .below f.maxId R) (g := fun x => x)) f {
    id := fun n hn i hi => ⟨rfl, f.le_maxId (List.mem_filterMap.mpr ⟨n, hn, hi⟩)⟩
    bound := fun n hn x hx => ⟨rfl, bound n hn x hx⟩
    refers := fun n hn x hx => ⟨rfl, refers n hn x hx⟩ }
  rwa [f.renamed_id] at renamed

/-- What is wrong with a function that cannot be compiled. -/
def Func.errors (config : Config) (f : Func) : List CompileError :=
  match f.compile config with
  | .ok _ => []
  | .error errors => errors

/-- The warnings about a function that can be compiled. -/
def Func.warnings (config : Config) (f : Func) : List EmptyWait :=
  match f.compile config with
  | .ok (_, warnings) => warnings
  | .error _ => []

theorem Func.compile_eq (f : Func) :
    f.compile config = (f.alone config).2.finish (f.alone config).1 := rfl

theorem Func.errors_eq (f : Func) : f.errors config = (f.alone config).2.errors := by
  rw [errors, compile_eq, Session.finish]
  cases none : (f.alone config).2.errors <;> rfl

theorem Func.compile_of_errors {f : Func} (none : f.errors config = []) :
    f.compile config = .ok ((f.alone config).1, (f.alone config).2.warnings) := by
  rw [errors_eq] at none
  rw [compile_eq, Session.finish, if_pos (List.isEmpty_iff.mpr none)]

theorem Func.errors_eq_nil_iff (f : Func) : f.errors config = [] ↔ ∃ r, f.compile config = .ok r := by
  refine ⟨fun none => ⟨_, compile_of_errors none⟩, ?_⟩
  rintro ⟨r, ok⟩
  rw [errors, ok]

/-- A made-up name, and the same with its number raised. -/
def Config.Renumbers (config : Config) (e : Nat) (x x' : String) : Prop :=
  ∃ stem ∈ NameSupply.stems, ∃ n : Nat, x = config.reservedPrefix ++ stem ++ toString n ∧
    x' = config.reservedPrefix ++ stem ++ toString (n + e)

/-- Made-up names have their numbers raised, all others stay. -/
def Config.Raises (config : Config) (e : Nat) (x x' : String) : Prop :=
  config.Renumbers e x x' ∨ ¬ config.MakesUp x ∧ x' = x

theorem Config.shifts_raises {config : Config} (other : ¬ config.MakesUp config.runtime.newCounter) :
    config.Shifts config.Raises where
  made _ stem hs n := .inl ⟨stem, hs, n, rfl, rfl⟩
  argument _ n := .inr ⟨fun made => made.ne_argument n rfl, rfl⟩
  maker _ := .inr ⟨other, rfl⟩

theorem Module.compile_eq (m : Module) : m.compile config =
    (compileEach config m.lastId m.functions (.new config m.lastId)).2.finish
      { m with functions := (compileEach config m.lastId m.functions (.new config m.lastId)).1 } := rfl

theorem Module.errors_independent {m : Module}
    (enough : (m.session config).supply.ids.exhausted = false) :
    (compileEach config m.lastId m.functions (.new config m.lastId)).2.errors =
        m.functions.flatMap (Func.errors config) ∧
      (compileEach config m.lastId m.functions (.new config m.lastId)).2.warnings =
        m.functions.flatMap (fun f => (f.alone config).2.warnings) := by
  have shifts : config.Shifts fun _ _ _ => True :=
    ⟨fun _ _ _ _ => trivial, fun _ _ => trivial, fun _ => trivial⟩
  obtain ⟨errors, warnings, -⟩ := independent_compileEach shifts
    (fun f hf => ⟨maxId_le_lastId hf,
      Func.variant_below (fun _ _ _ _ _ => trivial) fun _ _ _ _ _ => trivial⟩)
    (between_new config m.lastId) enough
  refine ⟨errors.trans ?_, warnings⟩
  exact List.flatMap_congr fun f _ => f.errors_eq.symm

variable (config) in
/-- If a module mentions no name that rotation may make up, what each function comes to is what it
comes to on its own, raised. -/
theorem Module.raised_of_compile {m out : Module} {ws : List EmptyWait}
    (other : ¬ config.MakesUp config.runtime.newCounter)
    (unmentioned : Unmentioned config.MakesUp m.allNodes)
    (enough : (m.session config).supply.ids.exhausted = false)
    (ok : m.compile config = .ok (out, ws)) :
    List.Forall₂ (fun f g => ∃ k own d e, f.compile config = .ok (k, own) ∧
      k.Variant (.above f.maxId d (config.Raises e)) g) m.functions out.functions := by
  obtain ⟨none, rfl⟩ := session_of_compile ok
  have each : ∀ f ∈ m.functions, f.maxId ≤ m.lastId ∧
      f.Variant (.below f.maxId config.Raises) f := by
    intro f hf
    have part {n : Node} (hn : n ∈ f.allNodes) : n ∈ m.allNodes := List.mem_flatMap.mpr ⟨f, hf, hn⟩
    refine ⟨maxId_le_lastId hf, Func.variant_below (fun n hn x hx e => .inr ⟨fun made => ?_, rfl⟩)
      fun n hn x hx e => .inr ⟨unmentioned n (part hn) x hx, rfl⟩⟩
    have unreserved := unreserved_of_compile ok n (part hn) x hx
    rw [config.reserved_of_makesUp made] at unreserved
    cases unreserved
  obtain ⟨-, -, raised⟩ := independent_compileEach (config.shifts_raises other) each
    (between_new config m.lastId) enough
  rw [(errors_independent enough).1, List.flatMap_eq_nil_iff] at none
  refine forall₂_imp_mem raised ?_
  rintro f hf g ⟨d, e, varies⟩
  exact ⟨_, _, d, e, Func.compile_of_errors (none f hf), varies⟩

/-- **Functions of a module are compiled independently**, if ids do not run out. A module compiles
if each of its functions does on its own; the errors are those that each has on its own, in order,
and so are the warnings. What a function comes to in the module is what it comes to on its own, with
one number added to all ids that are new and one to the numbers of all names that rotation made up.
To tell references that rotation made from those of the module, the latter are hidden. -/
theorem Module.independent_of_session {m : Module}
    (enough : (m.session config).supply.ids.exhausted = false) :
    ((∃ r, m.compile config = .ok r) ↔ ∀ f ∈ m.functions, ∃ r, f.compile config = .ok r) ∧
      (∀ errors, m.compile config = .error errors →
        errors = m.functions.flatMap (Func.errors config)) ∧
      ∀ out warnings, m.compile config = .ok (out, warnings) →
        warnings = m.functions.flatMap (Func.warnings config) ∧
        ∃ hidden maker shown out', m.Hides config hidden maker shown ∧
          hidden.compile (config.calling maker) = .ok (out', warnings) ∧ out'.renamed shown = out ∧
          List.Forall₂ (fun f g => ∃ k own d e,
            f.compile (config.calling maker) = .ok (k, own) ∧
            (f.renamed shown).compile config = .ok (k.renamed shown, own) ∧
            k.Variant (.above f.maxId d (config.Raises e)) g) hidden.functions out'.functions := by
  obtain ⟨errors, warnings⟩ := errors_independent enough
  generalize whole : compileEach config m.lastId m.functions (.new config m.lastId) = r
    at errors warnings
  have compiled : m.compile config = r.2.finish { m with functions := r.1 } := by
    rw [compile_eq, whole]
  have each : r.2.errors = [] ↔ ∀ f ∈ m.functions, ∃ r, f.compile config = .ok r := by
    rw [errors, List.flatMap_eq_nil_iff]
    exact forall₂_congr fun f _ => f.errors_eq_nil_iff
  refine ⟨?ok, ?error, ?output⟩
  case ok =>
    rw [← each, compiled, Session.finish]
    cases r.2.errors <;> simp
  case error =>
    intro es failed
    rw [compiled, Session.finish] at failed
    split at failed
    · cases failed
    · cases failed
      exact errors
  case output =>
    intro out ws ok
    have none : r.2.errors = [] := by
      rw [compiled, Session.finish] at ok
      split at ok
      · rename_i empty
        exact List.isEmpty_iff.mp empty
      · cases ok
    have sameWarnings : ws = r.2.warnings := by
      rw [compiled, Session.finish, if_pos (List.isEmpty_iff.mpr none)] at ok
      cases ok
      rfl
    refine ⟨?_, ?_⟩
    · rw [sameWarnings, warnings]
      refine List.flatMap_congr fun f hf => ?_
      rw [Func.warnings, Func.compile_of_errors (List.flatMap_eq_nil_iff.mp (errors ▸ none) f hf)]
    · obtain ⟨hidden, maker, shown, hides, keeps, names, out', ran, shows⟩ :=
        exists_hidden_of_compile ok
      have enough : (hidden.session (config.calling maker)).supply.ids.exhausted = false := by
        rwa [← session_renamed keeps hides.runtime names, hides.references]
      have raised := raised_of_compile (config.calling maker) hides.other hides.unmentioned enough ran
      refine ⟨hidden, maker, shown, out', hides, ran, shows, forall₂_imp_mem raised ?_⟩
      rintro f hf g ⟨k, own, d, e, alone, varies⟩
      refine ⟨k, own, d, e, alone, ?_, varies⟩
      rw [Func.compile_renamed keeps hides.runtime fun n hn => names n
        (List.mem_flatMap.mpr ⟨f, hf, hn⟩), alone]
      rfl

end

/-- Two functions that wait and go on: `f` and `g` are both
`{ wait { ask(defer(reply)); } tell(reply); }`. -/
def Module.twoWaits : Module :=
  let name (n : String) : Ident := ⟨n, default⟩
  let ask : Expr := .call (.ident (name "ask")) [.defer [name "reply"] default] default
  let tell : Expr := .call (.ident (name "tell")) [.ident (name "reply")] default
  let waits (n : String) (id : NodeId) : Func :=
    let wait : Statement := ⟨id + 2, .wait ⟨id + 3, [⟨id + 4, .expr ask, default⟩], default⟩, default⟩
    ⟨id, some (name n), [], ⟨id + 1, [wait, ⟨id + 5, .expr tell, default⟩], default⟩, default⟩
  ⟨[waits "f" 0, waits "g" 6], default⟩

/-- What the second function comes to differs from what it comes to on its own. -/
theorem Module.independent_of_session_twoWaits : ∃ out warnings,
    twoWaits.compile {} = .ok (out, warnings) ∧
      warnings = twoWaits.functions.flatMap (Func.warnings {}) ∧
      ∃ hidden maker shown out', twoWaits.Hides {} hidden maker shown ∧
        hidden.compile (Config.calling {} maker) = .ok (out', warnings) ∧ out'.renamed shown = out ∧
        List.Forall₂ (fun f g => ∃ k own d e,
          f.compile (Config.calling {} maker) = .ok (k, own) ∧
          (f.renamed shown).compile {} = .ok (k.renamed shown, own) ∧
          k.Variant (.above f.maxId d (Config.Raises {} e)) g) hidden.functions out'.functions := by
  obtain ⟨compiles, -, output⟩ := Module.independent_of_session
    (show (twoWaits.session {}).supply.ids.exhausted = false by decide +kernel)
  have each : twoWaits.functions.all (fun f => (f.errors {}).isEmpty) = true := by decide +kernel
  obtain ⟨⟨out, warnings⟩, ok⟩ := compiles.mpr fun f hf =>
    f.errors_eq_nil_iff.mp (List.isEmpty_iff.mp (List.all_eq_true.mp each f hf))
  exact ⟨out, warnings, ok, output out warnings ok⟩

end WaitDefer
