import WaitDefer.Proofs.Compile.Session
import WaitDefer.Proofs.Rotation.VariedUnits
import WaitDefer.Proofs.Rotation.Weighed

/-!
# Sessions over code that varies

Two sessions run side by side, on functions that vary. The second may have met something before:

* `Variation.Transforms`: how what is given varies, and how what comes out does;
* `Func.paired_transform`: one unit;
* `Func.paired_units`: a function and those inside it: they fail in the same way, with the same
  warnings, and give functions that vary.
-/

namespace WaitDefer

section
variable {v₀ v : Variation} {L : Lockstep v} {config : Config} {maker maker' : String}
  {max max' : NodeId} {errors : List CompileError} {warnings : List EmptyWait}

/-- Two sessions, of which the second had some errors and warnings before. -/
abbrev Lockstep.sessions (L : Lockstep v) (errors : List CompileError) (warnings : List EmptyWait) :
    Pairing Session Session where
  same s s' := L.supplies.same s.supply s'.supply ∧ s'.depth = s.depth ∧
    s'.errors = errors ++ s.errors ∧ s'.warnings = warnings ++ s.warnings
  spent s' := IdSupply.Spent L.counts s'.supply.ids

/-- What is given varies as `v₀` says, and what comes of it as `v` does. Ids that were given stay,
and are never taken for others. -/
structure Variation.Transforms (v₀ v : Variation) (L : Lockstep v) (max max' : NodeId) : Prop
    extends v₀.Hoists v where
  given : ∀ {i i'}, v₀.id i i' → i' = i
  varying : ∀ {i i'}, v.id i i' → i' ≠ i → ¬ v₀.id i i ∧ ¬ v₀.id i' i'
  new : ∀ {i i'}, v.id i i' → (max < i ↔ max' < i')
  ends : ∀ {s s'}, L.ids s s' → s'.exhausted = s.exhausted ∧ (s.exhausted = true → max' = max)

/-- Functions that vary and have one name. -/
def Func.SameName (v : Variation) (f f' : Func) : Prop := f.Variant v f' ∧ f'.name = f.name

/-! ## One unit -/

/-- What own code has an id and a name for varies from something. -/
theorem Block.Varies.owns {F : Func → Func → Prop} {b b' : Block} (h : b.Varies v F b')
    {n : Node} (hn : n ∈ b.ownNodes) : (∀ i, n.id? = some i → ∃ i', v.id i i') ∧
      ∀ x, n.declared? = some x → ∃ x', v.declares x.name x' := by
  let W : Comparison := {
    Of := fun l _ => ∀ n ∈ l, (∀ i, n.id? = some i → ∃ i', v.id i i') ∧
      ∀ x, n.declared? = some x → ∃ x', v.declares x.name x'
    nil := by simp
    append := fun h h' n hn => (List.mem_append.mp hn).elim (h n) (h' n)
    ident := by simp [Node.id?, Node.declared?] }
  have compares : v.Compares F W := {
    ident := fun _ _ => by simp [W, Node.id?, Node.declared?]
    expr := fun _ => by simp [W, Node.id?, Node.declared?]
    statement := fun h => by
      cases h with
      | declare span id name value =>
        simpa [W, Node.id?, Node.declared?] using ⟨⟨_, id⟩, _, name.name⟩
      | parts span id undeclared parts =>
        cases parts <;> simp [W, Node.id?, Node.declared?] <;> first | exact ⟨_, id⟩ | cases undeclared
    block := fun h => by
      cases h with
      | block span id statements => simpa [W, Node.id?, Node.declared?] using ⟨_, id⟩ }
  exact h.compares compares (fun f f' _ => f.compares_outside f') n hn

/-- The marks of a unit are on given ids. -/
theorem Variation.Transforms.respects (T : v₀.Transforms v L max max') {F : Func → Func → Prop}
    {f : Func} {b' : Block} (h : f.body.Varies v₀ F b') {m : Marking}
    (ok : f.marking config = .ok m) : v.Respects m.table := by
  intro i i' varies other
  obtain ⟨first, second⟩ := T.varying varies other
  have outside {j : NodeId} (notGiven : ¬ v₀.id j j) : m.table.get j = .none := by
    refine Func.get_eq_none_of_outside ok fun n hn same => ?_
    obtain ⟨j', given⟩ := (h.owns hn).1 j same
    obtain rfl := T.given given
    exact notGiven given
  exact ⟨outside first, outside second⟩

variable (config errors warnings) in
theorem Func.paired_transform (T : v₀.Transforms v L max max') (calls : v.refers maker maker')
    {f : Func} {b' : Block} (h : f.body.Varies v₀ (SameName v) b') :
    Paired (L.sessions errors warnings) (f.Bodies v) (f.transform (config.calling maker) max)
      (transform (config.calling maker') max' { f with body := b' }) := by
  have varies : f.body.Varies v₀ (Func.Variant v) b' :=
    h.mono (.refl v₀) fun _ _ same => same.1
  have unchanged : f.Bodies v f { f with body := b' } :=
    ⟨f.body, b', by cases f; rfl, rfl, varies.mono T.le fun _ _ h => h⟩
  have steady : v₀.Steady (SameName v) :=
    ⟨T.given, fun h => (T.declares h).1, fun same => same.2⟩
  have names : ∀ x ∈ f.declaredNames, v.declares x.name x.name := by
    intro x hx
    obtain ⟨n, hn, declared⟩ := exists_of_mem_declaredNames hx
    obtain ⟨x', declares⟩ := (h.owns hn).2 x declared
    obtain ⟨rfl, -⟩ := T.declares declares
    exact T.le.declares declares
  have sameId : b'.id = f.body.id := by
    generalize f.body = b at h
    cases h with
    | block span id statements => exact T.given id
  rintro s s' ⟨supplies, depth, sameErrors, sameWarnings⟩
  unfold transform
  rw [marking_varies steady h]
  cases ok : f.marking (config.calling maker) with
  | error violations =>
    refine .inr ⟨⟨supplies, depth, ?_, sameWarnings⟩, unchanged⟩
    simp only [Session.fail, sameErrors, List.append_assoc]
    rfl
  | ok marking =>
    have waits : marking.hasWait { f with body := b' } = marking.hasWait f := by
      rw [Marking.hasWait, Marking.hasWait, sameId]
    have severity (maker : String) : (config.calling maker).severity = config.severity := rfl
    have displayName : displayName { f with body := b' } = f.displayName := rfl
    simp only [waits, severity, displayName]
    generalize warned : (if config.severity EmptyWait.name EmptyWait.severity = .warn
      then s.warn marking.warnings else s) = s₁
    generalize warned' : (if config.severity EmptyWait.name EmptyWait.severity = .warn
      then s'.warn marking.warnings else s') = s₁'
    have alongside : (L.sessions errors warnings).same s₁ s₁' := by
      subst warned warned'
      split
      · refine ⟨supplies, depth, sameErrors, ?_⟩
        simp only [Session.warn, sameWarnings, List.append_assoc]
      · exact ⟨supplies, depth, sameErrors, sameWarnings⟩
    obtain ⟨supplies, depth, sameErrors, sameWarnings⟩ := alongside
    split
    · refine .inr ⟨⟨supplies, depth, ?_, sameWarnings⟩, unchanged⟩
      simp only [Session.fail, sameErrors, List.append_assoc]
    · split
      · have lowered := paired_lowerChecked L config T.toHoists (T.respects h ok) calls varies names
          T.new T.ends s₁.supply s₁'.supply supplies
        generalize f.lowerChecked ⟨config.calling maker, marking.table⟩ max s₁.supply = r,
          lowerChecked ⟨config.calling maker', marking.table⟩ max' { f with body := b' } s₁'.supply =
            r' at lowered
        obtain ⟨r, supply⟩ := r
        obtain ⟨r', supply'⟩ := r'
        rcases lowered with spent | ⟨supplies, outcome⟩
        · cases r' <;> exact .inl spent
        · cases outcome with
          | error e =>
            refine .inr ⟨⟨supplies, depth, ?_, sameWarnings⟩, unchanged⟩
            simp only [Session.fail, sameErrors, List.append_assoc]
          | ok bodies => exact .inr ⟨⟨supplies, depth, sameErrors, sameWarnings⟩, bodies⟩
      · exact .inr ⟨⟨supplies, depth, sameErrors, sameWarnings⟩, unchanged⟩

/-! ## Functions inside -/

/-- Ids that have run out have run out after a unit. -/
theorem Func.spent_transform {counts : Prop} (f : Func) (s : Session)
    (spent : IdSupply.Spent counts s.supply.ids) :
    IdSupply.Spent counts (f.transform config max s).2.supply.ids := by
  unfold transform
  cases f.marking config with
  | error violations => exact spent
  | ok marking =>
    dsimp only
    generalize warned : (if config.severity EmptyWait.name EmptyWait.severity = .warn
      then s.warn marking.warnings else s) = s₁
    have spent : IdSupply.Spent counts s₁.supply.ids := by
      subst warned
      split <;> exact spent
    split
    · exact spent
    · split
      · have kept := keeps_lower ⟨config, marking.table⟩ f s₁.supply spent.2
        have supply := congrArg Prod.snd
          (lowerChecked_apply ⟨config, marking.table⟩ max f s₁.supply)
        generalize f.lowerChecked ⟨config, marking.table⟩ max s₁.supply = r at supply
        obtain ⟨r, supply'⟩ := r
        subst supply
        cases r <;> exact ⟨spent.1, kept⟩
      · exact spent

theorem spent_units (counts : Prop) :
    let T : Triples Session Unit := .keeping fun s => IdSupply.Spent counts s.supply.ids
    let r := Rewriting.transformUnits config max
    Cases (fun e => T.Of (e.rewrite r) fun _ _ => True) (fun f => T.Of (f.rewrite r) fun _ _ => True)
      (fun b => T.Of (b.rewrite r) fun _ _ => True) fun s => T.Of (s.rewrite r) fun _ _ => True where
  expr e operands functions := Triples.weaken _ (Expr.alike_rewrite _ (E := fun _ _ _ => True)
    (F := fun _ _ _ => True) (fun _ => rfl) operands functions) fun _ _ _ => trivial
  func f body := by
    intro s spent
    rw [Func.rewrite_transformUnits]
    split
    · exact ⟨spent, trivial⟩
    · exact ⟨Func.spent_transform _ _ (body { s with depth := s.depth + 1 } spent).1, trivial⟩
  block b statements := by
    obtain ⟨id, ss, span⟩ := b
    exact Triples.bind _ (Statement.alike_listRewrite _ statements) fun _ =>
      Triples.pure _ fun _ _ => trivial
  statement s exprs headers blocks functions := by
    obtain ⟨id, kind, span⟩ := s
    exact Triples.bind _ (StatementKind.alike_rewrite _ exprs headers blocks functions) fun _ =>
      Triples.pure _ fun _ _ => trivial

section
variable {counts : Prop}

instance Expr.lasting_units (e : Expr) : Lasting
    (fun s : Session => IdSupply.Spent counts s.supply.ids) (e.rewrite (.transformUnits config max)) :=
  .of_keeping (Expr.whole (spent_units counts) e)

instance Func.lasting_units (f : Func) : Lasting
    (fun s : Session => IdSupply.Spent counts s.supply.ids) (f.rewrite (.transformUnits config max)) :=
  .of_keeping (Func.whole (spent_units counts) f)

instance Block.lasting_units (b : Block) : Lasting
    (fun s : Session => IdSupply.Spent counts s.supply.ids) (b.rewrite (.transformUnits config max)) :=
  .of_keeping (Block.whole (spent_units counts) b)

instance Statement.lasting_units (s : Statement) : Lasting
    (fun s : Session => IdSupply.Spent counts s.supply.ids) (s.rewrite (.transformUnits config max)) :=
  .of_keeping (Statement.whole (spent_units counts) s)

end

theorem onFuncs_units (config : Config) (max : NodeId) :
    (Rewriting.transformUnits config max).OnFuncs := ⟨fun _ _ => rfl, fun _ _ => rfl, fun _ _ => rfl⟩

variable (config errors warnings) in
/-- **Functions that vary are compiled into functions that vary**, with the same errors and
warnings, as long as the supplies are in lockstep. -/
theorem Func.paired_units (T : v₀.Transforms v L max max') (calls : v.refers maker maker')
    {f f' : Func} (h : f.Variant v₀ f') :
    f.Rewrites (L.sessions errors warnings) (.transformUnits (config.calling maker) max)
      (.transformUnits (config.calling maker') max') (SameName v) f' := by
  induction h with
  | @func i i' name name' params b b' span F given id named body ih =>
    obtain rfl : i' = i := T.given id
    have sameName : name' = name := by
      cases named with
      | none => rfl
      | some named => rw [named.eq fun h => (T.declares h).1]
    subst sameName
    have same {c : Block} {g g' : Func} (h : Func.Bodies v ⟨i', name', params, c, span⟩ g g') :
        SameName v g g' := by
      obtain ⟨c, c', rfl, rfl, varies⟩ := h
      exact ⟨.mk (T.le.id id) (optionRel_imp_mem named fun _ _ _ h => h.imp T.le.declares) varies, rfl⟩
    have maxDepth (maker : String) : (config.calling maker).maxDepth = config.maxDepth := rfl
    rintro s s' ⟨supplies, depth, sameErrors, sameWarnings⟩
    simp only [rewrite_transformUnits, depth, maxDepth]
    split
    · refine .inr ⟨⟨supplies, depth, ?_, sameWarnings⟩, same (c := b) ⟨b, b', rfl, rfl, ?_⟩⟩
      · simp only [Session.fail, sameErrors, List.append_assoc]
        rfl
      · exact body.mono T.le fun g g' h => (given g g' h).mono T.le
    · -- inside, the session is one deeper
      have inside := (body.mono (.refl v₀) ih).paired (onFuncs_units _ _) (onFuncs_units _ _)
        { s with depth := s.depth + 1 } { s' with depth := s.depth + 1 }
        ⟨supplies, rfl, sameErrors, sameWarnings⟩
      generalize b.rewrite (.transformUnits (config.calling maker) max)
        { s with depth := s.depth + 1 } = r, b'.rewrite (.transformUnits (config.calling maker') max')
        { s' with depth := s.depth + 1 } = r' at inside
      rcases inside with spent | ⟨⟨supplies, -, sameErrors, sameWarnings⟩, varies⟩
      · exact .inl (spent_transform _ _ spent)
      · have unit := paired_transform config errors warnings T calls
          (f := ⟨i', name', params, r.1, span⟩) varies { r.2 with depth := s.depth }
          { r'.2 with depth := s.depth } ⟨supplies, rfl, sameErrors, sameWarnings⟩
        exact unit.imp_right fun ⟨alongside, bodies⟩ => ⟨alongside, same bodies⟩

end

end WaitDefer
