import WaitDefer.Proofs.Rotation.Varied

/-!
# Units that vary

A unit whose own code has the ids and declarations it always had, and in which all else varies, is
hoisted, rotated and checked:

* `Func.paired_hoist`, `Func.paired_lower`: the results vary;
* `Func.flaw?_variant`: the check finds the same;
* `Func.paired_lowerChecked`: so they fail in the same way, or give units that vary.
-/

namespace WaitDefer

open Rotation

section
variable {v₀ v : Variation} {F : Func → Func → Prop}

/-! ## Hoisting -/

/-- Own code keeps its ids and the names it declares, and a name may be referred to where it was
declared. -/
structure Variation.Hoists (v₀ v : Variation) : Prop where
  le : v₀.Le v
  declares : ∀ {x x'}, v₀.declares x x' → x' = x ∧ v.refers x x'

theorem Arm.congruent_listUndeclared {E : Expr → Expr → Prop} {B : Block → Block → Prop}
    {as as' : List Arm}
    (h : List.Forall₂ (Arm.Congruent E fun b b' => B b.undeclared b'.undeclared) as as') :
    List.Forall₂ (Arm.Congruent E B) (listUndeclared as) (listUndeclared as') := by
  induction h with
  | nil => exact .nil
  | cons first _ ih =>
    obtain ⟨span, test, body⟩ := first
    exact .cons (.arm span test body) ih

/-- What is no declaration keeps its form. -/
theorem StatementKind.Congruent.undeclared {E : Expr → Expr → Prop} {S : Statement → Statement → Prop}
    {B : Block → Block → Prop} {k k' : StatementKind} (undeclared : k.declared = [])
    (h : k.Congruent E (fun s s' => S s.undeclared s'.undeclared)
      (fun b b' => B b.undeclared b'.undeclared) F k') :
    k.undeclared.declared = [] ∧ k.undeclared.Congruent E S B F k'.undeclared := by
  cases h with
  | declare name init => cases undeclared
  | assign target value => exact ⟨rfl, .assign target value⟩
  | expr value => exact ⟨rfl, .expr value⟩
  | ret value => exact ⟨rfl, .ret value⟩
  | block body => exact ⟨rfl, .block body⟩
  | branch condition yes no =>
    cases no with
    | none => exact ⟨rfl, .branch condition yes .none⟩
    | some no => exact ⟨rfl, .branch condition yes (.some no)⟩
  | switch subject arms otherwise =>
    have arms := Arm.congruent_listUndeclared arms
    cases otherwise with
    | none => exact ⟨rfl, .switch subject arms .none⟩
    | some otherwise => exact ⟨rfl, .switch subject arms (.some otherwise)⟩
  | loop label head body =>
    cases head with
    | whileDo condition => exact ⟨rfl, .loop label (.whileDo condition) body⟩
    | doWhile condition => exact ⟨rfl, .loop label (.doWhile condition) body⟩
    | counting init test update =>
      cases init with
      | none =>
        cases update with
        | none => exact ⟨rfl, .loop label (.counting .none test .none) body⟩
        | some update => exact ⟨rfl, .loop label (.counting .none test (.some update)) body⟩
      | some init =>
        cases update with
        | none => exact ⟨rfl, .loop label (.counting (.some init) test .none) body⟩
        | some update => exact ⟨rfl, .loop label (.counting (.some init) test (.some update)) body⟩
  | jump kind label => exact ⟨rfl, .jump kind label⟩
  | wait body => exact ⟨rfl, .wait body⟩
  | func function => exact ⟨rfl, .func function⟩

theorem Block.Varies.undeclared (hoists : v₀.Hoists v) {b b' : Block} (h : b.Varies v₀ F b') :
    b.undeclared.Varies v F b'.undeclared := by
  have exprs {e e' : Expr} (h : e.Varies v₀ F e') : e.Varies v F e' :=
    h.mono hoists.le fun _ _ h => h
  refine h.least (S := fun s s' => s.undeclared.Varies v F s'.undeclared)
    (B := fun b b' => b.undeclared.Varies v F b'.undeclared) ⟨?_, ?_, ?_⟩
  · intro i i' x x' init init' span id name value
    refine .parts span (hoists.le.id id) rfl (.assign (.ident ?_) ?_)
    · exact ⟨(hoists.declares name.name).2, name.span⟩
    · cases value with
      | none =>
        rw [Option.getD_none, Option.getD_none, name.span]
        exact .parts rfl (.leaf _ rfl rfl)
      | some value => exact exprs value
  · intro i i' k k' span id undeclared parts
    have parts := (parts.imp (fun _ _ _ => exprs) (fun _ _ _ h => h) (fun _ _ _ h => h)
      fun _ _ h => h).undeclared undeclared
    exact .parts span (hoists.le.id id) parts.1 parts.2
  · intro i i' ss ss' span id statements
    rw [Block.undeclared_eq, Block.undeclared_eq]
    exact .block span (hoists.le.id id)
      (List.forall₂_map_left_iff.mpr (List.forall₂_map_right_iff.mpr statements))

theorem Func.declaredNames_varies (hoists : v₀.Hoists v) {f : Func} {b' : Block}
    (h : f.body.Varies v₀ F b') : declaredNames { f with body := b' } = f.declaredNames := by
  let read (n : Node) : List Ident := n.declared?.toList
  have compares : v₀.Compares F (.reading read) := {
    ident := fun _ _ => rfl
    expr := fun _ => rfl
    block := fun _ => rfl
    statement := fun h => Comparison.reading_node (by
      cases h with
      | declare span id name value =>
        exact congrArg (fun x => [x]) (name.eq fun h => (hoists.declares h).1)
      | parts span id undeclared parts => cases parts <;> rfl) }
  have same : b'.ownNodes.flatMap read = f.body.ownNodes.flatMap read :=
    h.compares compares fun f f' _ => f.compares_outside f'
  simp only [declaredNames, List.filterMap_eq_flatMap_toList]
  rw [show b'.ownNodes.flatMap (fun n => n.declared?.toList) = _ from same]

instance lasting_declarations {counts : Prop} (names : List Ident) :
    Lasting (IdSupply.Spent counts) (declarations names) :=
  ⟨fun s spent => ⟨spent.1, (draws_declarations names s).1 spent.2⟩⟩

variable {L : Lockstep v} {config : Config} {maker maker' : String} {t : MarkTable}
  {max max' : NodeId}

theorem paired_declarations {names : List Ident} (varies : ∀ x ∈ names, v.declares x.name x.name) :
    Paired L.draws (List.Forall₂ (Statement.Variant v)) (declarations names) (declarations names) := by
  induction names with
  | nil => exact .pure .nil
  | cons x names ih =>
    have first : Ident.Varies v.declares x x := ⟨varies x List.mem_cons_self, rfl⟩
    exact L.paired_fresh.bind fun _ _ id =>
      (ih fun y hy => varies y (List.mem_cons_of_mem _ hy)).bind fun _ _ rest =>
        .pure (.cons (.declare x.span id first .none) rest)

namespace Func

/-- Two functions that have all of `f` but its body, and bodies that vary. -/
def Bodies (v : Variation) (f g g' : Func) : Prop :=
  ∃ b b', g = { f with body := b } ∧ g' = { f with body := b' } ∧ b.Variant v b'

variable {f : Func} {b' : Block}

theorem paired_hoist (hoists : v₀.Hoists v) (h : f.body.Varies v₀ (Func.Variant v) b')
    (names : ∀ x ∈ f.declaredNames, v.declares x.name x.name) :
    Paired L.draws (fun r r' => f.Bodies v r.1 r'.1) f.hoist (hoist { f with body := b' }) := by
  have inside := h.undeclared hoists
  have same := declaredNames_varies hoists h
  obtain ⟨i, name, params, b, span⟩ := f
  unfold hoist
  rw [same]
  refine (paired_declarations names).bind fun ds ds' hd => .pure ⟨_, _, rfl, rfl, ?_⟩
  cases h with
  | block span id statements =>
    rw [Block.undeclared_eq, Block.undeclared_eq] at inside ⊢
    cases inside with
    | block _ _ inside => exact .block span (hoists.le.id id) (List.rel_append hd inside)

/-! ## Rotating -/

theorem paired_rotate (respects : v.Respects t) (calls : v.refers maker maker') {g g' : Func}
    (h : f.Bodies v g g') :
    Rotation.Paired L (f.Bodies v) (g.rotate ⟨config.calling maker, t⟩)
      (g'.rotate ⟨config.calling maker', t⟩) := by
  obtain ⟨b, b', rfl, rfl, varies⟩ := h
  unfold rotate Block.rotate
  rw [varies.height]
  have rotated : Rotation.Paired L (Block.Variant v)
      (b.rotateTo ⟨config.calling maker, t⟩ b.height [] none)
      (b'.rotateTo ⟨config.calling maker', t⟩ b.height [] none) :=
    (Block.paired_rotateTo L config respects calls b.height).block .nil varies .none
  exact rotated.bind fun b b' hb => .pure ⟨b, b', rfl, rfl, hb⟩

instance lasts_rotate (ctx : RotationContext) (f : Func) : Rotation.Lasts (f.rotate ctx) :=
  ⟨keeps_rotate ctx f⟩

variable (L config) in
/-- **Hoisting and rotating a unit that varies** gives a unit that varies. -/
theorem paired_lower (hoists : v₀.Hoists v) (respects : v.Respects t) (calls : v.refers maker maker')
    (h : f.body.Varies v₀ (Func.Variant v) b')
    (names : ∀ x ∈ f.declaredNames, v.declares x.name x.name) :
    Rotation.Paired L (f.Bodies v) (f.lower ⟨config.calling maker, t⟩)
      (lower ⟨config.calling maker', t⟩ { f with body := b' }) :=
  (Rotation.Paired.drawIds (paired_hoist hoists h names)).bind fun _ _ => paired_rotate respects calls

/-! ## Checking -/

theorem compares_flaws (respects : v.Respects t) : v.Compares F (.reading (Node.flaws t)) where
  ident _ _ := rfl
  expr h := Comparison.reading_node <| by
    cases h with
    | parts nameless parts => cases parts <;> rfl
    | _ => rfl
  statement h := Comparison.reading_node <| by
    cases h with
    | declare => rfl
    | parts span id undeclared parts =>
      cases parts with
      | loop => rw [Node.flaws, Node.flaws, MarkTable.has, MarkTable.has, respects.get id]
      | _ => rfl
  block h := Comparison.reading_node <| by
    cases h with
    | @block i i' ss ss' span id statements =>
      have places : List.Forall₂ (Statement.Varies v F) ss.dropLast ss'.dropLast := by
        rw [List.dropLast_eq_take, List.dropLast_eq_take, statements.length_eq]
        exact List.forall₂_take _ statements
      simp only [Node.flaws]
      generalize ss.dropLast = l, ss'.dropLast = l' at places
      induction places with
      | nil => rfl
      | cons first _ ih =>
        obtain ⟨id, span, -, name⟩ := first.form
        rw [List.filter_cons, List.filter_cons, respects.hasAny id]
        split
        · rename_i marked
          rw [List.map_cons, List.map_cons, respects.eq id marked, span, name, ih]
        · exact ih

/-- The check finds the same in units that vary, if the same functions in them are new. -/
theorem flaw?_bodies (respects : v.Respects t) (new : ∀ {i i'}, v.id i i' → (max < i ↔ max' < i'))
    {g g' : Func} (h : f.Bodies v g g') : g'.flaw? t max' = g.flaw? t max := by
  have entered {k k' : Func} (h : k.Variant v k') : decide (max' < k'.id) = decide (max < k.id) := by
    cases h with
    | func params span F _ id => rw [decide_eq_decide]; exact (new id).symm
  obtain ⟨b, b', rfl, rfl, varies⟩ := h
  have same : (b'.nodes fun k => max' < k.id).flatMap (Node.flaws t) =
      (b.nodes fun k => max < k.id).flatMap (Node.flaws t) :=
    varies.compares (compares_flaws respects) fun _ _ h =>
      h.compares (fun _ => compares_flaws respects) (fun _ => rfl) entered
  rw [flaw?, flaw?, same]

/-- Checking draws on nothing. -/
theorem lowerChecked_apply (ctx : RotationContext) (max : NodeId) (f : Func) (s : Supply) :
    f.lowerChecked ctx max s =
      ((f.lower ctx s).1.bind fun g =>
        if (f.lower ctx s).2.ids.exhausted then .error ⟨.idsExhausted max, f.span⟩
        else if ctx.config.verify then
          match g.flaw? ctx.table max with
          | some e => .error e
          | none => .ok g
        else .ok g, (f.lower ctx s).2) := by
  unfold lowerChecked
  rw [bind_apply]
  generalize f.lower ctx s = r
  obtain ⟨r, s'⟩ := r
  cases r with
  | error e => rfl
  | ok g =>
    change (ite (s'.ids.exhausted = true) _ _ : Rotation Func) s' = _
    dsimp only [Except.bind]
    split
    · rfl
    · split
      · cases g.flaw? ctx.table max <;> rfl
      · rfl

variable (L config) in
/-- **Rotating a unit that varies, and checking it**, gives a unit that varies, or fails as it did.
Ids have run out in both runs or in none. -/
theorem paired_lowerChecked (hoists : v₀.Hoists v) (respects : v.Respects t)
    (calls : v.refers maker maker') (h : f.body.Varies v₀ (Func.Variant v) b')
    (names : ∀ x ∈ f.declaredNames, v.declares x.name x.name)
    (new : ∀ {i i'}, v.id i i' → (max < i ↔ max' < i'))
    (ends : ∀ {s s'}, L.ids s s' →
      s'.exhausted = s.exhausted ∧ (s.exhausted = true → max' = max)) :
    Rotation.Paired L (f.Bodies v) (f.lowerChecked ⟨config.calling maker, t⟩ max)
      (lowerChecked ⟨config.calling maker', t⟩ max' { f with body := b' }) := by
  intro s s' same
  have lowered := paired_lower L config hoists respects calls h names s s' same
  rw [lowerChecked_apply, lowerChecked_apply]
  generalize f.lower ⟨config.calling maker, t⟩ s = r,
    lower ⟨config.calling maker', t⟩ { f with body := b' } s' = r' at lowered
  obtain ⟨r, s₁⟩ := r
  obtain ⟨r', s₁'⟩ := r'
  rcases lowered with spent | ⟨same, outcome⟩
  · exact .inl spent
  · obtain ⟨exhausted, limit⟩ : s₁'.ids.exhausted = s₁.ids.exhausted ∧ _ := ends same.1
    refine .inr ⟨same, ?_⟩
    cases outcome with
    | error e => exact .error e
    | @ok g g' varies =>
      simp only [Except.bind, flaw?_bodies respects new varies, exhausted]
      cases spent : s₁.ids.exhausted with
      | true =>
        rw [limit spent]
        exact .error _
      | false =>
        simp only [Bool.false_eq_true, ↓reduceIte, show (config.calling maker).verify =
          config.verify from rfl, show (config.calling maker').verify = config.verify from rfl]
        split
        · split
          · exact .error _
          · exact .ok varies
        · exact .ok varies

end Func

end

end WaitDefer
