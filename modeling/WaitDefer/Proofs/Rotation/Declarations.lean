import WaitDefer.Proofs.Rotation.Hoisted
import WaitDefer.Proofs.Tree.Congruent

/-!
# What hoisting does

A function is hoisted: its declarations become assignments, and each name is declared once at the
top. Here this is said without the passes that do it:

* `Block.Assigns`, `Statement.Assigns`: the same code, with assignments in place of declarations;
* `Ident.find?_of_mem_firsts`, `Ident.pairwise_firsts`: of each name the first place is kept, in
  order;
* `Func.Hoists`: what a function, what was drawn for it, and its result have to do with each other;
* `Func.hoists_hoist`: hoisting makes them so.
-/

namespace WaitDefer

/-! ## Assignments in place of declarations -/

mutual

/-- The same block, with assignments in place of declarations. -/
inductive Block.Assigns : Block → Block → Prop
  | block (id : NodeId) (span : Span) {ss ss' : List Statement}
    (statements : List.Forall₂ Statement.Assigns ss ss') : Block.Assigns ⟨id, ss, span⟩ ⟨id, ss', span⟩

/-- The same statement, with assignments in place of declarations. Expressions and functions inside
are the same. -/
inductive Statement.Assigns : Statement → Statement → Prop
  | declaration (id : NodeId) (name : Ident) (init : Option Expr) (span : Span) :
    Statement.Assigns ⟨id, .declare name init, span⟩
      ⟨id, .assign (.ident name) (init.getD (.null name.span)), span⟩
  | other (id : NodeId) (span : Span) {k k' : StatementKind} (undeclared : k.declared = [])
    (parts : k.Congruent Eq Statement.Assigns Block.Assigns Eq k') :
    Statement.Assigns ⟨id, k, span⟩ ⟨id, k', span⟩

end

/-- A statement that is no declaration is the same but for its blocks and the head of a loop. -/
theorem StatementKind.congruent_undeclared {kind : StatementKind} (undeclared : kind.declared = [])
    (headers : ∀ h ∈ kind.headers, h.Assigns h.undeclared)
    (blocks : ∀ b ∈ kind.blocks, b.Assigns b.undeclared) :
    kind.Congruent Eq Statement.Assigns Block.Assigns Eq kind.undeclared := by
  have optional {α β : Type} {R : α → β → Prop} {g : α → β} {o : Option α} (h : ∀ a ∈ o, R a (g a)) :
      Option.Rel R o (o.map g) := by
    cases o with
    | none => exact .none
    | some a => exact .some (h a rfl)
  have same (o : Option Expr) : Option.Rel Eq o o := by
    cases o with
    | none => exact .none
    | some a => exact .some rfl
  cases kind with
  | declare name init => cases undeclared
  | assign target value => exact .assign rfl rfl
  | expr value => exact .expr rfl
  | ret value => exact .ret (same value)
  | block body => exact .block (blocks body (by simp [StatementKind.blocks]))
  | branch condition yes no =>
    have inYes := blocks yes (by simp [StatementKind.blocks])
    cases no with
    | none => exact .branch rfl inYes .none
    | some no => exact .branch rfl inYes (.some (blocks no (by simp [StatementKind.blocks])))
  | switch subject arms otherwise =>
    have inArms : List.Forall₂ (Arm.Congruent Eq Block.Assigns) arms (Arm.listUndeclared arms) := by
      have bodies : ∀ a ∈ arms, a.body.Assigns a.body.undeclared := fun a ha =>
        blocks a.body (by simp only [StatementKind.blocks]; grind)
      clear blocks headers undeclared
      induction arms with
      | nil => exact .nil
      | cons a arms ih =>
        have first := bodies a List.mem_cons_self
        obtain ⟨test, body, span⟩ := a
        exact .cons (.arm span rfl first) (ih fun a ha => bodies a (List.mem_cons_of_mem _ ha))
    cases otherwise with
    | none => exact .switch rfl inArms .none
    | some b => exact .switch rfl inArms (.some (blocks b (by simp [StatementKind.blocks])))
  | loop label head body =>
    have inBody := blocks body (by simp [StatementKind.blocks])
    cases head with
    | whileDo condition => exact .loop label (.whileDo rfl) inBody
    | doWhile condition => exact .loop label (.doWhile rfl) inBody
    | counting init test update =>
      have first : Option.Rel Statement.Assigns init (init.map Statement.undeclared) :=
        optional fun h hh => headers h (List.mem_append_left _ (Option.mem_toList.mpr hh))
      have last : Option.Rel Statement.Assigns update (update.map Statement.undeclared) :=
        optional fun h hh => headers h (List.mem_append_right _ (Option.mem_toList.mpr hh))
      have whole := StatementKind.Congruent.loop (F := Eq) label
        (.counting first (same test) last) inBody (h := .counting init test update)
      cases init <;> cases update <;> exact whole
  | jump kind label => exact .jump kind label
  | wait body => exact .wait (blocks body (by simp [StatementKind.blocks]))
  | func f => exact .func rfl

theorem Block.assigns_undeclared (b : Block) : b.Assigns b.undeclared := by
  induction b using Block.inductOn (Q := fun s => s.Assigns s.undeclared) with
  | block b ih =>
    obtain ⟨id, ss, span⟩ := b
    rw [Block.undeclared_eq]
    refine .block id span ?_
    rw [List.forall₂_map_right_iff, List.forall₂_same]
    exact ih
  | statement s headers blocks =>
    obtain ⟨id, kind, span⟩ := s
    cases declared : kind.declared with
    | nil => exact .other id span declared (StatementKind.congruent_undeclared declared headers blocks)
    | cons x xs =>
      obtain ⟨name, init, rfl⟩ : ∃ name init, kind = .declare name init := by
        cases kind <;> simp_all [StatementKind.declared]
      exact .declaration id name init span

/-! ## First places -/

namespace Ident

/-- Of every name that is declared one place is kept. -/
theorem exists_firsts {is : List Ident} {x : Ident} (h : x ∈ is) :
    ∃ y ∈ firsts is, y.name = x.name := by
  induction is with
  | nil => cases h
  | cons i is ih =>
    by_cases same : i.name = x.name
    · exact ⟨i, List.mem_cons_self, same⟩
    · rcases List.mem_cons.mp h with rfl | h
      · exact absurd rfl same
      · obtain ⟨y, hy, named⟩ := ih h
        refine ⟨y, List.mem_cons_of_mem _ (List.mem_filter.mpr ⟨hy, ?_⟩), named⟩
        rw [named, bne_iff_ne]
        exact fun h => same h.symm

theorem find?_of_mem_firsts {is : List Ident} {i : Ident} (h : i ∈ firsts is) :
    is.find? (·.name == i.name) = some i := by
  induction is with
  | nil => cases h
  | cons j is ih =>
    rcases List.mem_cons.mp h with rfl | h
    · simp
    · obtain ⟨h, other⟩ := List.mem_filter.mp h
      rw [List.find?_cons_of_neg, ih h]
      intro same
      simp [eq_of_beq same] at other

theorem firsts_filter (p : String → Bool) (is : List Ident) :
    firsts (is.filter fun i => p i.name) = (firsts is).filter fun i => p i.name := by
  induction is with
  | nil => rfl
  | cons i is ih =>
    cases h : p i.name with
    | true =>
      have kept (l : List Ident) : (i :: l).filter (fun i => p i.name) =
          i :: l.filter fun i => p i.name := List.filter_cons_of_pos h
      rw [kept, firsts, firsts, kept, ih, List.filter_comm]
    | false =>
      have dropped (l : List Ident) : (i :: l).filter (fun i => p i.name) =
          l.filter fun i => p i.name := List.filter_cons_of_neg (by simp [h])
      rw [dropped, firsts, dropped, ih, List.filter_filter]
      -- what is kept is not named like the one left out
      refine List.filter_congr fun j _ => ?_
      by_cases same : j.name = i.name
      · simp [same, h]
      · simp [same]

/-- The first places are in the order in which their names come up. -/
theorem pairwise_firsts (is : List Ident) : (firsts is).Pairwise fun i j =>
    (is.map name).idxOf i.name < (is.map name).idxOf j.name := by
  induction is with
  | nil => exact .nil
  | cons k is ih =>
    have later {i : Ident} (h : i ∈ (firsts is).filter (·.name != k.name)) :
        ((k :: is).map name).idxOf i.name = (is.map name).idxOf i.name + 1 := by
      have other := (List.mem_filter.mp h).2
      rw [List.map_cons, List.idxOf_cons_ne]
      intro same
      simp [same] at other
    refine .cons (fun i hi => ?_) ?_
    · rw [later hi, List.map_cons, List.idxOf_cons_self]
      exact Nat.succ_pos _
    · refine (ih.filter _).imp_of_mem fun hi hj before => ?_
      rw [later hi, later hj]
      exact Nat.succ_lt_succ before

end Ident

/-- The places where a function's own code declares something, in the order of the walk. -/
def Func.lets (f : Func) : List Ident := f.body.ownNodes.filterMap Node.declared?

theorem Func.declaredNames_eq (f : Func) : f.declaredNames =
    (Ident.firsts f.lets).filter fun i => i.name ∉ f.params.map Ident.name := by
  have known (i : Ident) :
      (!f.params.any (·.name == i.name)) = decide (i.name ∉ f.params.map Ident.name) := by
    rw [Bool.eq_iff_iff]
    simp
  have same := Ident.firsts_filter (fun x => decide (x ∉ f.params.map Ident.name)) f.lets
  simp only [declaredNames, known]
  exact same

theorem Func.mem_declaredNames_iff (f : Func) {x : String} : x ∈ f.declaredNames.map Ident.name ↔
    x ∈ f.lets.map Ident.name ∧ x ∉ f.params.map Ident.name := by
  rw [declaredNames_eq]
  constructor
  · intro hx
    obtain ⟨i, hi, rfl⟩ := List.mem_map.mp hx
    obtain ⟨hi, other⟩ := List.mem_filter.mp hi
    refine ⟨List.mem_map_of_mem ?_, by simpa using other⟩
    exact List.mem_of_find?_eq_some (Ident.find?_of_mem_firsts hi)
  · rintro ⟨hx, other⟩
    obtain ⟨i, hi, rfl⟩ := List.mem_map.mp hx
    obtain ⟨j, hj, same⟩ := Ident.exists_firsts hi
    refine List.mem_map.mpr ⟨j, List.mem_filter.mpr ⟨hj, ?_⟩, same⟩
    rw [same]
    exact decide_eq_true other

/-! ## Ids -/

theorem declarations_keeps (is : List Ident) (s : IdSupply) (h : s.exhausted = true) :
    (declarations is s).2.exhausted = true := by
  induction is generalizing s with
  | nil => exact h
  | cons i is ih =>
    refine ih s.fresh.2 ?_
    unfold IdSupply.fresh
    split
    · exact h
    · rfl

/-- The ids that are drawn follow each other, unless there are too few. -/
theorem declarations_ids (is : List Ident) (s : IdSupply)
    (enough : (declarations is s).2.exhausted = false) :
    is = [] ∨ ∃ n, s.next = some n ∧
      (declarations is s).1.map Statement.id = List.range' n is.length := by
  induction is generalizing s with
  | nil => exact .inl rfl
  | cons i is ih =>
    right
    have rest : (declarations is s.fresh.2).2.exhausted = false := enough
    have drawn : (declarations (i :: is) s).1.map Statement.id =
        s.fresh.1 :: (declarations is s.fresh.2).1.map Statement.id := rfl
    rw [drawn]
    cases next : s.next with
    | none =>
      have exhausted : s.fresh.2.exhausted = true := by simp [IdSupply.fresh, next]
      rw [declarations_keeps is _ exhausted] at rest
      cases rest
    | some n =>
      have fresh : s.fresh = (n, { s with next := IdSupply.successor n }) := by
        simp [IdSupply.fresh, next]
      refine ⟨n, rfl, ?_⟩
      rcases ih _ rest with rfl | ⟨m, after, ids⟩
      · rw [fresh]
        rfl
      · have : m = n + 1 := by
          rw [fresh] at after
          simp only [IdSupply.successor] at after
          split at after <;> simp_all
        rw [ids, this, fresh, List.length_cons, List.range'_succ]

theorem declarations_each (is : List Ident) (s : IdSupply) :
    List.Forall₂ (fun i d => d = .declaration d.id i) is (declarations is s).1 := by
  induction is generalizing s with
  | nil => exact .nil
  | cons i is ih => exact .cons rfl (ih _)

/-! ## The contract -/

/-- No declaration is left where assignments have taken their place. -/
theorem Block.lets_undeclared (b : Block) : b.undeclared.ownNodes.filterMap Node.declared? = [] := by
  have bare : ∀ n : Node, n.id? = none → n.declared? = none := by
    intro n hn
    cases n <;> first | rfl | cases hn
  suffices (Node.block b.undeclared).ownNodes.filterMap Node.declared? = [] from this
  induction b using Block.inductOn (Q := fun s =>
      (Node.statement s.undeclared).ownNodes.filterMap Node.declared? = []) with
  | block b ih =>
    refine List.Perm.eq_nil ?_
    refine (Node.filterMap_ownNodes bare _).trans (.of_eq ?_)
    rw [Block.undeclared_eq, Node.children, List.map_map, List.flatMap_map]
    exact List.flatMap_eq_nil_iff.mpr ih
  | statement s headers blocks =>
    refine List.Perm.eq_nil ?_
    refine (Node.filterMap_ownNodes bare _).trans (.of_eq ?_)
    have own : (Node.statement s.undeclared).declared? = none := by
      obtain ⟨id, kind, span⟩ := s
      cases kind with
      | branch condition yes no => cases no <;> rfl
      | switch subject arms otherwise => cases otherwise <;> rfl
      | loop label head body => cases head <;> rfl
      | _ => rfl
    rw [own, Option.toList_none, List.nil_append, Node.children, Statement.undeclared_eq,
      StatementKind.headers_undeclared, StatementKind.blocks_undeclared, List.map_map, List.map_map,
      List.flatMap_append, List.flatMap_map, List.flatMap_map]
    exact List.append_eq_nil_iff.mpr
      ⟨List.flatMap_eq_nil_iff.mpr headers, List.flatMap_eq_nil_iff.mpr blocks⟩

/-- A declaration at the top declares its name and nothing else. -/
theorem declarations_lets (is : List Ident) (s : IdSupply) :
    (declarations is s).1.flatMap (fun d => d.ownNodes.filterMap Node.declared?) = is := by
  induction is generalizing s with
  | nil => rfl
  | cons i is ih => exact congrArg (i :: ·) (ih s.fresh.2)

/-- The own declarations of a body are those of its statements, one after the other. -/
theorem Block.lets_eq (b : Block) : b.ownNodes.filterMap Node.declared? =
    b.statements.flatMap fun d => d.ownNodes.filterMap Node.declared? := by
  rw [Block.ownNodes, Block.nodes_eq, List.filterMap_cons_none rfl, List.filterMap_flatMap]
  rfl

theorem Block.assigns_statements (b : Block) :
    List.Forall₂ Statement.Assigns b.statements b.undeclared.statements := by
  have body := b.assigns_undeclared
  obtain ⟨id, ss, span⟩ := b
  rw [Block.undeclared_eq] at body ⊢
  cases body with
  | block id span statements => exact statements

theorem declarations_declare (f : Func) (s : IdSupply) :
    List.Forall₂ (fun x d => ∃ i, f.lets.find? (·.name == x) = some i ∧
      d.kind = .declare i none ∧ d.span = i.span)
      (f.declaredNames.map Ident.name) (declarations f.declaredNames s).1 := by
  have first : ∀ i ∈ f.declaredNames, f.lets.find? (·.name == i.name) = some i := by
    intro i hi
    rw [Func.declaredNames_eq] at hi
    exact Ident.find?_of_mem_firsts (List.mem_filter.mp hi).1
  rw [List.forall₂_map_left_iff]
  refine ((List.forall₂_and_left _ _).mpr ⟨first, declarations_each f.declaredNames s⟩).imp ?_
  rintro i d ⟨found, same⟩
  exact ⟨i, found, by rw [same]; rfl, by rw [same]; rfl⟩

/-- What hoisting a function has to do: `names` are declared by `ds`, which come before the old
statements, now `old`; `s` and `s'` are the supplies before and after. -/
structure Func.Hoists (f : Func) (names : List String) (ds old : List Statement)
    (s s' : IdSupply) : Prop where
  distinct : names.Nodup
  /-- The names are those that own code declares, other than the parameters. -/
  mem_iff : ∀ x, x ∈ names ↔ x ∈ f.lets.map Ident.name ∧ x ∉ f.params.map Ident.name
  /-- A name comes before another if it is declared before it. -/
  inOrder : names.Pairwise fun x y =>
    (f.lets.map Ident.name).idxOf x < (f.lets.map Ident.name).idxOf y
  /-- Each is declared without a value, as it stands where it is declared first. -/
  declares : List.Forall₂ (fun x d => ∃ i, f.lets.find? (·.name == x) = some i ∧
    d.kind = .declare i none ∧ d.span = i.span) names ds
  /-- Ids are drawn one after the other. -/
  drawn : s'.exhausted = false → names = [] ∨
    ∃ n, s.next = some n ∧ ds.map Statement.id = List.range' n names.length
  /-- So they are distinct and new, if the supply is above the function. -/
  fresh : s'.exhausted = false → (∀ n, s.next = some n → ∀ i ∈ f.ids, i < n) →
    (ds.map Statement.id).Nodup ∧ ∀ d ∈ ds, d.id ∉ f.ids
  /-- In the old statements declarations have become assignments. -/
  assigns : List.Forall₂ Statement.Assigns f.body.statements old
  /-- The declarations at the top are the only ones left. -/
  only : (Func.lets { f with body := { f.body with statements := ds ++ old } }).map Ident.name =
    names

/-- **Hoisting does what it has to do**, for every function and every supply. -/
theorem Func.hoists_hoist (f : Func) (s : IdSupply) : ∃ names ds old s',
    f.hoist s = (({ f with body := { f.body with statements := ds ++ old } }, names), s') ∧
      f.Hoists names ds old s s' := by
  refine ⟨_, _, _, _, rfl, ?_⟩
  have ids := declarations_ids f.declaredNames s
  have ordered : (f.declaredNames.map Ident.name).Pairwise fun x y =>
      (f.lets.map Ident.name).idxOf x < (f.lets.map Ident.name).idxOf y := by
    rw [List.pairwise_map, declaredNames_eq]
    exact (Ident.pairwise_firsts _).filter _
  refine ⟨?distinct, fun x => f.mem_declaredNames_iff, ordered, declarations_declare f s, ?drawn,
    fun enough above => ?fresh, f.body.assigns_statements, ?only⟩
  case distinct => exact ordered.imp fun before same => by simp [same] at before
  case drawn =>
    rw [List.map_eq_nil_iff, List.length_map]
    exact ids
  case fresh =>
    rcases ids enough with none | ⟨n, next, ids⟩
    · rw [none]
      exact ⟨.nil, fun d hd => nomatch hd⟩
    · rw [ids]
      refine ⟨List.nodup_range', fun d hd old => ?_⟩
      have drawn : d.id ∈ List.range' n f.declaredNames.length := ids ▸ List.mem_map_of_mem hd
      exact Nat.not_lt_of_le (List.left_le_of_mem_range' drawn) (above n next _ old)
  case only =>
    have none := f.body.lets_undeclared
    rw [Block.lets_eq] at none
    rw [lets, Block.lets_eq]
    dsimp only
    rw [List.flatMap_append, declarations_lets, none, List.append_nil]

end WaitDefer
