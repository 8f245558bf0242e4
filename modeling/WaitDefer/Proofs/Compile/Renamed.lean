import WaitDefer.Proofs.Compile.Source
import WaitDefer.Proofs.Compile.Varied
import WaitDefer.Proofs.Tree.Renaming

/-!
# Compiling does not look at references

* `Block.declares_rewrite`: transforming the functions inside code leaves the names it declares;
* `Func.compile_renamed`, `Module.compile_renamed`: compiling code with renamed references gives the
  compiled code, with renamed references.
-/

namespace WaitDefer

/-! ## Names that stay -/

/-- Own code in a node declares a name with `let`. -/
def Node.DeclaresIn (n : Node) (x : Ident) : Prop := ∃ m ∈ n.ownNodes, m.declared? = some x

theorem Node.declared?_statement {s : Statement} {x : Ident} :
    (Node.statement s).declared? = some x ↔ x ∈ s.kind.declared := by
  obtain ⟨id, kind, span⟩ := s
  cases kind <;> simp [declared?, StatementKind.declared, eq_comm]

theorem Node.declaresIn_iff {n : Node} {x : Ident} :
    n.DeclaresIn x ↔ n.declared? = some x ∨ ∃ c ∈ n.children, c.DeclaresIn x := by
  constructor
  · rintro ⟨m, hm, declared⟩
    obtain ⟨i, hi⟩ : ∃ i, m.id? = some i := by
      cases m with
      | statement s => exact ⟨s.id, rfl⟩
      | _ => cases declared
    rcases (mem_ownNodes hi).mp hm with rfl | ⟨c, hc, hm⟩
    · exact .inl declared
    · exact .inr ⟨c, hc, m, hm, declared⟩
  · rintro (declared | ⟨c, hc, m, hm, declared⟩)
    · exact ⟨n, n.self_mem_ownNodes, declared⟩
    · exact ⟨m, ownNodes_of_child hc hm, declared⟩

section
variable {config : Config} {max : NodeId}

/-- Transforming the functions inside code leaves the names that the code declares. -/
theorem Block.declares_rewrite (b : Block) (s : Session) (x : Ident) :
    (Node.block (b.rewrite (.transformUnits config max) s).1).DeclaresIn x ↔
      (Node.block b).DeclaresIn x := by
  let T : Triples Session Unit := .keeping fun _ => True
  have anything {α : Type} (y : StateM Session α) : T.Of y fun _ _ => True :=
    fun _ _ => ⟨trivial, trivial⟩
  have whole : T.Of (b.rewrite (.transformUnits config max)) fun _ b' =>
      ∀ x, (Node.block b').DeclaresIn x ↔ (Node.block b).DeclaresIn x := by
    induction b using Block.inductOn (Q := fun s : Statement =>
        T.Of (s.rewrite (.transformUnits config max)) fun _ s' =>
          ∀ x, (Node.statement s').DeclaresIn x ↔ (Node.statement s).DeclaresIn x) with
    | block b ih =>
      obtain ⟨id, ss, span⟩ := b
      refine T.bind (Statement.alike_listRewrite T ih) fun ss' => T.pure fun _ alike x => ?_
      rw [Node.declaresIn_iff, Node.declaresIn_iff]
      simp only [Node.declared?, Node.children, List.mem_map, exists_exists_and_eq_and, reduceCtorEq,
        false_or]
      constructor
      · rintro ⟨s', hs', declares⟩
        obtain ⟨s, hs, same⟩ := exists_left_of_forall₂ alike hs'
        exact ⟨s, hs, (same x).mp declares⟩
      · rintro ⟨s, hs, declares⟩
        obtain ⟨s', hs', same⟩ := exists_left_of_forall₂ alike.flip hs
        exact ⟨s', hs', (same x).mpr declares⟩
    | statement s headers blocks =>
      obtain ⟨id, kind, span⟩ := s
      refine T.bind (StatementKind.alike_rewrite T (fun e _ => anything _) headers blocks
        fun f _ => anything _) fun k' => T.pure fun _ alike x => ?_
      rw [Node.declaresIn_iff, Node.declaresIn_iff, Node.declared?_statement,
        Node.declared?_statement]
      simp only [alike.declared, Node.children, List.mem_append, List.mem_map, or_and_right,
        exists_or, exists_exists_and_eq_and]
      refine or_congr Iff.rfl (or_congr ?_ ?_)
      · constructor
        · rintro ⟨h', hh', declares⟩
          obtain ⟨h, hh, same⟩ := exists_left_of_forall₂ alike.headers hh'
          exact ⟨h, hh, (same x).mp declares⟩
        · rintro ⟨h, hh, declares⟩
          obtain ⟨h', hh', same⟩ := exists_left_of_forall₂ alike.headers.flip hh
          exact ⟨h', hh', (same x).mpr declares⟩
      · constructor
        · rintro ⟨b', hb', declares⟩
          obtain ⟨b, hb, same⟩ := exists_left_of_forall₂ alike.blocks hb'
          exact ⟨b, hb, (same x).mp declares⟩
        · rintro ⟨b, hb, declares⟩
          obtain ⟨b', hb', same⟩ := exists_left_of_forall₂ alike.blocks.flip hb
          exact ⟨b', hb', (same x).mpr declares⟩
  exact (whole s trivial).2 x

end

/-! ## Names that rotation leaves alone -/

/-- No name that rotation makes up is given another. -/
def KeepsMade (g : String → String) (reserved : String) : Prop :=
  ∀ stem ∈ "a" :: NameSupply.stems, ∀ n : Nat,
    g (reserved ++ stem ++ toString n) = reserved ++ stem ++ toString n

/-- No name that some nodes bind is given another. -/
def KeepsBound (g : String → String) (ns : List Node) : Prop :=
  ∀ n ∈ ns, ∀ x ∈ n.bound, g x.name = x.name

/-- References are renamed, and what is bound keeps its name also where it is referred to. -/
def Variation.ofFreeNames (g : String → String) : Variation :=
  { ofNames g with declares := fun x x' => x' = x ∧ g x = x }

section
variable {config : Config} {max : NodeId} {g : String → String} {maker : String}

theorem Variation.by_ofFreeNames : (ofFreeNames g).By g := ⟨fun h => h, fun h => h.1, fun h => h⟩

/-- The same supplies twice. -/
def Lockstep.same (made : KeepsMade g config.reservedPrefix) : Lockstep (.ofFreeNames g) where
  counts := False
  ids s s' := s' = s
  names n n' := n' = n ∧ n.reserved = config.reservedPrefix
  fresh same := .inr (same ▸ ⟨rfl, rfl⟩)
  advance same := ⟨congrArg NameSupply.advance same.1, same.2⟩
  made := by
    rintro n n' ⟨rfl, reserved⟩ stem hs
    have kept := made stem (List.mem_cons_of_mem _ hs) n'.next
    rw [← reserved] at kept
    exact ⟨⟨rfl, kept⟩, kept.symm⟩
  argument := by
    rintro n n' ⟨rfl, reserved⟩ index
    have kept := made "a" List.mem_cons_self index
    rw [← reserved] at kept
    exact ⟨rfl, kept.symm⟩

theorem Lockstep.transforms_same (made : KeepsMade g config.reservedPrefix) (max : NodeId) :
    (Variation.ofFreeNames g).Transforms (.ofFreeNames g) (same made) max max where
  le := .refl _
  declares h := ⟨h.1, h.1.trans h.2.symm⟩
  given h := h
  varying h other := absurd h other
  new h := h ▸ Iff.rfl
  ends h := h ▸ ⟨rfl, fun _ => rfl⟩

theorem Lockstep.eq_of_same {made : KeepsMade g config.reservedPrefix} {s s' : Session}
    (h : ((same made).sessions [] []).same s s') :
    s' = s ∧ s.supply.names.reserved = config.reservedPrefix := by
  obtain ⟨⟨ids, names, reserved⟩, depth, errors, warnings⟩ := h
  obtain ⟨⟨ids, names⟩, depth, warnings, errors⟩ := s
  obtain ⟨⟨ids', names'⟩, depth', warnings', errors'⟩ := s'
  dsimp only [same, List.nil_append] at *
  subst_vars
  exact ⟨rfl, reserved⟩

variable (max) in
/-- Compiling a function with renamed references does to a session what compiling the function does,
and gives the compiled function, with renamed references. -/
theorem Func.units_renamed (made : KeepsMade g config.reservedPrefix)
    (calls : g maker = config.runtime.newCounter) {f : Func} (names : KeepsBound g f.allNodes)
    {s : Session} (reserved : s.supply.names.reserved = config.reservedPrefix) :
    let r := f.rewrite (.transformUnits (config.calling maker) max) s
    (f.renamed g).rewrite (.transformUnits config max) s = (r.1.renamed g, r.2) ∧
      r.2.supply.names.reserved = config.reservedPrefix := by
  have varies : f.Variant (.ofFreeNames g) (f.renamed g) :=
    Func.whole Variation.variant_renamed f
      ⟨fun _ _ _ _ => rfl, fun n hn x hx => ⟨rfl, names n hn x hx⟩, fun _ _ _ _ => rfl⟩
  have calls : (Variation.ofFreeNames g).refers maker config.runtime.newCounter := calls.symm
  have units := Func.paired_units config [] [] (Lockstep.transforms_same made max) calls varies
    s s ⟨⟨rfl, rfl, reserved⟩, rfl, rfl, rfl⟩
  rw [show config.calling config.runtime.newCounter = config from rfl] at units
  rcases units with spent | ⟨session, same, -⟩
  · exact spent.1.elim
  · obtain ⟨session, reserved⟩ := Lockstep.eq_of_same session
    exact ⟨Prod.ext (same.eq_renamed Variation.by_ofFreeNames) session, reserved⟩

/-! ## Functions and modules -/

/-- **Compiling a function with renamed references** gives the compiled function, with renamed
references. -/
theorem Func.compile_renamed {f : Func} (made : KeepsMade g config.reservedPrefix)
    (calls : g maker = config.runtime.newCounter) (names : KeepsBound g f.allNodes) :
    (f.renamed g).compile config =
      (f.compile (config.calling maker)).map fun r => (r.1.renamed g, r.2) := by
  have units := (units_renamed f.maxId (s := .new config f.maxId) made calls names rfl).1
  have last : (f.renamed g).maxId = f.maxId := by
    rw [maxId, maxId, ids_renamed, renamed_eq]
  unfold compile
  simp only [StateT.run, last, units]
  rw [show Session.new (config.calling maker) f.maxId = .new config f.maxId from rfl]
  unfold Session.finish
  split <;> rfl

theorem Module.lastId_renamed (m : Module) : (m.renamed g).lastId = m.lastId := by
  have ids : (m.renamed g).ids = m.ids := by
    have each (m : Module) : m.ids = m.functions.flatMap Func.ids := List.filterMap_flatMap
    rw [each, each, renamed, List.flatMap_map]
    exact List.flatMap_congr fun f _ => f.ids_renamed
  rw [lastId, lastId, maxId?, maxId?, ids]

theorem Module.units_renamed {m : Module} (made : KeepsMade g config.reservedPrefix)
    (calls : g maker = config.runtime.newCounter) (names : KeepsBound g m.allNodes) :
    let r := m.rewrite (.transformUnits (config.calling maker) max) (.new config max)
    (m.renamed g).rewrite (.transformUnits config max) (.new config max) =
      (r.1.renamed g, r.2) := by
  have each (fs : List Func) (names : ∀ f ∈ fs, KeepsBound g f.allNodes) {s : Session}
      (reserved : s.supply.names.reserved = config.reservedPrefix) :
      (fs.map (Func.renamed g)).mapM (Func.rewrite (.transformUnits config max)) s =
        ((fs.mapM (Func.rewrite (.transformUnits (config.calling maker) max)) s).1.map
            (Func.renamed g),
          (fs.mapM (Func.rewrite (.transformUnits (config.calling maker) max)) s).2) := by
    induction fs generalizing s with
    | nil => rfl
    | cons f fs ih =>
      obtain ⟨unit, reserved⟩ :=
        Func.units_renamed max made calls (names f List.mem_cons_self) reserved
      have rest := ih (fun f hf => names f (List.mem_cons_of_mem _ hf)) reserved
      simp only [List.map_cons, List.mapM_cons, StateM.bind_apply, unit, rest]
      rfl
  have functions := each m.functions (fun f hf n hn => names n (List.mem_flatMap.mpr ⟨f, hf, hn⟩))
    (s := .new config max) rfl
  simp only [rewrite, renamed, StateM.bind_apply, functions]
  rfl

theorem Module.session_renamed {m : Module} (made : KeepsMade g config.reservedPrefix)
    (calls : g maker = config.runtime.newCounter) (names : KeepsBound g m.allNodes) :
    (m.renamed g).session config = m.session (config.calling maker) := by
  rw [session, lastId_renamed, units_renamed made calls names]
  rfl

/-- **Compiling a module with renamed references** gives the compiled module, with renamed
references. -/
theorem Module.compile_renamed {m : Module} (made : KeepsMade g config.reservedPrefix)
    (calls : g maker = config.runtime.newCounter) (names : KeepsBound g m.allNodes) :
    (m.renamed g).compile config =
      (m.compile (config.calling maker)).map fun r => (r.1.renamed g, r.2) := by
  have whole (config : Config) (m : Module) : m.compile config =
      (m.rewrite (.transformUnits config m.lastId) (.new config m.lastId)).2.finish
        (m.rewrite (.transformUnits config m.lastId) (.new config m.lastId)).1 := rfl
  rw [whole, whole, lastId_renamed, units_renamed made calls names,
    show Session.new (config.calling maker) m.lastId = .new config m.lastId from rfl]
  unfold Session.finish
  split <;> rfl

end

end WaitDefer
