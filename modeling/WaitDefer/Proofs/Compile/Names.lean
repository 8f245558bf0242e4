import Mathlib.Algebra.Order.BigOperators.Group.List
import Mathlib.Algebra.Order.Group.Nat
import WaitDefer.Proofs.Compile.Renamed
import WaitDefer.Proofs.Compile.Scoped

/-!
# Made-up names

Rotation makes up names for routines and counters. In a compiled module each of them is bound once,
no name of the module is among them, and references that rotation made are well scoped:

* `Module.unreserved_of_compile`: a module that compiles binds no reserved name;
* `Module.count_le_one_of_compile`: made-up names are bound at most once;
* `Module.exists_hidden`: a module may itself mention such names; its references can be told from
  those that rotation makes by giving them other names;
* `Module.wellNamed_of_compile`: all of it.
-/

namespace WaitDefer

open Session

/-! ## Names that are bound -/

/-- All names that a module binds. -/
def Module.boundNames (m : Module) : List String :=
  m.allNodes.flatMap fun n => n.bound.map Ident.name

section
variable {config : Config} {max : NodeId}

/-! ## Names of the source -/

/-- None of some nodes binds a reserved name. -/
def Unreserved (config : Config) (ns : List Node) : Prop :=
  ∀ n ∈ ns, ∀ x ∈ n.bound, config.isReserved x.name = false

theorem Func.marked_transform (f : Func) :
    (Session.sound config max).Of (f.transform config max) fun _ _ =>
      (∀ x ∈ f.name.toList ++ f.params, config.isReserved x.name = false) ∧
        ∀ x, (Node.block f.body).DeclaresIn x → config.isReserved x.name = false := by
  have marked (marking : Marking) (ok : f.marking config = .ok marking) :
      (∀ x ∈ f.name.toList ++ f.params, config.isReserved x.name = false) ∧
        ∀ x, (Node.block f.body).DeclaresIn x → config.isReserved x.name = false := by
    refine ⟨(marking_spec ok).1.names, fun x ⟨n, hn, declared⟩ => ?_⟩
    exact not_reserved_of_marking ok hn declared
  exact makes_transform (fun marking ok _ => marked marking ok) fun marking _ _ _ _ _ _ ok _ _ _ _ =>
    marked marking ok

/-- A unit that is transformed without an error binds no reserved name, nor do units inside. -/
theorem Func.unreserved_units :
    let T := Session.sound config max
    let r := Rewriting.transformUnits config max
    let Own := fun n : Node => ∀ x, n.DeclaresIn x → config.isReserved x.name = false
    Cases (fun e => T.Of (e.rewrite r) fun _ _ => Unreserved config (e.nodes fun _ => true))
      (fun f => T.Of (f.rewrite r) fun _ _ => Unreserved config f.allNodes)
      (fun b => T.Of (b.rewrite r) fun _ _ =>
        Own (.block b) → Unreserved config (b.nodes fun _ => true))
      fun s => T.Of (s.rewrite r) fun _ _ =>
        Own (.statement s) → Unreserved config (s.nodes fun _ => true) where
  expr e operands functions := by
    refine Triples.weaken _ (Expr.alike_rewrite _ (fun _ => rfl) operands functions)
      fun _ e' alike n hn => ?_
    rw [Expr.nodes_parts] at hn
    simp only [List.mem_cons, List.mem_append, List.mem_flatMap, List.mem_map] at hn
    rcases hn with rfl | (⟨o, ho, hn⟩ | ⟨i, -, rfl⟩) | ⟨f, hf, hn⟩
    · simp [Node.bound]
    · obtain ⟨-, -, inside⟩ := exists_left_of_forall₂ alike.operands.flip ho
      exact inside n hn
    · simp [Node.bound]
    · obtain ⟨-, -, inside⟩ := exists_left_of_forall₂ alike.functions.flip hf
      exact inside n hn
  func f body := by
    refine spending_of.mpr fun s => ?_
    rw [Func.rewrite_transformUnits]
    split
    · exact ⟨fun none => absurd none (fail_errors _ _), fun _ none => absurd none (fail_errors _ _)⟩
    · have kept := sound_and (Q := fun b => ∀ x,
        (Node.block b).DeclaresIn x ↔ (Node.block f.body).DeclaresIn x) body f.body.declares_rewrite
      refine Triples.bind (Session.sound config max) (Q := fun _ _ => Unreserved config f.allNodes)
        (sound_of.mpr (spending_deeper (sound_of.mp kept)))
        (fun b => Triples.weaken _ (Func.marked_transform { f with body := b }) ?_) s
      rintro - - ⟨names, own⟩ ⟨inside, same⟩ n hn
      have declares x (h : (Node.block f.body).DeclaresIn x) := own x ((same x).mpr h)
      rw [f.allNodes_eq] at hn
      simp only [List.mem_cons, List.mem_append, List.mem_map] at hn
      rcases hn with rfl | (⟨i, -, rfl⟩ | ⟨i, -, rfl⟩) | hn
      · exact names
      · simp [Node.bound]
      · simp [Node.bound]
      · exact inside declares n hn
  block b statements := by
    obtain ⟨id, ss, span⟩ := b
    refine Triples.bind _ (Statement.alike_listRewrite _ statements) fun ss' =>
      Triples.pure _ fun _ inside own n hn => ?_
    rw [Block.nodes_eq, List.mem_cons, List.mem_flatMap] at hn
    rcases hn with rfl | ⟨s, hs, hn⟩
    · simp [Node.bound]
    · obtain ⟨-, -, unreserved⟩ := exists_left_of_forall₂ inside.flip hs
      refine unreserved (fun x declares => own x (Node.declaresIn_iff.mpr (.inr ?_))) n hn
      exact ⟨_, List.mem_map_of_mem hs, declares⟩
  statement s exprs headers blocks functions := by
    obtain ⟨id, kind, span⟩ := s
    refine Triples.bind _ (StatementKind.alike_rewrite _ exprs headers blocks functions) fun k' =>
      Triples.pure _ fun _ alike own n hn => ?_
    have child {c : Node} (hc : c ∈ (Node.statement ⟨id, kind, span⟩).children) x
        (declares : c.DeclaresIn x) : config.isReserved x.name = false :=
      own x (Node.declaresIn_iff.mpr (.inr ⟨c, hc, declares⟩))
    rcases Statement.mem_nodes_iff.mp hn with rfl | ⟨i, -, rfl⟩ | ⟨e, he, hn⟩ | ⟨h, hh, hn⟩ |
      ⟨b, hb, hn⟩ | ⟨f, hf, hn⟩
    · exact fun x hx => own x (Node.declaresIn_iff.mpr (.inl (Node.declared?_statement.mpr hx)))
    · simp [Node.bound]
    · obtain ⟨-, -, inside⟩ :=
        exists_left_of_forall₂ (List.rel_append alike.tests alike.operands).flip he
      exact inside n hn
    · obtain ⟨-, -, inside⟩ := exists_left_of_forall₂ alike.headers.flip hh
      exact inside (child (List.mem_append_left _ (List.mem_map_of_mem hh))) n hn
    · obtain ⟨-, -, inside⟩ := exists_left_of_forall₂ alike.blocks.flip hb
      exact inside (child (List.mem_append_right _ (List.mem_map_of_mem hb))) n hn
    · obtain ⟨-, -, inside⟩ := exists_left_of_forall₂ alike.functions.flip hf
      exact inside n hn

/-- A module that compiles binds no reserved name. -/
theorem Module.unreserved_of_compile {m out : Module} {ws : List EmptyWait}
    (ok : m.compile config = .ok (out, ws)) : Unreserved config m.allNodes := by
  have units := functions_of_compile (P := fun f _ => Unreserved config f.allNodes)
    (fun f _ => Func.whole Func.unreserved_units f) ok
  intro n hn
  obtain ⟨f, hf, hn⟩ := List.mem_flatMap.mp hn
  obtain ⟨-, -, inside⟩ := exists_left_of_forall₂ units.flip hf
  exact inside n hn

/-! ## Bound once -/

/-- A made-up name is not one of a callback's parameter. -/
theorem Config.MakesUp.ne_argument {x : String} (h : config.MakesUp x) (n : Nat) :
    config.reservedPrefix ++ "a" ++ toString n ≠ x := by
  obtain ⟨m, stem, hs, rfl⟩ := h
  intro same
  rw [String.append_assoc, String.append_assoc, String.append_right_inj] at same
  have chars := congrArg String.toList same
  simp only [NameSupply.stems, List.mem_cons, List.not_mem_nil, or_false] at hs
  rcases hs with rfl | rfl | rfl | rfl <;> simp at chars

namespace Weighing

/-- Every node counts for the times that it binds a name. -/
def binds (x : String) : Weighing String where
  enter _ _ _ := true
  func _ name params := ↑(((name.toList ++ params).map Ident.name).filter (· == x))
  block _ := 0
  statement _ declared _ _ := ↑((declared.map Ident.name).filter (· == x))
  binding _ := 0

variable {x : String}

theorem charges_binds (made : config.MakesUp x) :
    (binds x).Charges config.reservedPrefix (max < ·) (fun _ => 0)
      fun name => ↑([name].filter (· == x)) where
  block _ := le_refl _
  statement _ := le_refl _
  assignment _ _ := le_refl _
  callback i params named := by
    refine le_of_eq ((Multiset.coe_eq_zero _).mpr (List.filter_eq_nil_iff.mpr ?_))
    intro y hy same
    obtain ⟨p, hp, rfl⟩ := List.mem_map.mp hy
    obtain ⟨n, argument⟩ := named p hp
    exact made.ne_argument n (by rw [← argument, eq_of_beq same])
  routine i j name span := by simp [binds]
  counter i name span := by simp [binds]
  continuation i j body span _ inside := by
    have inside : bagOf (binds x).ofStatement body = 0 := bagOf_eq_zero fun s hs => by
      obtain ⟨k, call, rfl, weight⟩ := inside s hs
      rw [callWith_eq, weight]
      rfl
    rw [expr_eq]
    simp only [Expr.bound, Expr.operands, Expr.functions, bagOf_nil, bagOf_cons, func_eq, block_eq,
      inside]
    simp [binds]

theorem hoists_binds (made : config.MakesUp x) :
    (binds x).Hoists (fun _ => 0) fun y => config.isReserved y.name = false where
  assigns i y _ := Multiset.zero_le _
  declares i y unreserved := by
    have other : y.name ≠ x := by
      rintro rfl
      rw [config.reserved_of_makesUp made] at unreserved
      cases unreserved
    simp [binds, other]

theorem binds_ofModule (x : String) (m : Module) :
    (binds x).ofModule m = ↑(m.boundNames.filter (· == x)) := by
  have nodes (ns : List Node) : bagOf (binds x).node ns =
      ↑((ns.flatMap fun n => n.bound.map Ident.name).filter (· == x)) := by
    induction ns with
    | nil => rfl
    | cons n ns ih =>
      rw [bagOf_cons, ih, List.flatMap_cons, List.filter_append, ← Multiset.coe_add]
      cases n with
      | expr e =>
        have : bagOf (binds x).binding e.bound = 0 := bagOf_eq_zero fun _ _ => rfl
        simp only [node, this, Node.bound, List.map_nil, List.filter_nil, Multiset.coe_nil]
      | _ => rfl
  rw [Module.boundNames, ← nodes, Module.allNodes, bagOf_flatMap]
  rfl

end Weighing

theorem bind_filter_beq (names : Multiset String) (x : String) :
    (names.bind fun name => (↑([name].filter (· == x)) : Multiset String)) =
      Multiset.replicate (names.count x) x := by
  induction names using Multiset.induction with
  | empty => rfl
  | cons name names ih =>
    rw [Multiset.cons_bind, ih]
    by_cases same : name = x
    · subst same
      simp [Multiset.replicate_succ]
    · simp [same, Multiset.count_cons_of_ne (Ne.symm same)]

/-- In a compiled module a made-up name is bound at most once. -/
theorem Module.count_le_one_of_compile {m out : Module} {ws : List EmptyWait}
    (ok : m.compile config = .ok (out, ws)) {x : String} (made : config.MakesUp x) :
    out.boundNames.count x ≤ 1 := by
  obtain ⟨ids, names, last, -, -, numbered, weight⟩ :=
    weighs_compile (Weighing.charges_binds made) (Weighing.hoists_binds made) ok
  have source : m.boundNames.filter (· == x) = [] := by
    rw [List.filter_eq_nil_iff]
    intro y hy same
    obtain ⟨n, hn, hy⟩ := List.mem_flatMap.mp hy
    obtain ⟨i, hi, rfl⟩ := List.mem_map.mp hy
    have unreserved := unreserved_of_compile ok n hn i hi
    rw [eq_of_beq same, config.reserved_of_makesUp made] at unreserved
    cases unreserved
  have nothing : (ids.bind fun _ => (0 : Multiset String)) = 0 := by simp
  rw [Weighing.binds_ofModule, Weighing.binds_ofModule, source, nothing,
    bind_filter_beq] at weight
  have few := Multiset.card_le_card weight
  rw [Multiset.coe_nil, zero_add, zero_add, Multiset.coe_card, Multiset.card_replicate,
    ← List.countP_eq_length_filter] at few
  exact few.trans (Multiset.nodup_iff_count_le_one.mp numbered.nodup x)

/-! ## References that rotation makes -/

/-- A module in which no reference is to a made-up name, with a name for the runtime's function that
is not made up either. Giving references and function other names makes it `m`, but leaves made-up
names as they are. -/
structure Module.Hides (config : Config) (m hidden : Module) (maker : String)
    (shown : String → String) : Prop where
  references : hidden.renamed shown = m
  runtime : shown maker = config.runtime.newCounter
  made : ∀ x, config.MakesUp x → shown x = x
  unmentioned : Unmentioned config.MakesUp hidden.allNodes
  other : ¬ config.MakesUp maker

/-- Something put before every reference, to tell it from those that rotation makes. -/
def mask (length : Nat) : List Char := List.replicate length '#'

/-- A name with the mask put before it. -/
def masked (length : Nat) (x : String) : String := String.ofList (mask length ++ x.toList)

/-- A name without the mask, if it has one. -/
def unmasked (length : Nat) (x : String) : String :=
  if mask length <+: x.toList then String.ofList (x.toList.drop length) else x

theorem unmasked_masked (length : Nat) (x : String) : unmasked length (masked length x) = x := by
  have long : (mask length).length = length := List.length_replicate
  have isMasked : mask length <+: (masked length x).toList := by
    rw [masked, String.toList_ofList]
    exact List.prefix_append _ _
  rw [unmasked, if_pos isMasked, masked, String.toList_ofList, List.drop_left' long,
    String.ofList_toList]

theorem unmasked_of_short {length : Nat} {x : String} (short : x.length < length) :
    unmasked length x = x := by
  refine if_neg fun h => ?_
  have := h.length_le
  rw [mask, List.length_replicate, String.length_toList] at this
  omega

/-- A mask longer than the reserved part is not the beginning of a name that is made up: its stem
begins with a letter. -/
theorem not_mask_made {length : Nat} {reserved stem : String} (long : reserved.length < length)
    (hs : stem ∈ "a" :: NameSupply.stems) (number : String) :
    ¬ mask length <+: (reserved ++ stem ++ number).toList := by
  rintro ⟨after, same⟩
  have first := congrArg (fun l => l[reserved.toList.length]?) same
  have inMask : reserved.toList.length < (mask length).length := by
    rwa [mask, List.length_replicate, String.length_toList]
  simp only [String.toList_append, List.append_assoc] at first
  rw [List.getElem?_append_left inMask, List.getElem?_append_right (Nat.le_refl _), mask,
    List.getElem?_replicate_of_lt (by rwa [String.length_toList]), Nat.sub_self] at first
  simp only [NameSupply.stems, List.mem_cons, List.not_mem_nil, or_false] at hs
  rcases hs with rfl | rfl | rfl | rfl | rfl <;> simp at first

theorem Module.boundNames_renamed (g : String → String) (m : Module) :
    (m.renamed g).boundNames = m.boundNames := by
  have each (m : Module) : m.boundNames =
      m.functions.flatMap fun f => (f.allNodes.flatMap Node.bound).map Ident.name := by
    simp only [boundNames, allNodes, List.flatMap_assoc, List.map_flatMap]
  rw [each, each, renamed, List.flatMap_map]
  exact List.flatMap_congr fun f _ => by rw [f.bound_renamed]

/-- Made-up names that a module mentions can be hidden. -/
theorem Module.exists_hidden (config : Config) (m : Module) : ∃ hidden maker shown,
    m.Hides config hidden maker shown ∧ KeepsMade shown config.reservedPrefix ∧
      KeepsBound shown hidden.allNodes := by
  -- longer than the reserved part and than every name that the module declares
  let length := config.reservedPrefix.length + (m.boundNames.map String.length).sum + 1
  have long : config.reservedPrefix.length < length := by omega
  have keeps : KeepsMade (unmasked length) config.reservedPrefix := fun stem hs n =>
    if_neg (not_mask_made long hs (toString n))
  have other (x : String) : ¬ config.MakesUp (masked length x) := by
    rintro ⟨n, stem, hs, same⟩
    refine not_mask_made long (List.mem_cons_of_mem _ hs) (toString n) ?_
    rw [← same, masked, String.toList_ofList]
    exact List.prefix_append _ _
  refine ⟨m.renamed (masked length), masked length config.runtime.newCounter, unmasked length,
    ⟨m.renamed_back (unmasked_masked length), unmasked_masked length _, ?_, ?_, other _⟩, keeps, ?_⟩
  · rintro x ⟨n, stem, hs, rfl⟩
    exact keeps stem (List.mem_cons_of_mem _ hs) n
  · intro n hn x hx
    obtain ⟨f, hf, hn⟩ := List.mem_flatMap.mp hn
    obtain ⟨f, -, rfl⟩ := List.mem_map.mp hf
    obtain ⟨y, rfl⟩ := Func.refers_renamed hn hx
    exact other y
  · intro n hn x hx
    refine unmasked_of_short ?_
    have bound : x.name ∈ m.boundNames := by
      rw [← m.boundNames_renamed (masked length)]
      exact List.mem_flatMap.mpr ⟨n, hn, List.mem_map_of_mem hx⟩
    have := List.le_sum_of_mem (List.mem_map_of_mem bound : x.name.length ∈ _)
    omega

/-! ## The whole -/

/-- Made-up names in a compiled module are unique and well scoped. -/
structure Module.WellNamed (config : Config) (m out : Module) (ws : List EmptyWait) : Prop where
  /-- The module binds none of them. -/
  fresh : ∀ x ∈ m.boundNames, ¬ config.MakesUp x
  /-- Each that rotation refers to, or that is bound at all, is bound once; and what rotation refers
  to is declared around the function or earlier in it. To tell references that rotation made from
  those of the module, the latter are hidden. -/
  inScope : ∃ hidden maker shown out', m.Hides config hidden maker shown ∧
    hidden.compile (config.calling maker) = .ok (out', ws) ∧ out'.renamed shown = out ∧
    (∀ x, config.MakesUp x → ∀ n ∈ out'.allNodes, x ∈ n.refers ∨ x ∈ n.bound.map Ident.name →
      out.boundNames.count x = 1) ∧
    ∀ f ∈ out'.functions, f.Scoped config.MakesUp []

/-- A module that compiles does so with its references hidden. -/
theorem Module.exists_hidden_of_compile {m out : Module} {ws : List EmptyWait}
    (ok : m.compile config = .ok (out, ws)) : ∃ hidden maker shown,
      m.Hides config hidden maker shown ∧ KeepsMade shown config.reservedPrefix ∧
        KeepsBound shown hidden.allNodes ∧ ∃ out',
          hidden.compile (config.calling maker) = .ok (out', ws) ∧ out'.renamed shown = out := by
  obtain ⟨hidden, maker, shown, hides, keeps, names⟩ := m.exists_hidden config
  have same := Module.compile_renamed keeps hides.runtime names
  rw [hides.references, ok] at same
  cases ran : hidden.compile (config.calling maker) with
  | error errors =>
    rw [ran] at same
    cases same
  | ok r =>
    obtain ⟨out', ws'⟩ := r
    rw [ran] at same
    obtain ⟨rfl, rfl⟩ : out = out'.renamed shown ∧ ws = ws' := by
      simpa [Except.map] using same
    exact ⟨hidden, maker, shown, hides, keeps, names, out', ran, rfl⟩

/-- **Made-up names are unique and well scoped** in every compiled module. -/
theorem Module.wellNamed_of_compile {m out : Module} {ws : List EmptyWait}
    (ok : m.compile config = .ok (out, ws)) : m.WellNamed config out ws := by
  refine ⟨fun x hx made => ?_, ?_⟩
  · obtain ⟨n, hn, hx⟩ := List.mem_flatMap.mp hx
    obtain ⟨i, hi, rfl⟩ := List.mem_map.mp hx
    have unreserved := unreserved_of_compile ok n hn i hi
    rw [config.reserved_of_makesUp made] at unreserved
    cases unreserved
  · obtain ⟨hidden, maker, shown, hides, -, -, out', ran, rfl⟩ := exists_hidden_of_compile ok
    have inScope : ∀ f ∈ out'.functions, f.Scoped config.MakesUp [] := by
      refine Module.scoped_of_compile (fun x made => ?_) hides.other hides.unmentioned ran
      exact config.reserved_of_makesUp made
    refine ⟨hidden, maker, shown, out', hides, ran, rfl, fun x made n hn occurs => ?_, inScope⟩
    refine Nat.le_antisymm (count_le_one_of_compile ok made) (List.count_pos_iff.mpr ?_)
    rw [boundNames_renamed]
    rcases occurs with hx | hx
    · obtain ⟨f, hf, hn⟩ := List.mem_flatMap.mp hn
      rcases (inScope f hf).exists_binder hn hx made with outside | ⟨k, hk, hx⟩
      · cases outside
      · exact List.mem_flatMap.mpr ⟨k, List.mem_flatMap.mpr ⟨f, hf, hk⟩, hx⟩
    · exact List.mem_flatMap.mpr ⟨n, hn, hx⟩

/-- A loop that waits, in a function that calls one whose name rotation will make up. -/
def callsMadeUp : Module :=
  let name (n : String) : Ident := ⟨n, default⟩
  let call (f : String) (arguments : List Expr) : Expr := .call (.ident (name f)) arguments default
  let waits : Statement :=
    ⟨4, .wait ⟨5, [⟨6, .expr (call "a" [.defer [] default]), default⟩], default⟩, default⟩
  let loop : Statement :=
    ⟨2, .loop none (.whileDo (.ident (name "c"))) ⟨3, [waits], default⟩, default⟩
  let after : Statement := ⟨7, .expr (call "__k1" []), default⟩
  ⟨[⟨0, some (name "f"), [name "c"], ⟨1, [loop, after], default⟩, default⟩], default⟩

theorem wellNamed_of_compile_callsMadeUp : ∃ out ws, callsMadeUp.compile {} = .ok (out, ws) ∧
    callsMadeUp.WellNamed {} out ws := by
  have compiles : (match callsMadeUp.compile {} with
      | .ok _ => true
      | .error _ => false) = true := by decide +kernel
  cases ok : callsMadeUp.compile {} with
  | error errors =>
    rw [ok] at compiles
    cases compiles
  | ok r =>
    obtain ⟨out, ws⟩ := r
    exact ⟨out, ws, rfl, Module.wellNamed_of_compile ok⟩

end

end WaitDefer
