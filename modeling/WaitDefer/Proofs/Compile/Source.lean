import WaitDefer.Proofs.Compile.Session
import WaitDefer.Proofs.Grammar.Ids

/-!
# Texts

* `Module.allFit_of_parse`: every function of a text is fit to be transformed;
* `Func.lower_unit_without_flaw`: and still is when the functions inside it have been;
* `Module.compileSource_without_internal`: so no text makes the transform break.
-/

namespace WaitDefer

/-- The largest id in a module, zero if there is none. -/
def Module.lastId (m : Module) : NodeId := m.maxId?.getD 0

/-- The end of the session in which a module is compiled. -/
def Module.session (config : Config) (m : Module) : Session :=
  (m.rewrite (.transformUnits config m.lastId) (.new config m.lastId)).2

/-- A function as a unit: the functions inside it are transformed already. -/
def Func.unit (config : Config) (max : NodeId) (f : Func) (s : Session) : Func × Session :=
  let r := f.body.rewrite (.transformUnits config max) s
  ({ f with body := r.1 }, r.2)

theorem Module.le_lastId {m : Module} {i : NodeId} (h : i ∈ m.ids) : i ≤ m.lastId := by
  unfold lastId maxId?
  cases largest : m.ids.max? with
  | none =>
    rw [List.max?_eq_none_iff] at largest
    rw [largest] at h
    cases h
  | some n => exact (List.max?_eq_some_iff.mp largest).2 i h

section
variable {config : Config} {source : String} {m : Module}

/-- Every function of a text is fit. -/
theorem Module.allFit_of_parse (h : parse source = .ok m) (room : m.lastId < NodeId.last) :
    AllFit m.lastId m.allNodes := by
  have distinct : m.ids.Nodup :=
    nodup_ids_of_parse h fun i hi => Nat.lt_of_le_of_lt (le_lastId hi) room
  exact allFit distinct (hasSimpleHead_of_parse h) fun i hi => le_lastId hi

/-- A function is fit, and the session has its supply, when the functions inside it are
transformed. -/
theorem Func.fit_unit {max : NodeId} {f : Func} {s : Session} (room : max < NodeId.last)
    (fit : AllFit max f.allNodes) (supplied : s.Supplied config max) :
    (f.unit config max s).1.Fit max ∧ (f.unit config max s).2.Supplied config max := by
  have inBody : AllFit max (f.body.nodes fun _ => true) := fit.mono fun n hn => by
    rw [f.allNodes_eq]
    exact List.mem_cons_of_mem _ (List.mem_append_right _ hn)
  have own : f.Fit max := fit f (by simp [f.allNodes_eq])
  obtain ⟨sound, kept⟩ := Block.whole (sound_cases room) f.body inBody s supplied.sound
  exact ⟨own.of_kept kept, sound.toSupplied⟩

/-- Whatever became of the functions inside, a marked function is rotated and checked without
finding a flaw. -/
theorem Func.lower_unit_without_flaw {max : NodeId} {f : Func} {s : Session} {marking : Marking}
    (room : max < NodeId.last) (fit : AllFit max f.allNodes) (supplied : s.Supplied config max)
    (ok : (f.unit config max s).1.marking config = .ok marking) :
    ∃ g supply, (f.unit config max s).1.lower ⟨config, marking.table⟩
        (f.unit config max s).2.supply = (.ok g, supply) ∧
      g.flaw? marking.table max = none := by
  obtain ⟨fit, supplied⟩ := fit_unit room fit supplied
  obtain ⟨g, supply, run, sound, -⟩ :=
    lower_without_flaw fit ok room supplied.reserved supplied.promises
  exact ⟨g, supply, run, sound⟩

namespace Module

/-- Unless ids run out, a module compiles without an error inside the transform. -/
theorem errors_session (room : m.lastId < NodeId.last) (fit : AllFit m.lastId m.allNodes)
    (enough : (m.session config).supply.ids.exhausted = false) (name : String)
    (e : InternalError) : .internal name e ∉ (m.session config).errors := by
  intro mem
  rcases (sound_of_fit room fit Session.supplied_new.sound).errors name e mem with old | ⟨none, -⟩
  · cases old
  · rw [session] at enough
    rw [enough] at none
    cases none

/-- **The transform never breaks on a text.** As long as ids do not run out, no text leads to an
error inside the transform: each of its functions, whatever the transform made of the functions
inside it and whatever was transformed before it, is hoisted and rotated once it is marked, and the
check of the result finds no flaw. -/
theorem compileSource_without_internal (config : Config) (source : String)
    (room : ∀ m, parse source = .ok m →
      m.lastId < NodeId.last ∧ (m.session config).supply.ids.exhausted = false) :
    (∀ errors, compileSource config source = .error errors →
      ∀ name e, .internal name e ∉ errors) ∧
    ∀ m, parse source = .ok m → ∀ f, .func f ∈ m.allNodes → ∀ s : Session,
      s.Supplied config m.lastId → ∀ marking,
      (f.unit config m.lastId s).1.marking config = .ok marking →
      ∃ g supply, (f.unit config m.lastId s).1.lower ⟨config, marking.table⟩
          (f.unit config m.lastId s).2.supply = (.ok g, supply) ∧
        g.flaw? marking.table m.lastId = none := by
  constructor
  · intro errors failed name e mem
    unfold compileSource at failed
    split at failed
    · rename_i m ok
      obtain ⟨below, enough⟩ := room m ok
      have result : errors = (m.session config).errors := by
        change Session.finish (m.session config) _ = _ at failed
        unfold Session.finish at failed
        split at failed
        · cases failed
        · cases failed
          rfl
      rw [result] at mem
      exact errors_session below (allFit_of_parse ok below) enough name e mem
    · cases failed
      simp at mem
  · intro m ok f hf s supplied marking marked
    have below := (room m ok).1
    have fit := (allFit_of_parse ok below).mono fun n hn => (m.whole _ hf).subset hn
    exact Func.lower_unit_without_flaw below fit supplied marked

/-- A text with a function that waits inside one that waits in a loop. -/
def nestedWaits : String :=
  "function poll() \x7b while (busy) \x7b wait \x7b " ++
  "fetch(function () \x7b wait \x7b read(defer(x)); \x7d \x7d, defer(reply)); \x7d " ++
  "if (reply) \x7b break; \x7d \x7d \x7d"

theorem compileSource_without_internal_nestedWaits : ∃ m, parse nestedWaits = .ok m ∧
    m.lastId < NodeId.last ∧ (m.session {}).supply.ids.exhausted = false ∧
    (∀ errors, compileSource {} nestedWaits = .error errors →
      ∀ name e, .internal name e ∉ errors) ∧
    ∀ f, .func f ∈ m.allNodes → ∀ marking,
      (f.unit {} m.lastId (.new {} m.lastId)).1.marking {} = .ok marking →
      ∃ g supply, (f.unit {} m.lastId (.new {} m.lastId)).1.lower ⟨{}, marking.table⟩
          (f.unit {} m.lastId (.new {} m.lastId)).2.supply = (.ok g, supply) ∧
        g.flaw? marking.table m.lastId = none := by
  have fits : (parse nestedWaits).toOption.any (fun m =>
      decide (m.lastId < NodeId.last) && !(m.session {}).supply.ids.exhausted) = true := by
    decide +kernel
  cases ok : parse nestedWaits with
  | error errors =>
    rw [ok] at fits
    cases fits
  | ok m =>
    rw [ok] at fits
    obtain ⟨below, enough⟩ : m.lastId < NodeId.last ∧
        (m.session {}).supply.ids.exhausted = false := by simpa [Except.toOption] using fits
    obtain ⟨never, units⟩ := compileSource_without_internal {} nestedWaits fun m' ok' => by
      rw [ok] at ok'
      cases ok'
      exact ⟨below, enough⟩
    exact ⟨m, rfl, below, enough, never, fun f hf => units m ok f hf _ Session.supplied_new⟩

end Module

end

end WaitDefer
