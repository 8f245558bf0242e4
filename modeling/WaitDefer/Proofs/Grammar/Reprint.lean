import Mathlib
import WaitDefer.Proofs.Grammar.Ids
import WaitDefer.Proofs.Grammar.RoundTrip

/-!
# Printing what was read

* `Module.shape_of_parse_print`: a text is read, printed and read again. Unless the second reading
  meets an error, its module has the shape of the first, as long as no line comes apart;
* `splitting_reprinted`: a line that does.
-/

namespace WaitDefer

/-- No line of the block could also be the declaration of a function and another line. -/
def Block.staysWhole (b : Block) : Bool := b.statements.all (!·.kind.comesApart)

/-- **Printing what was read.** Where no line comes apart, printing changes no program without an
error. -/
theorem Module.shape_of_parse_print {source : String} {m m' : Module} (read : parse source = .ok m)
    (whole : ∀ b, .block b ∈ m.allNodes → b.staysWhole) (again : parse m.print = .ok m') :
    m'.shape = m.shape := by
  obtain ⟨legible, named⟩ := legible_of_parse read
  have nodes : ∀ n ∈ m.allNodes, n.Fits False := by
    refine fun n hn => ⟨legible n hn, ?_⟩
    rintro b rfl s hs
    exact .inr ⟨id, by simpa using List.all_eq_true.mp (whole b hn) s hs⟩
  obtain ⟨m'', read', same⟩ | ⟨-, errors, failed⟩ := reads_print named nodes False.elim
  · rw [read', Except.ok.injEq] at again
    rw [← again, same]
  · rw [failed] at again
    cases again

/-- What `Module.shape_of_parse_print` asks of every node. -/
def Node.staysWhole : Node → Bool
  | .block b => b.staysWhole
  | _ => true

/-- Whether a text is read, and printed and read again, as modules for which `p` holds. -/
def reprints (p : Module → Module → Bool) (source : String) : Bool :=
  match Module.parse source with
  | .ok m =>
    match Module.parse m.print with
    | .ok m' => p m m'
    | .error _ => false
  | .error _ => false

theorem exists_of_reprints {p : Module → Module → Bool} {source : String}
    (h : reprints p source) :
    ∃ m m', Module.parse source = .ok m ∧ Module.parse m.print = .ok m' ∧ p m m' := by
  unfold reprints at h
  split at h
  · split at h
    · exact ⟨_, _, ‹_›, ‹_›, h⟩
    · cases h
  · cases h

/-- A function that is called stays between its parentheses. -/
def calling : String := "function f(a) { (function g() { return a; })() - 1; }"

theorem shape_of_parse_print_calling : ∃ m m', Module.parse calling = .ok m ∧
    (∀ b, .block b ∈ m.allNodes → b.staysWhole) ∧ Module.parse m.print = .ok m' ∧
      m'.shape = m.shape := by
  have check : reprints (fun m _ => m.allNodes.all Node.staysWhole) calling := by decide +kernel
  obtain ⟨m, m', read, again, all⟩ := exists_of_reprints check
  have whole : ∀ b, .block b ∈ m.allNodes → b.staysWhole := fun b hb =>
    List.all_eq_true.mp all _ hb
  exact ⟨m, m', read, whole, again, Module.shape_of_parse_print read whole again⟩

/-- A function minus one. Printed, it stands without parentheses: as the declaration of the function
and a line that begins with the minus. -/
def splitting : String := "function f() { (function g() {}) - 1; }"

theorem splitting_reprinted : ∃ m m', Module.parse splitting = .ok m ∧
    Module.parse m.print = .ok m' ∧ m'.shape ≠ m.shape := by
  -- the body has one statement, and then two
  have check : reprints (fun m m' => m.shape.functions.map (·.body.statements.length) == [1] &&
      m'.shape.functions.map (·.body.statements.length) == [2]) splitting := by decide +kernel
  obtain ⟨m, m', read, again, counts⟩ := exists_of_reprints check
  obtain ⟨one, two⟩ := Bool.and_eq_true_iff.mp counts
  refine ⟨m, m', read, again, fun same => ?_⟩
  rw [same, eq_of_beq one] at two
  cases two

end WaitDefer
