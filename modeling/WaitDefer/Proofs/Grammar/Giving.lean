import WaitDefer.Proofs.Grammar.Keeping

/-!
# What is read

A property of whatever a parser reads, wherever it begins:

* `Parser.Gives`: everything that a parser reads has the property;
* `Gives.bind`, `Gives.after`: one parser after another;
* `Gives.nested`, `Gives.unlessAt`, `Gives.untilParen`: parsers around parsers.
-/

namespace WaitDefer
namespace Parser

variable {α β : Type}

/-- Whatever a parser reads has a property. -/
def Gives (p : Parser α) (P : α → Prop) : Prop := ∀ c a, (p c).1 = .ok a → P a

namespace Gives

section
variable {p : Parser α} {P Q : α → Prop} {R : β → Prop} {f : β → Parser α} {q : Parser β}

theorem done {a : α} (h : P a) : Gives (pure a) P := by
  rintro c b ⟨⟩
  exact h

theorem bind (hq : Gives q R) (hf : ∀ b, R b → Gives (f b) P) : Gives (q >>= f) P := by
  intro c a ok
  rw [bind_apply] at ok
  rcases run : q c with ⟨_ | b, d⟩ <;> rw [run] at ok
  · cases ok
  · exact hf b (hq c b (by rw [run])) d a ok

theorem after (h : ∀ b, Gives (f b) P) : Gives (q >>= f) P :=
  bind (R := fun _ => True) (fun _ _ _ => trivial) fun b _ => h b

theorem failing (h : ∀ c a, (p c).1 ≠ .ok a) : Gives p P := fun c a ok => absurd ok (h c a)

theorem weaken (h : Gives p P) (holds : ∀ a, P a → Q a) : Gives p Q :=
  fun c a ok => holds a (h c a ok)

theorem map {g : α → β} (h : Gives p P) (holds : ∀ a, P a → R (g a)) : Gives (g <$> p) R := by
  rw [← bind_pure_comp]
  exact h.bind fun a ha => .done (holds a ha)

theorem nested (h : Gives p P) (name : String) : Gives (nested name p) P := by
  intro c a ok
  unfold Parser.nested enter at ok
  cases deeper : Limit.enter name c.span c.depth with
  | error e =>
    rw [deeper] at ok
    cases ok
  | ok depth =>
    rw [deeper] at ok
    exact h { c with depth } a ok

theorem attempt (h : Gives p P) : Gives (attempt p) fun r => ∀ a, r = .ok a → P a := by
  rintro c r ⟨⟩ a ok
  exact h c a ok

theorem unlessAt (h : Gives p P) (t : Token) : Gives (unlessAt t p) fun o => ∀ a ∈ o, P a := by
  refine .after fun absent => ?_
  split
  · exact .done nofun
  · exact h.map fun a ha b hb => Option.some.inj hb ▸ ha

theorem commaList (h : Gives p P) (n : Nat) :
    Gives (commaList p n) fun as => as ≠ [] ∧ ∀ a ∈ as, P a := by
  induction n with
  | zero => exact h.bind fun a ha => .done ⟨List.cons_ne_nil a [], by simpa using ha⟩
  | succ n ih =>
    refine h.bind fun a ha => .after fun more => ?_
    split
    · refine ih.bind fun as has => .done ⟨List.cons_ne_nil a as, ?_⟩
      exact List.forall_mem_cons.mpr ⟨ha, has.2⟩
    · exact .done ⟨List.cons_ne_nil a [], by simpa using ha⟩

theorem untilParen (h : Gives p P) : Gives (untilParen p) fun as => ∀ a ∈ as, P a := by
  have close : ∀ as : List α, (∀ a ∈ as, P a) → Gives (do
      let _ ← expect (.sym .rightParen)
      return as) fun as => ∀ a ∈ as, P a :=
    fun as has => .after fun _ => .done has
  refine .after fun closed => ?_
  dsimp only
  split
  · exact Gives.bind (.done (P := fun as => ∀ a ∈ as, P a) nofun) close
  · exact .after fun n => (h.commaList n).bind fun as has => close as has.2

end
end Gives

section
variable {P : α → Prop}

theorem Gives.throw {e : SyntaxError} : Gives (throw e) P := .failing fun _ _ h => nomatch h

theorem Gives.unexpected (expected : List Token) : Gives (unexpected expected) P :=
  .failing fun _ _ h => nomatch h

theorem Gives.noRoom (name : String) : Gives (noRoom name) P := .failing fun _ _ h => nomatch h

/-- A parser that goes on unless something is wrong. -/
theorem Gives.unless {c : Prop} [Decidable c] {e : SyntaxError} {f : Unit → Parser α}
    (h : ¬ c → Gives (f ()) P) : Gives (if c then MonadExcept.throw e >>= f else f ()) P := by
  split
  · exact .bind (R := fun _ => False) .throw nofun
  · exact h ‹_›

end

end Parser
end WaitDefer
