import WaitDefer.Proofs.Grammar.Keeping

/-!
# Progress

In a list of tokens that ends with the end of the text, reading something passes a token, and so
every loop comes to its end by itself:

* `Cursor.Ends`: the last token is the end of the text;
* `Parser.Advances`: a parser that passes a token whenever it reads something;
* `Parser.Loops`: rounds, one after another, as many as it takes;
* `Parser.Loops.of_bound`: a loop whose rounds pass tokens is not cut off by a bound on their number.
-/

namespace WaitDefer

set_option synthInstance.maxSize 512

/-! ## The end of the text -/

/-- The last token is the end of the text. -/
def Cursor.Ends (c : Cursor) : Prop := c.tokens.back?.map Located.token = some .eof

namespace Cursor

variable {c d : Cursor}

theorem length_rest (c : Cursor) : c.rest.length = c.tokens.size - c.pos := by
  rw [rest, List.length_drop, Array.length_toList]

theorem length_rest_le (c : Cursor) : c.rest.length ≤ c.tokens.size :=
  c.length_rest.trans_le (Nat.sub_le _ _)

theorem Leads.ends (h : c.Leads d) (ends : c.Ends) : d.Ends := by
  rw [Ends, h.tokens]
  exact ends

/-- The token that is present depends on the place alone. -/
theorem token_eq (tokens : d.tokens = c.tokens) (pos : d.pos = c.pos) : d.token = c.token := by
  simp only [token, here, tokens, pos]

/-- Any other token has one behind it. -/
theorem Ends.inside (ends : c.Ends) (more : c.token ≠ .eof) : c.pos + 1 < c.tokens.size := by
  by_contra last
  have inside := c.inBounds
  have here : c.tokens.back? = some c.here := by
    rw [Array.back?, show c.tokens.size - 1 = c.pos by omega, Array.getElem?_eq_getElem inside]
    rfl
  rw [Ends, here] at ends
  exact more (Option.some.inj ends)

theorem pos_advance (inside : c.pos + 1 < c.tokens.size) : c.advance.pos = c.pos + 1 := by
  rw [advance, dif_pos inside]

theorem Ends.lt_advance (ends : c.Ends) (more : c.token ≠ .eof) : c.pos < c.advance.pos := by
  rw [pos_advance (ends.inside more)]
  exact Nat.lt_succ_self _

/-- A token of another kind than the end of the text is not its end. -/
theorem token_ne_eof {t : Token} (seen : c.sees t) (other : Token.eof.sameKind t = false) :
    c.token ≠ .eof := by
  intro last
  rw [sees, last, other] at seen
  cases seen

end Cursor

namespace Parser

variable {α β σ : Type}

/-- A parser that passes a token whenever it reads something. -/
def Advances (p : Parser α) : Prop := ∀ c a, c.Ends → (p c).1 = .ok a → c.pos < (p c).2.pos

section
variable {p : Parser α} {f : α → Parser β}

namespace Advances

theorem bind [∀ a, Keeps (f a)] (h : Advances p) : Advances (p >>= f) := by
  intro c b ends ok
  rw [bind_apply] at ok ⊢
  rcases run : p c with ⟨e | a, d⟩ <;> rw [run] at ok
  · cases ok
  · have first := h c a ends (by rw [run])
    rw [run] at first
    exact first.trans_le (Keeps.leads (p := f a) d).pos

theorem after [Keeps p] (h : ∀ a, Advances (f a)) : Advances (p >>= f) := by
  intro c b ends ok
  have first := Keeps.leads (p := p) c
  rw [bind_apply] at ok ⊢
  rcases run : p c with ⟨e | a, d⟩ <;> rw [run] at ok first
  · cases ok
  · exact first.pos.trans_lt (h a d b (first.ends ends) ok)

/-- A parser that only fails. -/
theorem failing (fails : ∀ c a, (p c).1 ≠ .ok a) : Advances p :=
  fun c a _ ok => absurd ok (fails c a)

theorem nested (h : Advances p) (name : String) : Advances (nested name p) := by
  intro c a ends ok
  unfold Parser.nested enter at ok ⊢
  cases deeper : Limit.enter name c.span c.depth with
  | error e =>
    rw [deeper] at ok
    cases ok
  | ok depth =>
    rw [deeper] at ok
    exact h { c with depth } a ends ok

end Advances

end

theorem advances_expect {t : Token} (other : Token.eof.sameKind t = false) :
    Advances (expect t) := by
  intro c a ends ok
  unfold expect at ok ⊢
  split
  · rename_i seen
    exact ends.lt_advance (Cursor.token_ne_eof seen other)
  · rename_i unseen
    rw [if_neg unseen] at ok
    cases ok

theorem advances_ident : Advances ident := by
  intro c a ends ok
  unfold ident at ok ⊢
  split
  · rename_i name found
    exact ends.lt_advance (by simp [found])
  · rename_i other
    split at ok
    · exact absurd ‹_› (other _)
    · cases ok

/-! ## The grammar -/

section
variable {d : Deeper} [d.Keeps]

theorem advances_block : Advances (block d) :=
  .after fun _ => .bind (advances_expect rfl)

theorem advances_function (named : Bool) : Advances (function d named) :=
  .after fun _ => .bind (advances_expect rfl)

theorem advances_condition : Advances (condition d) :=
  .bind (advances_expect rfl)

theorem advances_headAndBody (first : Token) : Advances (headAndBody d first) := by
  unfold headAndBody
  split
  · exact .bind advances_condition
  · exact .bind advances_block
  · exact .bind (advances_expect rfl)

theorem advances_loop (label : Option Ident) (start : Span) : Advances (loop d label start) :=
  .after fun first => .after fun _ => .bind (advances_headAndBody first)

omit [d.Keeps] in
theorem advances_jump (kind : JumpKind) : Advances (jump kind) :=
  .after fun _ => .after fun _ => .after fun _ => .after fun _ => .bind (advances_expect rfl)

theorem advances_labelled : Advances (labelled d) :=
  .after fun _ => .bind advances_ident

theorem advances_simpleLine : Advances (simpleLine d) :=
  .after fun _ => .after fun _ => .bind (advances_expect rfl)

theorem advances_statement : Advances (statement d) := by
  refine .after fun start => .after fun token => ?_
  split
  · exact .after fun _ => .bind (advances_function true)
  · exact .after fun _ => .bind (advances_expect rfl)
  · exact .after fun _ => .bind (advances_expect rfl)
  · exact advances_loop none start
  · exact advances_loop none start
  · exact advances_loop none start
  · refine .after fun next => ?_
    split
    · exact advances_labelled
    · exact advances_simpleLine
  · exact advances_jump .leave
  · exact advances_jump .resume
  · exact .after fun _ => .after fun _ => .after fun _ => .bind (advances_expect rfl)
  · exact .after fun _ => .after fun _ => .bind advances_block
  · exact .after fun _ => .bind advances_block
  · exact advances_simpleLine

end

theorem advances_levels (n : Nat) : Advances (Deeper.levels n).statement := by
  cases n with
  | zero => exact .failing fun _ _ h => nomatch h
  | succ n => exact advances_statement.nested _

/-! ## Loops -/

section
variable (stop : σ → Cursor → Bool) (round : σ → Parser σ) (out : σ → α)

/-- Rounds, one after another, until it is time to stop or a round fails. Nothing bounds their
number. -/
inductive Loops : σ → Cursor → Except SyntaxError α × Cursor → Prop
  | stops {s : σ} {c : Cursor} (now : stop s c = true) : Loops s c (.ok (out s), c)
  | fails {s : σ} {c d : Cursor} {e : SyntaxError} (more : stop s c = false)
    (run : round s c = (.error e, d)) : Loops s c (.error e, d)
  | goesOn {s t : σ} {c d : Cursor} {r : Except SyntaxError α × Cursor} (more : stop s c = false)
    (run : round s c = (.ok t, d)) (next : Loops t d r) : Loops s c r

end

namespace Loops

variable {stop : σ → Cursor → Bool} {round : σ → Parser σ} {out : σ → α} {s : σ} {c d : Cursor}
  {r r' : Except SyntaxError α × Cursor}

/-- Rounds lead to one end. -/
theorem unique (h : Loops stop round out s c r) (h' : Loops stop round out s c r') : r = r' := by
  induction h with
  | stops now =>
    cases h' with
    | stops => rfl
    | fails more | goesOn more => rw [now] at more; cases more
  | fails more run =>
    cases h' with
    | stops now => rw [now] at more; cases more
    | fails _ run' => rw [run] at run'; cases run'; rfl
    | goesOn _ run' => rw [run] at run'; cases run'
  | goesOn more run next ih =>
    cases h' with
    | stops now => rw [now] at more; cases more
    | fails _ run' => rw [run] at run'; cases run'
    | goesOn _ run' next' => rw [run] at run'; cases run'; exact ih next'

/-- Unless a round fails, the rounds end where it is time to stop. -/
theorem stopped {a : α} (h : Loops stop round out s c (.ok a, d)) :
    ∃ t, stop t d = true ∧ out t = a := by
  generalize end_ : (Except.ok a, d) = r at h
  induction h with
  | stops now =>
    cases end_
    exact ⟨_, now, rfl⟩
  | fails => cases end_
  | goesOn _ _ _ ih => exact ih end_

/-- A loop whose rounds pass tokens is not cut off by a bound that is no less than the number of
tokens left. -/
theorem of_bound [∀ s, Keeps (round s)] {I : Array Located → Prop} {loop : Nat → σ → Parser α}
    (step : ∀ n s, loop (n + 1) s = do
      if ← look (stop s) then return out s else round s >>= loop n)
    (passes : ∀ s c t, I c.tokens → stop s c = false → (round s c).1 = .ok t →
      c.pos < (round s c).2.pos)
    (n : Nat) (s : σ) {c : Cursor} (enough : c.rest.length ≤ n) (start : I c.tokens) :
    Loops stop round out s c (loop n s c) := by
  have inside := c.inBounds
  rw [c.length_rest] at enough
  induction n generalizing s c with
  | zero => omega
  | succ n ih =>
    rw [step, bind_apply]
    change Loops stop round out s c ((if stop s c then pure (out s) else round s >>= loop n) c)
    cases now : stop s c with
    | true => exact .stops now
    | false =>
      rw [if_neg Bool.false_ne_true, bind_apply]
      have kept := Keeps.leads (p := round s) c
      have further := passes s c
      rcases run : round s c with ⟨e | t, d⟩
      · exact .fails now run
      · rw [run] at kept further
        have further : c.pos < d.pos := further t start now rfl
        have fewer : d.tokens.size - d.pos ≤ n := by
          rw [kept.tokens]
          omega
        exact .goesOn now run (ih t fewer (kept.tokens ▸ start) d.inBounds)

end Loops

end Parser
end WaitDefer
