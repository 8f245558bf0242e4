import WaitDefer.Proofs.Grammar.Facing
import WaitDefer.Proofs.Grammar.Giving
import WaitDefer.Proofs.Grammar.Progress
import WaitDefer.Proofs.Grammar.Reading

/-!
# Passing tokens

What has been read of a text can be written down from the tokens that were passed, but for brackets:

* `Token.bare`: tokens without parentheses and braces;
* `Token.defaultsLast`: no arm of a switch comes after the one for all other values;
* `Parser.Copies`: a parser without an error passes the tokens of what it reads;
* `Copies.bind`, `Copies.expect`, `Writes.untilParen`: one parser after another, and the small
  steps.
-/

namespace WaitDefer

set_option synthInstance.maxSize 512

/-! ## Brackets -/

namespace Token

/-- Parentheses and braces. -/
def isBracket : Token → Bool
  | .sym .leftParen | .sym .rightParen | .sym .leftBrace | .sym .rightBrace => true
  | _ => false

/-- Tokens without brackets. -/
def bare (ts : List Token) : List Token := ts.filter fun t => !t.isBracket

variable {t : Token} {ts us : List Token}

@[simp] theorem bare_nil : bare [] = [] := rfl

@[simp] theorem bare_append (ts us : List Token) : bare (ts ++ us) = bare ts ++ bare us :=
  List.filter_append ..

@[simp] theorem bare_cons (t : Token) (ts : List Token) :
    bare (t :: ts) = if t.isBracket then bare ts else t :: bare ts := by
  cases h : t.isBracket <;> simp [bare, h]

end Token

/-! ## The arm for all other values -/

/-- What tells whether such an arm comes last: whether the token before was a dot, and for each open
brace, innermost first, whether it was met there. -/
structure Scan where
  afterDot : Bool
  met : List Bool

namespace Scan

/-- One more token. After a dot, words are names. A `case` may not come after a `default` in one
pair of braces. -/
def step (s : Scan) (t : Token) : Option Scan :=
  if s.afterDot then some { s with afterDot := false }
  else match t with
    | .sym .dot => some { s with afterDot := true }
    | .sym .leftBrace => some { s with met := false :: s.met }
    | .sym .rightBrace => some { s with met := s.met.tail }
    | .word .default => some { s with met := true :: s.met.tail }
    | .word .case => if s.met.head? = some true then none else some s
    | _ => some s

end Scan

/-- In every switch, the arm for all other values is the last one. -/
def Token.defaultsLast (ts : List Token) : Bool := (ts.foldlM Scan.step ⟨false, []⟩).isSome

/-! ## Tokens passed -/

namespace Cursor

variable {c d e : Cursor}

/-- The tokens from one place in a text to another. -/
def passed (c d : Cursor) : List Token :=
  ((c.tokens.toList.drop c.pos).take (d.pos - c.pos)).map Located.token

theorem passed_same (h : d.pos = c.pos) : c.passed d = [] := by
  rw [passed, h, Nat.sub_self, List.take_zero, List.map_nil]

theorem Leads.passed_trans (h : c.Leads d) (h' : d.Leads e) :
    c.passed e = c.passed d ++ d.passed e := by
  have first := h.pos
  have second := h'.pos
  rw [passed, passed, passed, ← List.map_append, h.tokens,
    show e.pos - c.pos = (d.pos - c.pos) + (e.pos - d.pos) by omega, List.take_add,
    List.drop_drop, show c.pos + (d.pos - c.pos) = d.pos by omega]

theorem passed_advance (inside : c.pos + 1 < c.tokens.size) : c.passed c.advance = [c.token] := by
  have rest : c.tokens.toList.drop c.pos = c.here :: c.tokens.toList.drop (c.pos + 1) := c.rest_eq
  rw [passed, pos_advance inside, rest, show c.pos + 1 - c.pos = 1 by omega]
  rfl

theorem Ends.passed_advance (ends : c.Ends) (more : c.token ≠ .eof) :
    c.passed c.advance = [c.token] :=
  Cursor.passed_advance (ends.inside more)

end Cursor

/-! ## Places -/

/-- A place in a text without errors, told by the tokens before it. -/
structure Place where
  /-- The token that is present, where it is known. -/
  next : Option Token
  /-- For each open brace, whether the arm for all other values was met in it. -/
  met : List Bool
  /-- The tokens before, without brackets. -/
  words : List Token

namespace Place

/-- A place where the present token is known. -/
def seeing (σ : Place) (t : Token) : Place := { σ with next := some t }

/-- The place behind some tokens that open and close their braces. -/
def «then» (σ : Place) (ts : List Token) : Place := ⟨none, σ.met, σ.words ++ Token.bare ts⟩

theorem then_nil (σ : Place) : σ.then [] = { σ with next := none } := by
  rw [«then», Token.bare_nil, List.append_nil]

theorem then_then (σ : Place) (ts us : List Token) : (σ.then ts).then us = σ.then (ts ++ us) := by
  rw [«then», «then», «then», Token.bare_append, List.append_assoc]

end Place

namespace Parser

variable {α β : Type}

/-- From the place `σ` on, and unless an error comes out, a parser that reads `a` comes to the place
`τ a`, if all arms for all other values come last. -/
def Copies (σ : Place) (p : Parser α) (τ : α → Place) : Prop :=
  ∀ c a d s, c.Lexical → c.Ends → (∀ t ∈ σ.next, c.token = t) → p c = (.ok a, d) → d.recorded = [] →
    (c.passed d).foldlM Scan.step ⟨false, σ.met⟩ = some s →
    s = ⟨false, (τ a).met⟩ ∧ σ.words ++ Token.bare (c.passed d) = (τ a).words ∧
      ∀ t ∈ (τ a).next, d.token = t

/-- Wherever a parser reads something, it passes the tokens of it, but for brackets. -/
def Writes (p : Parser α) (out : α → List Token) : Prop :=
  ∀ σ : Place, Copies σ p fun a => σ.then (out a)

/-! ## One after another -/

section
variable {σ : Place} {p : Parser α} {τ : α → Place} {υ : β → Place} {f : α → Parser β}

namespace Copies

theorem done {a : α} (met : (τ a).met = σ.met) (words : σ.words = (τ a).words)
    (next : (τ a).next = none) : Copies σ (pure a) τ := by
  rintro c b d s _ _ _ ⟨⟩ _ scan
  rw [Cursor.passed_same rfl] at scan ⊢
  cases scan
  refine ⟨by rw [met], by simpa using words, ?_⟩
  rw [next]
  nofun

theorem bind_gives [Keeps p] [∀ a, Keeps (f a)] {P : α → Prop} (hp : Copies σ p τ)
    (gives : Gives p P) (hf : ∀ a, P a → Copies (τ a) (f a) υ) : Copies σ (p >>= f) υ := by
  intro c b e s lexical ends next run clean scan
  have first := Keeps.leads (p := p) c
  rw [bind_apply] at run
  rcases here : p c with ⟨_ | a, d⟩ <;> rw [here] at run first
  · cases run
  have second := Keeps.leads (p := f a) d
  change f a d = _ at run
  rw [run] at second
  have quiet : d.recorded = [] := by
    have kept := second.recorded
    rwa [clean, List.suffix_nil] at kept
  rw [first.passed_trans second, List.foldlM_append] at scan
  obtain ⟨s', before, after⟩ := Option.bind_eq_some_iff.mp scan
  obtain ⟨rfl, words, known⟩ := hp c a d s' lexical ends next here quiet before
  obtain ⟨same, words', known'⟩ := hf a (gives c a (by rw [here])) d b e s (first.lexical lexical)
    (first.ends ends) known run clean after
  refine ⟨same, ?_, known'⟩
  rw [first.passed_trans second, Token.bare_append, ← List.append_assoc, words, words']

theorem bind [Keeps p] [∀ a, Keeps (f a)] (hp : Copies σ p τ) (hf : ∀ a, Copies (τ a) (f a) υ) :
    Copies σ (p >>= f) υ :=
  hp.bind_gives (P := fun _ => True) (fun _ _ _ => trivial) fun a _ => hf a

/-- A parser that only fails. -/
theorem failing (h : ∀ c a, (p c).1 ≠ .ok a) : Copies σ p τ :=
  fun c a _ _ _ _ _ run => absurd (by rw [run]) (h c a)

/-- It is enough to come to one of several places that turn out to be the right one. -/
theorem of_exists {ι : Type} {τ' : ι → α → Place} (h : ∀ i, Copies σ p (τ' i))
    (same : ∀ a, ∃ i, τ' i a = τ a) : Copies σ p τ := by
  intro c a
  obtain ⟨i, hi⟩ := same a
  rw [← hi]
  exact h i c a

/-- Which token is present may be forgotten. -/
theorem start (h : Copies (σ.then []) p τ) : Copies σ p τ := by
  rw [σ.then_nil] at h
  exact fun c a d s lexical ends _ => h c a d s lexical ends nofun

end Copies

end

end Parser

/-! ## Small steps -/

/-- Words, and symbols after which a word is a word. -/
def Token.isFixed : Token → Bool
  | .sym .dot => false
  | .word _ | .sym _ => true
  | _ => false

theorem Scan.step_of_ne_dot {met : List Bool} {t : Token} {s : Scan} (plain : t ≠ .sym .dot)
    (h : step ⟨false, met⟩ t = some s) : ∃ met', s = ⟨false, met'⟩ := by
  unfold step at h
  rw [if_neg Bool.false_ne_true] at h
  split at h
  case h_1 => exact absurd rfl plain
  case h_5 => split at h <;> cases h; exact ⟨_, rfl⟩
  all_goals cases h; exact ⟨_, rfl⟩

theorem Cursor.token_of_sees {c : Cursor} {t : Token} (fixed : t.isFixed) (h : c.sees t) :
    c.token = t := by
  unfold sees Token.sameKind at h
  split at h <;> simp_all [Token.isFixed]

namespace Parser

variable {α β : Type} {σ : Place} {τ : α → Place}

/-- A question that tells nothing about the token that is present. -/
theorem Copies.look {f : β → Parser α} {g : Cursor → β} (h : ∀ b, Copies σ (f b) τ) :
    Copies σ (look g >>= f) τ :=
  fun c => h (g c) c

theorem Copies.freshId {f : NodeId → Parser α} (h : ∀ i, Copies σ (f i) τ) :
    Copies σ (freshId >>= f) τ :=
  fun c => h c.ids.fresh.1 { c with ids := c.ids.fresh.2 }

/-- Asking for the present token. -/
theorem Copies.token {f : Token → Parser α} (h : ∀ t, Copies (σ.seeing t) (f t) τ) :
    Copies σ (Parser.look (·.token) >>= f) τ := by
  intro c a d s lexical ends _ run
  exact h c.token c a d s lexical ends (by rintro _ ⟨⟩; rfl) run

/-- Asking whether a token is present. -/
theorem Copies.sees {f : Bool → Parser α} {t : Token} (fixed : t.isFixed)
    (yes : Copies (σ.seeing t) (f true) τ) (no : Copies σ (f false) τ) :
    Copies σ (Parser.look (·.sees t) >>= f) τ := by
  intro c a d s lexical ends next run
  change f (c.sees t) c = _ at run
  cases seen : c.sees t with
  | true =>
    rw [seen] at run
    exact yes c a d s lexical ends (by rintro _ ⟨⟩; exact c.token_of_sees fixed seen) run
  | false =>
    rw [seen] at run
    exact no c a d s lexical ends next run

/-- Passing the token that is present, which is not a dot. -/
theorem Copies.pass {c d : Cursor} {s : Scan} {t : Token} {a : α} {p : Parser α} [Keeps p]
    (h : ∀ met, Scan.step ⟨false, σ.met⟩ t = some ⟨false, met⟩ →
      Copies ⟨none, met, σ.words ++ Token.bare [t]⟩ p τ)
    (plain : t ≠ .sym .dot) (more : t ≠ .eof) (lexical : c.Lexical) (ends : c.Ends)
    (token : c.token = t) (run : p c.advance = (.ok a, d)) (clean : d.recorded = [])
    (scan : (c.passed d).foldlM Scan.step ⟨false, σ.met⟩ = some s) :
    s = ⟨false, (τ a).met⟩ ∧ σ.words ++ Token.bare (c.passed d) = (τ a).words ∧
      ∀ t ∈ (τ a).next, d.token = t := by
  have leads := Keeps.leads (p := p) c.advance
  rw [run] at leads
  have passed : c.passed d = t :: c.advance.passed d := by
    rw [c.leads_advance.passed_trans leads, ends.passed_advance (token ▸ more), token]
    rfl
  rw [passed, List.foldlM_cons] at scan
  obtain ⟨s', step, scan⟩ := Option.bind_eq_some_iff.mp scan
  obtain ⟨met, rfl⟩ := Scan.step_of_ne_dot plain step
  obtain ⟨same, words, next⟩ := h met step c.advance a d s (c.leads_advance.lexical lexical)
    (c.leads_advance.ends ends) nofun run clean scan
  refine ⟨same, ?_, next⟩
  rw [passed, ← words, List.append_assoc, ← Token.bare_append]
  rfl

section
variable {t : Token} {met : List Bool}

theorem Token.ne_of_isFixed (fixed : t.isFixed) : t ≠ .sym .dot ∧ t ≠ .eof := by
  constructor <;> rintro rfl <;> cases fixed

/-- A step that is known. -/
theorem Copies.stepped {p : Parser α} (step : Scan.step ⟨false, σ.met⟩ t = some ⟨false, met⟩)
    (h : Copies ⟨none, met, σ.words ++ Token.bare [t]⟩ p τ) (met' : List Bool)
    (step' : Scan.step ⟨false, σ.met⟩ t = some ⟨false, met'⟩) :
    Copies ⟨none, met', σ.words ++ Token.bare [t]⟩ p τ := by
  have same : met = met' := by simpa using step.symm.trans step'
  rwa [← same]

/-- The token that is known to be present is passed. -/
theorem Copies.advance {f : Token → Parser α} [∀ t, Keeps (f t)]
    (step : Scan.step ⟨false, σ.met⟩ t = some ⟨false, met⟩) (more : (t == .eof) = false)
    (h : Copies ⟨none, met, σ.words ++ Token.bare [t]⟩ (f t) τ) :
    Copies (σ.seeing t) (Parser.advance >>= f) τ := by
  intro c a d s lexical ends next run clean scan
  have token : c.token = t := next t rfl
  change f c.token c.advance = _ at run
  rw [token] at run
  have plain : t ≠ .sym .dot := by
    rintro rfl
    cases step
  exact Copies.pass (h.stepped step) plain (by simpa using more) lexical ends token run clean scan

theorem Copies.expect {f : Token → Parser α} [∀ t, Keeps (f t)] (fixed : t.isFixed)
    (step : Scan.step ⟨false, σ.met⟩ t = some ⟨false, met⟩)
    (h : ∀ u, Copies ⟨none, met, σ.words ++ Token.bare [t]⟩ (f u) τ) :
    Copies σ (Parser.expect t >>= f) τ := by
  intro c a d s lexical ends _ run clean scan
  obtain ⟨plain, more⟩ := Token.ne_of_isFixed fixed
  rw [bind_apply, Parser.expect] at run
  by_cases seen : c.sees t = true
  · rw [if_pos seen] at run
    exact Copies.pass ((h c.token).stepped step) plain more lexical ends
      (c.token_of_sees fixed seen) run clean scan
  · rw [if_neg seen] at run
    cases run

theorem Copies.eat {f : Bool → Parser α} [∀ b, Keeps (f b)] (fixed : t.isFixed)
    (yes : ∀ met, Scan.step ⟨false, σ.met⟩ t = some ⟨false, met⟩ →
      Copies ⟨none, met, σ.words ++ Token.bare [t]⟩ (f true) τ)
    (no : Copies σ (f false) τ) : Copies σ (Parser.eat t >>= f) τ := by
  intro c a d s lexical ends next run clean scan
  obtain ⟨plain, more⟩ := Token.ne_of_isFixed fixed
  rw [bind_apply, Parser.eat] at run
  by_cases seen : c.sees t = true
  · rw [if_pos seen] at run
    exact Copies.pass yes plain more lexical ends (c.token_of_sees fixed seen) run clean scan
  · rw [if_neg seen] at run
    exact no c a d s lexical ends next run clean scan

end

/-- A name is passed as it is. -/
theorem copies_name {c d : Cursor} {s : Scan} {name : String} (ends : c.Ends)
    (token : c.token = .ident name) (here : c.advance = d)
    (scan : (c.passed d).foldlM Scan.step ⟨false, σ.met⟩ = some s) :
    s = ⟨false, σ.met⟩ ∧ Token.bare (c.passed d) = [.ident name] := by
  have passed : c.passed d = [.ident name] := by
    rw [← here, ends.passed_advance (by simp [token]), token]
  rw [passed] at scan ⊢
  cases scan
  exact ⟨rfl, rfl⟩

theorem writes_ident : Writes ident fun i => [.ident i.name] := by
  intro σ c i d s _ ends _ run clean scan
  unfold ident at run
  split at run <;> cases run
  rename_i token
  obtain ⟨same, words⟩ := copies_name ends token rfl scan
  exact ⟨same, by rw [words]; rfl, by simp [Place.then]⟩

theorem writes_ident? : Writes ident? fun o => o.toList.map fun i => .ident i.name := by
  intro σ c o d s _ ends _ run clean scan
  unfold ident? at run
  split at run <;> cases run
  · rename_i token
    obtain ⟨same, words⟩ := copies_name ends token rfl scan
    exact ⟨same, by rw [words]; rfl, by simp [Place.then]⟩
  · rw [Cursor.passed_same rfl] at scan ⊢
    cases scan
    exact ⟨rfl, rfl, by simp [Place.then]⟩

theorem property_ok {c d : Cursor} {i : Ident} (lexical : c.Lexical)
    (run : property c = (.ok i, d)) :
    c.token = .ofName i.name ∧ c.token ≠ .eof ∧ d = c.advance := by
  unfold property at run
  split at run
  · rename_i k word
    cases run
    exact ⟨word.trans (Lexer.ofName_keyword k).symm, by simp [word], rfl⟩
  · unfold ident at run
    split at run <;> cases run
    rename_i name word
    have free : Keyword.ofText? name = none := by
      have own := lexical.token
      rw [word] at own
      exact Option.isNone_iff_eq_none.mp (Bool.and_eq_true_iff.mp own).2
    exact ⟨by rw [word, Token.ofName, free], by simp [word], rfl⟩

/-- A dot and a name. -/
theorem Copies.property {f : Ident → Parser α} [∀ i, Keeps (f i)]
    (h : ∀ i, Copies (σ.then [.sym .dot, .ofName i.name]) (f i) τ) :
    Copies (σ.seeing (.sym .dot)) (Parser.advance >>= fun _ => Parser.property >>= f) τ := by
  intro c a d s lexical ends next run clean scan
  have dot : c.token = .sym .dot := next _ rfl
  have still := c.leads_advance.lexical lexical
  have ends' := c.leads_advance.ends ends
  have still' := c.advance.leads_advance.lexical still
  have ends'' := c.advance.leads_advance.ends ends'
  change (Parser.property >>= f) c.advance = _ at run
  rw [bind_apply] at run
  rcases name : Parser.property c.advance with ⟨_ | i, d'⟩ <;> rw [name] at run
  · cases run
  obtain ⟨token, more, rfl⟩ := property_ok still name
  change f i c.advance.advance = _ at run
  have leads := Keeps.leads (p := f i) c.advance.advance
  rw [run] at leads
  have passed : c.passed d = .sym .dot :: .ofName i.name :: c.advance.advance.passed d := by
    rw [c.leads_advance.passed_trans (c.advance.leads_advance.trans leads),
      c.advance.leads_advance.passed_trans leads, ends.passed_advance (by simp [dot]),
      ends'.passed_advance more, dot, token]
    rfl
  rw [passed] at scan
  obtain ⟨same, words, next⟩ := h i c.advance.advance a d s still' ends'' nofun run clean scan
  refine ⟨same, ?_, next⟩
  rw [passed, ← words]
  exact (List.append_assoc σ.words (Token.bare [.sym .dot, .ofName i.name]) _).symm ▸
    congrArg (σ.words ++ ·) (Token.bare_append [.sym .dot, .ofName i.name] _)

/-! ## Parsers around parsers -/

section
variable {p : Parser α} {out : α → List Token}

theorem Copies.nested (h : Copies σ p τ) (name : String) : Copies σ (nested name p) τ := by
  intro c a d s lexical ends next run clean scan
  unfold Parser.nested enter at run
  cases deeper : Limit.enter name c.span c.depth with
  | error e =>
    rw [deeper] at run
    cases run
  | ok depth =>
    rw [deeper] at run
    cases inner : p { c with depth } with
    | mk r d' =>
      change ((p { c with depth }).1, (p { c with depth }).2.leave) = _ at run
      rw [inner] at run
      cases run
      exact h { c with depth } a d' s lexical ends next inner clean scan

theorem Copies.suggesting (h : Copies σ p τ) (suggestion : String) :
    Copies σ (suggesting suggestion p) τ := by
  intro c a d s lexical ends next run
  refine h c a d s lexical ends next ?_
  unfold Parser.suggesting at run
  split at run
  · cases run
  · exact run

/-- A parser whose failures are recorded. -/
theorem Copies.attempt {f : Except SyntaxError α → Parser β} {υ : β → Place} [Keeps p]
    [∀ a, Keeps (f (.ok a))] (h : Copies σ p τ) (hf : ∀ a, Copies (τ a) (f (.ok a)) υ)
    (recorded : ∀ e c, (f (.error e) c).2.recorded ≠ []) : Copies σ (attempt p >>= f) υ := by
  have same : ∀ c, (Parser.attempt p >>= f) c = f (p c).1 (p c).2 := fun c => rfl
  have through : Copies σ (p >>= fun a => f (.ok a)) υ := h.bind hf
  intro c b d s lexical ends next run clean scan
  rw [same] at run
  rcases first : p c with ⟨e | a, c'⟩ <;> rw [first] at run
  · exact absurd clean (by have := recorded e c'; rwa [run] at this)
  · exact through c b d s lexical ends next (by rw [bind_apply, first]; exact run) clean scan

theorem Copies.throw {e : SyntaxError} : Copies σ (throw e) τ := .failing fun _ _ h => nomatch h

theorem Copies.unexpected (expected : List Token) : Copies σ (unexpected expected) τ :=
  .failing fun _ _ h => nomatch h

theorem Copies.noRoom (name : String) : Copies σ (noRoom name) τ :=
  .failing fun _ _ h => nomatch h

/-- A parser that goes on unless something is wrong. -/
theorem Copies.unless {c : Prop} [Decidable c] {e : SyntaxError} {f : Unit → Parser α}
    (h : ¬ c → Copies σ (f ()) τ) :
    Copies σ (if c then MonadExcept.throw e >>= f else f ()) τ := by
  split
  · exact .failing fun _ _ h => nomatch h
  · exact h ‹_›

/-! ## Lists -/

namespace Writes

theorem nested (h : Writes p out) (name : String) : Writes (nested name p) out :=
  fun σ => (h σ).nested name

variable [Keeps p]

theorem some (h : Writes p out) : Writes (some <$> p) fun o => o.elim [] out := by
  intro σ
  rw [← bind_pure_comp]
  exact (h σ).bind fun a => .done rfl rfl rfl

theorem unlessAt (h : Writes p out) (t : Token) : Writes (unlessAt t p) fun o => o.elim [] out := by
  refine fun σ => .look fun absent => ?_
  split
  · exact .done rfl (by simp [Place.then]) rfl
  · exact h.some σ

theorem commaList (h : Writes p out) (n : Nat) :
    Writes (commaList p n) fun as => Token.commas (as.map out) := by
  induction n with
  | zero => exact fun σ => (h σ).bind fun a => .done rfl rfl rfl
  | succ n ih =>
    refine fun σ => (h σ).bind fun a => .eat rfl (fun met step => ?_) ?_
    · cases step
      have any : Gives p fun _ => True := fun _ _ _ => trivial
      have nonempty : Gives (Parser.commaList p n) (· ≠ []) :=
        (any.commaList n).weaken fun _ h => h.1
      refine (ih _).bind_gives nonempty fun as more => .done rfl ?_ rfl
      dsimp only [Place.then]
      rw [List.map_cons, Token.commas.eq_3 _ _ (by simpa using more)]
      simp [Token.isBracket]
    · exact .done rfl rfl rfl

theorem untilParen (h : Writes p out) :
    Writes (untilParen p) fun as => Token.commas (as.map out) := by
  intro σ
  have close : ∀ as : List α, Copies (σ.then (Token.commas (as.map out)))
      (do
        let _ ← expect (.sym .rightParen)
        return as)
      fun as => σ.then (Token.commas (as.map out)) :=
    fun as => .expect rfl rfl fun _ => .done rfl (List.append_nil _) rfl
  refine .look fun closed => ?_
  dsimp only
  split
  · exact Copies.bind (τ := fun as => σ.then (Token.commas (as.map out)))
      (.done rfl (by simp [Place.then, Token.commas]) rfl) close
  · exact .look fun n => (h.commaList n σ).bind close

end Writes

end

end Parser
end WaitDefer
