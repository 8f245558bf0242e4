import WaitDefer.Proofs.Grammar.Facing
import WaitDefer.Proofs.Grammar.Laid
import WaitDefer.Proofs.Grammar.Progress

/-!
# Reading from place to place

Where a parser without an error begins and ends: the number of tokens passed and of ids handed out.

* `Cursor.At`: a place in a text;
* `Parser.From`: what a parser reads from a place on, with the place it comes to;
* `From.bind`, `From.expect`, `From.freshId`: one parser after another, and the small steps;
* `Parser.Lays`: a parser that lays what it reads over the tokens it passes.
-/

namespace WaitDefer

set_option synthInstance.maxSize 512

/-! ## Places -/

/-- The supply after `n` ids. -/
def IdSupply.since (n : Nat) : IdSupply :=
  ⟨if n ≤ NodeId.last then some n else none, decide (¬ n ≤ NodeId.last + 1)⟩

theorem IdSupply.fresh_since (n : Nat) : (since n).fresh = (nth n, since (n + 1)) := by
  by_cases room : n ≤ NodeId.last
  · have here : since n = ⟨some n, false⟩ := by
      rw [since, if_pos room, decide_eq_false (by omega)]
    have next : since (n + 1) = ⟨successor n, false⟩ := by
      rw [since, successor, decide_eq_false (by omega)]
      rfl
    rw [here, next, nth, Nat.min_eq_left room]
    rfl
  · have none : ∀ k, n ≤ k → (if k ≤ NodeId.last then some k else Option.none) = Option.none :=
      fun k le => if_neg (by omega)
    have last : nth n = NodeId.last := Nat.min_eq_right (by omega)
    rw [since, since, none n le_rfl, none (n + 1) (Nat.le_succ n), last, fresh,
      decide_eq_true (p := ¬ n + 1 ≤ NodeId.last + 1) (by omega)]

/-- The token at place `i`. -/
def tokenAt (ts : Array Located) (i : Nat) : Token := (ts[i]?.getD default).token

namespace Cursor

/-- A place among some tokens, after `i` of them and after `n` ids. -/
structure At (ts : Array Located) (i n : Nat) (c : Cursor) : Prop where
  tokens : c.tokens = ts
  pos : c.pos = i
  ids : c.ids = .since n

variable {ts : Array Located} {i n : Nat} {c : Cursor}

theorem At.here (h : c.At ts i n) : ts[i]? = some c.here := by
  rw [← h.tokens, ← h.pos, Array.getElem?_eq_getElem c.inBounds]
  rfl

theorem At.inside (h : c.At ts i n) : i < ts.size := by
  rw [← h.tokens, ← h.pos]
  exact c.inBounds

theorem At.token (h : c.At ts i n) : c.token = tokenAt ts i := by
  rw [tokenAt, h.here]
  rfl

theorem At.span (h : c.At ts i n) : c.span = spanAt ts i := by
  rw [spanAt, h.here]
  rfl

theorem At.spanFrom (h : c.At ts i n) (start : Span) :
    c.spanFrom start = start.through (spanAt ts (i - 1)) := by
  have inside := h.inside
  have before : ts[i - 1]? = some ts[i - 1] := Array.getElem?_eq_getElem (by omega)
  rw [Cursor.spanFrom, previousSpan, h.tokens, h.pos, spanAt, before]
  rfl

theorem At.advance (h : c.At ts i n) (ends : c.Ends) (more : c.token ≠ .eof) :
    c.advance.At ts (i + 1) n := by
  have next := pos_advance (ends.inside more)
  refine ⟨c.leads_advance.tokens.trans h.tokens, next.trans (congrArg (· + 1) h.pos), ?_⟩
  rw [ids_advance, h.ids]

end Cursor

namespace Parser

variable {α β : Type}

/-- From a place on, and unless an error comes out, a parser that reads `a` comes to another place,
and the two are related by `T`. -/
def From (ts : Array Located) (i n : Nat) (p : Parser α) (T : α → Nat → Nat → Prop) : Prop :=
  ∀ c a d, c.At ts i n → c.Ends → p c = (.ok a, d) → d.recorded = [] →
    ∃ j m, d.At ts j m ∧ T a j m

namespace From

section
variable {ts : Array Located} {i n : Nat} {p : Parser α} {f : α → Parser β}
  {T : α → Nat → Nat → Prop} {U : β → Nat → Nat → Prop}

/-! ## One after another -/

theorem done {a : α} (h : T a i n) : From ts i n (pure a) T := by
  rintro c b d here _ ⟨⟩ _
  exact ⟨i, n, here, h⟩

theorem bind [Keeps p] [∀ a, Keeps (f a)] (hp : From ts i n p T)
    (hf : ∀ a j m, T a j m → From ts j m (f a) U) : From ts i n (p >>= f) U := by
  intro c b e here ends run clean
  have first := Keeps.leads (p := p) c
  rw [bind_apply] at run
  rcases step : p c with ⟨_ | a, d⟩ <;> rw [step] at run first
  · cases run
  have second := Keeps.leads (p := f a) d
  change f a d = _ at run
  rw [run] at second
  have quiet : d.recorded = [] := by
    have kept := second.recorded
    rwa [clean, List.suffix_nil] at kept
  obtain ⟨j, m, there, t⟩ := hp c a d here ends step quiet
  exact hf a j m t d b e there (first.ends ends) run clean

theorem weaken {T' : α → Nat → Nat → Prop} (h : From ts i n p T)
    (imp : ∀ a j m, T a j m → T' a j m) : From ts i n p T' := by
  intro c a d here ends run clean
  obtain ⟨j, m, there, t⟩ := h c a d here ends run clean
  exact ⟨j, m, there, imp a j m t⟩

theorem map [Keeps p] {g : α → β} (h : From ts i n p fun a => U (g a)) :
    From ts i n (g <$> p) U := by
  rw [← bind_pure_comp]
  exact h.bind fun a j m u => .done u

/-- A parser that only fails. -/
theorem failing (h : ∀ c a, (p c).1 ≠ .ok a) : From ts i n p T :=
  fun c a _ _ _ run => absurd (by rw [run]) (h c a)

theorem throw {e : SyntaxError} : From ts i n (throw e) T := .failing fun _ _ h => nomatch h

theorem unexpected (expected : List Token) : From ts i n (unexpected expected) T :=
  .failing fun _ _ h => nomatch h

theorem noRoom (name : String) : From ts i n (noRoom name) T := .failing fun _ _ h => nomatch h

/-- A parser that goes on unless something is wrong. -/
theorem guarded {c : Prop} [Decidable c] {e : SyntaxError} {f : Unit → Parser α}
    (h : ¬ c → From ts i n (f ()) T) :
    From ts i n (if c then MonadExcept.throw e >>= f else f ()) T := by
  split
  · exact .failing fun _ _ h => nomatch h
  · exact h ‹_›

/-! ## Questions -/

theorem look {g : Cursor → α} (h : ∀ a, From ts i n (f a) U) : From ts i n (look g >>= f) U :=
  fun c => h (g c) c

theorem span {f : Span → Parser β} (h : From ts i n (f (spanAt ts i)) U) :
    From ts i n (Parser.look (·.span) >>= f) U := by
  intro c a d here
  rw [← here.span] at h
  exact h c a d here

theorem spanFrom {f : Span → Parser β} {start : Span}
    (h : From ts i n (f (start.through (spanAt ts (i - 1)))) U) :
    From ts i n (Parser.look (·.spanFrom start) >>= f) U := by
  intro c a d here
  rw [← here.spanFrom] at h
  exact h c a d here

theorem token {f : Token → Parser β} (h : From ts i n (f (tokenAt ts i)) U) :
    From ts i n (Parser.look (·.token) >>= f) U := by
  intro c a d here
  rw [← here.token] at h
  exact h c a d here

/-- Asking for a token that is not the end of the text. -/
theorem sees {f : Bool → Parser β} {t : Token} (other : Token.eof.sameKind t = false)
    (yes : tokenAt ts i ≠ .eof → From ts i n (f true) U) (no : From ts i n (f false) U) :
    From ts i n (Parser.look (·.sees t) >>= f) U := by
  intro c a d here ends run
  change f (c.sees t) c = _ at run
  cases seen : c.sees t with
  | true =>
    rw [seen] at run
    exact yes (here.token ▸ Cursor.token_ne_eof seen other) c a d here ends run
  | false =>
    rw [seen] at run
    exact no c a d here ends run

/-! ## Tokens and ids -/

theorem freshId {f : NodeId → Parser β} (h : From ts i (n + 1) (f (IdSupply.nth n)) U) :
    From ts i n (Parser.freshId >>= f) U := by
  intro c a d here ends run
  have fresh : c.ids.fresh = (IdSupply.nth n, .since (n + 1)) := by
    rw [here.ids, IdSupply.fresh_since]
  change f c.ids.fresh.1 { c with ids := c.ids.fresh.2 } = _ at run
  rw [fresh] at run
  exact h { c with ids := .since (n + 1) } a d ⟨here.tokens, here.pos, rfl⟩ ends run

theorem advance {f : Token → Parser β} (more : tokenAt ts i ≠ .eof)
    (h : From ts (i + 1) n (f (tokenAt ts i)) U) : From ts i n (Parser.advance >>= f) U := by
  intro c a d here ends run
  have next := here.advance ends (here.token ▸ more)
  rw [← here.token] at h
  exact h c.advance a d next (c.leads_advance.ends ends) run

theorem expect {f : Token → Parser β} {t : Token} (other : Token.eof.sameKind t = false)
    (h : ∀ u, From ts (i + 1) n (f u) U) : From ts i n (Parser.expect t >>= f) U := by
  intro c a d here ends run
  rw [bind_apply, Parser.expect] at run
  by_cases seen : c.sees t = true
  · rw [if_pos seen] at run
    have next := here.advance ends (Cursor.token_ne_eof seen other)
    exact h c.token c.advance a d next (c.leads_advance.ends ends) run
  · rw [if_neg seen] at run
    cases run

theorem eat {f : Bool → Parser β} {t : Token} (other : Token.eof.sameKind t = false)
    (yes : From ts (i + 1) n (f true) U) (no : From ts i n (f false) U) :
    From ts i n (Parser.eat t >>= f) U := by
  intro c a d here ends run
  rw [bind_apply, Parser.eat] at run
  by_cases seen : c.sees t = true
  · rw [if_pos seen] at run
    have next := here.advance ends (Cursor.token_ne_eof seen other)
    exact yes c.advance a d next (c.leads_advance.ends ends) run
  · rw [if_neg seen] at run
    exact no c a d here ends run

/-- A name, which covers one token. -/
theorem name : From ts i n Parser.ident fun x j m => x.span = spanAt ts i ∧ j = i + 1 ∧ m = n := by
  intro c x d here ends run clean
  unfold Parser.ident at run
  split at run
  case h_2 => cases run
  case h_1 name found =>
    cases run
    exact ⟨i + 1, n, here.advance ends (by simp [found]), here.span, rfl, rfl⟩

theorem property :
    From ts i n Parser.property fun x j m => x.span = spanAt ts i ∧ j = i + 1 ∧ m = n := by
  intro c x d here ends run clean
  unfold Parser.property at run
  split at run
  · rename_i found
    cases run
    exact ⟨i + 1, n, here.advance ends (by simp [found]), here.span, rfl, rfl⟩
  · exact name c x d here ends run clean

/-! ## Parsers around parsers -/

theorem nested (h : From ts i n p T) (name : String) : From ts i n (nested name p) T := by
  intro c a d here ends run clean
  unfold Parser.nested enter at run
  cases deeper : Limit.enter name c.span c.depth with
  | error e =>
    rw [deeper] at run
    cases run
  | ok depth =>
    rw [deeper] at run
    cases inner : p { c with depth } with
    | mk r d' =>
      change ((p { c with depth }).1, (p { c with depth }).2.leave) = _ at run
      rw [inner] at run
      cases run
      obtain ⟨j, m, there, t⟩ := h { c with depth } a d' ⟨here.tokens, here.pos, here.ids⟩ ends
        inner clean
      exact ⟨j, m, ⟨there.tokens, there.pos, there.ids⟩, t⟩

theorem suggesting (h : From ts i n p T) (suggestion : String) :
    From ts i n (suggesting suggestion p) T := by
  intro c a d here ends run
  refine h c a d here ends ?_
  unfold Parser.suggesting at run
  split at run
  · cases run
  · exact run

/-- A parser whose failures are recorded. -/
theorem attempt {f : Except SyntaxError α → Parser β} [Keeps p] [∀ a, Keeps (f (.ok a))]
    (h : From ts i n p T) (hf : ∀ a j m, T a j m → From ts j m (f (.ok a)) U)
    (recorded : ∀ e c, (f (.error e) c).2.recorded ≠ []) :
    From ts i n (attempt p >>= f) U := by
  have same : ∀ c, (Parser.attempt p >>= f) c = f (p c).1 (p c).2 := fun c => rfl
  have through : From ts i n (p >>= fun a => f (.ok a)) U := h.bind hf
  intro c b d here ends run clean
  rw [same] at run
  rcases first : p c with ⟨e | a, c'⟩ <;> rw [first] at run
  · exact absurd clean (by have := recorded e c'; rwa [run] at this)
  · exact through c b d here ends (by rw [bind_apply, first]; exact run) clean

end
end From

/-! ## Laying -/

/-- What is read lies over the tokens passed, and there are enough of these: `spare` more than
ids. -/
structure Laying (ts : Array Located) (spare i n j m : Nat) (xs : List Spot) : Prop where
  laid : Laid ts i n j m xs
  room : m + i + spare ≤ n + j

namespace Laying

variable {ts : Array Located} {a b i j k n m l : Nat} {x y z : Spot} {parts xs ys : List Spot}

theorem nil : Laying ts 0 i n i n [] := ⟨.nil le_rfl, by omega⟩

theorem less (h : Laying ts a i n j m xs) (le : b ≤ a) : Laying ts b i n j m xs :=
  ⟨h.laid, by have := h.room; omega⟩

theorem append (h : Laying ts a i n j m xs) (h' : Laying ts b j m k l ys) :
    Laying ts (a + b) i n k l (xs ++ ys) :=
  ⟨h.laid.append h'.laid, by have := h.room; have := h'.room; omega⟩

/-- One more token comes after. -/
theorem passed (h : Laying ts a i n j m xs) : Laying ts (a + 1) i n (j + 1) m xs :=
  ⟨h.laid.widen le_rfl (Nat.le_succ j), by have := h.room; omega⟩

/-- One more token comes before. -/
theorem after (h : Laying ts a (i + 1) n j m xs) : Laying ts (a + 1) i n j m xs :=
  ⟨h.laid.widen (Nat.le_succ i) le_rfl, by have := h.room; omega⟩

theorem plain (h : Laying ts (a + 1) i n j m parts) (span : x.span = stretch ts i j)
    (none : x.id? = none) (holds : x.Holds parts) : Laying ts (a + 1) i n j m [x] := by
  have room := h.room
  have later := h.laid.le
  exact ⟨.plain (by omega) span none h.laid holds, room⟩

/-- Some parts with an id around them, which one of the spare tokens pays for. -/
theorem numbered (h : Laying ts (a + 1) i (n + 1) j m parts) (span : x.span = stretch ts i j)
    (own : x.id? = some (IdSupply.nth n)) (holds : x.Holds parts) : Laying ts a i n j m [x] := by
  have room := h.room
  have later := h.laid.le
  exact ⟨.numbered (by omega) span own h.laid holds, by omega⟩

/-- A spot that covers one token. -/
theorem leaf (span : x.span = spanAt ts i) (none : x.id? = none) (holds : x.Holds []) :
    Laying ts 1 i n (i + 1) n [x] :=
  plain nil.passed span none holds

/-- A spot that covers the same tokens as its only part. -/
theorem same (h : Laying ts a i n j m [y]) (span : x.span = y.span) (none : x.id? = none)
    (holds : x.Holds [y]) : Laying ts a i n j m [x] := by
  obtain ⟨i', j', first, some, last, is, tight⟩ := h.laid.tight
  exact ⟨(Laid.plain some (span.trans is) none tight holds).widen first last, h.room⟩

theorem wrapped (h : Laying ts (a + 1) i (n + 1) j m [y]) (span : x.span = y.span)
    (own : x.id? = some (IdSupply.nth n)) (holds : x.Holds [y]) : Laying ts a i n j m [x] := by
  obtain ⟨i', j', first, some, last, is, tight⟩ := h.laid.tight
  have room := h.room
  exact ⟨(Laid.numbered some (span.trans is) own tight holds).widen first last, by omega⟩

/-- What comes before a spot, up to just where it ends. -/
theorem through (h : Laying ts a i n j m xs) (h' : Laying ts b j m k l [y]) :
    ∃ k', i < k' ∧ k' ≤ k ∧ (spanAt ts i).through y.span = stretch ts i k' ∧
      Laid ts i n k' l (xs ++ [y]) := by
  obtain ⟨i', j', first, some, last, is, tight⟩ := h'.laid.tight
  have before := h.laid.le
  refine ⟨j', by omega, last, ?_, h.laid.append (tight.widen first le_rfl)⟩
  rw [is]
  rfl

/-- A spot from a token on to where its last part ends. -/
theorem closed (h : Laying ts a i n j m xs) (h' : Laying ts b j m k l [y])
    (span : x.span = (spanAt ts i).through y.span) (none : x.id? = none)
    (holds : x.Holds (xs ++ [y])) : Laying ts (a + b) i n k l [x] := by
  obtain ⟨k', some, le, is, laid⟩ := h.through h'
  have room := h.room
  have room' := h'.room
  exact ⟨(Laid.plain some (span.trans is) none laid holds).widen le_rfl le, by omega⟩

theorem closed_numbered (h : Laying ts (a + 1) i (n + 1) j m xs) (h' : Laying ts b j m k l [y])
    (span : x.span = (spanAt ts i).through y.span) (own : x.id? = some (IdSupply.nth n))
    (holds : x.Holds (xs ++ [y])) : Laying ts (a + b) i n k l [x] := by
  obtain ⟨k', some, le, is, laid⟩ := h.through h'
  have room := h.room
  have room' := h'.room
  exact ⟨(Laid.numbered some (span.trans is) own laid holds).widen le_rfl le, by omega⟩

/-- Two spots and what holds them, from where the first one starts to where the second one ends. -/
theorem join (hx : Laying ts 1 i n j m [x]) (hy : Laying ts 1 (j + 1) m k l [y])
    (span : z.span = x.span.through y.span) (none : z.id? = none) (holds : z.Holds [x, y]) :
    Laying ts 1 i n k l [z] := by
  obtain ⟨a, b, first, some, last, is, tight⟩ := hx.laid.tight
  obtain ⟨a', b', first', some', last', is', tight'⟩ := hy.laid.tight
  have roomX := hx.room
  have roomY := hy.room
  have both := tight.append (tight'.widen (show b ≤ a' by omega) le_rfl)
  have whole : z.span = stretch ts a b' := by
    rw [span, is, is']
    rfl
  exact ⟨(Laid.plain (by omega) whole none both holds).widen first last', by omega⟩

/-- A spot and what holds it and more, from where the spot starts. -/
theorem extend (hx : Laying ts 1 i n j m [x]) (more : Laying ts b j m k l ys)
    (span : z.span = x.span.through (spanAt ts (k - 1))) (none : z.id? = none)
    (holds : z.Holds (x :: ys)) : Laying ts 1 i n k l [z] := by
  obtain ⟨a, b, first, some, last, is, tight⟩ := hx.laid.tight
  have roomX := hx.room
  have roomY := more.room
  have later := more.laid.le
  have both := tight.append (more.laid.widen last le_rfl)
  have whole : z.span = stretch ts a k := by
    rw [span, is]
    rfl
  exact ⟨(Laid.plain (by omega) whole none both holds).widen first le_rfl, by omega⟩

/-- An arm for a value, from its first token on; its block starts there too. -/
theorem arm {test : Expr} {ss : List Statement} (ht : Laying ts 1 (i + 1) n j m [.expr test])
    (hb : Laying ts 0 (j + 1) (m + 1) k l (ss.map .statement)) :
    Laying ts 0 i n k l
      [.arm ⟨test, ⟨IdSupply.nth m, ss, stretch ts i k⟩, stretch ts i k⟩] := by
  have before := ht.laid.le
  have later := hb.laid.le
  have room := ht.room
  have room' := hb.room
  have body : Laid ts i m k l [.block ⟨IdSupply.nth m, ss, stretch ts i k⟩] :=
    .numbered (by omega) rfl rfl (hb.laid.widen (by omega) le_rfl) rfl
  have first := ht.laid.widen (show i ≤ i + 1 by omega) (show j ≤ k by omega)
  exact ⟨.arm le_rfl (by omega) rfl first body (.nil le_rfl), by omega⟩

/-- A statement whose span goes on to one more token. -/
theorem terminated {s : Statement} (h : Laying ts a i n j m [.statement s]) :
    Laying ts (a + 1) i n (j + 1) m [.statement { s with span := stretch ts i (j + 1) }] := by
  obtain ⟨laid, room⟩ := h
  cases laid with
  | cons le some span own inside holds more =>
    cases more with
    | nil last =>
      have wide := inside.widen le (last.trans (Nat.le_succ j))
      exact ⟨.cons le_rfl (by omega) rfl own wide holds (.nil le_rfl), by omega⟩

end Laying

/-- A parser that lays what it reads over the tokens it passes. -/
def Lays (ts : Array Located) (spare : Nat) (p : Parser α) (spots : α → List Spot) : Prop :=
  ∀ i n, From ts i n p fun a j m => Laying ts spare i n j m (spots a)

namespace Lays

variable {ts : Array Located} {spare : Nat} {p : Parser α} {spot : α → Spot}

theorem ident : Lays ts 1 Parser.ident fun x => [.ident x] := by
  intro i n
  refine From.name.weaken ?_
  rintro x _ _ ⟨span, rfl, rfl⟩
  exact .leaf span rfl (.refl _)

theorem ident? : Lays ts 0 Parser.ident? fun o => o.toList.map .ident := by
  intro i n c o d here ends run clean
  unfold Parser.ident? at run
  split at run
  case h_1 name found =>
    cases run
    refine ⟨i + 1, n, here.advance ends (by simp [found]), ?_⟩
    exact Laying.less (.leaf here.span rfl (.refl _)) (Nat.zero_le 1)
  case h_2 =>
    cases run
    exact ⟨i, n, here, .nil⟩

theorem nested {spots : α → List Spot} (h : Lays ts spare p spots) (name : String) :
    Lays ts spare (nested name p) spots :=
  fun i n => (h i n).nested name

theorem suggesting {spots : α → List Spot} (h : Lays ts spare p spots) (suggestion : String) :
    Lays ts spare (suggesting suggestion p) spots :=
  fun i n => (h i n).suggesting suggestion

variable [Keeps p]

theorem some (h : Lays ts spare p fun a => [spot a]) :
    Lays ts 0 (some <$> p) fun o => o.toList.map spot := by
  intro i n
  exact ((h i n).weaken fun a j m l => l.less (Nat.zero_le spare)).map

theorem unlessAt (h : Lays ts spare p fun a => [spot a]) (t : Token) :
    Lays ts 0 (unlessAt t p) fun o => o.toList.map spot := by
  intro i n
  refine .look fun absent => ?_
  split
  · exact .done .nil
  · exact h.some i n

theorem commaList (h : Lays ts spare p fun a => [spot a]) (count : Nat) :
    Lays ts 0 (commaList p count) fun as => as.map spot := by
  induction count with
  | zero => exact fun i n => (h i n).bind fun a j m l => .done (l.less (Nat.zero_le _))
  | succ count ih =>
    refine fun i n => (h i n).bind fun a j m l => .eat rfl ?_ ?_
    · exact (ih _ _).bind fun as j' m' ls => .done ((l.append ls.after).less (Nat.zero_le _))
    · exact .done (l.less (Nat.zero_le _))

theorem untilParen (h : Lays ts spare p fun a => [spot a]) :
    Lays ts 1 (untilParen p) fun as => as.map spot := by
  intro i n
  have close : ∀ (as : List α) (j m : Nat), Laying ts 0 i n j m (as.map spot) →
      From ts j m (do
        let _ ← expect (.sym .rightParen)
        return as) fun as j m => Laying ts 1 i n j m (as.map spot) :=
    fun as j m l => .expect rfl fun _ => .done l.passed
  refine .look fun closed => ?_
  dsimp only
  split
  · exact From.bind (T := fun as j m => Laying ts 0 i n j m (as.map spot)) (.done .nil) close
  · exact .look fun count => (h.commaList count i n).bind close

end Lays

end Parser
end WaitDefer
