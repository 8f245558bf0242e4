import WaitDefer.Proofs.Grammar.Keeping

/-!
# What lies ahead

What a parser does on a text, told by the tokens that lie ahead of it:

* `Cursor.Faces`: the tokens ahead of a cursor, and the levels of nesting that are left;
* `Parser.Reads`: a parser passes some tokens and goes on in a given way, or an error comes out;
* `Reads.step`, `Reads.bind`, `Reads.then`: one reading after another;
* `Reads.expect`, `Reads.nested`, `Reads.untilParen`: the small steps.
-/

namespace WaitDefer

/-- A cursor that has met no error: the tokens ahead of it, without the end of the text, and how many
levels deeper the text may nest. -/
structure Cursor.Faces (c : Cursor) (room : Nat) (ts : List Token) : Prop where
  ahead : c.rest.map Located.token = ts ++ [.eof]
  depth : c.depth + room = Limit.nesting
  clean : c.recorded = []

namespace Cursor

variable {c : Cursor} {room : Nat} {t : Token} {ts : List Token}

theorem rest_eq (c : Cursor) : c.rest = c.here :: c.tokens.toList.drop (c.pos + 1) := by
  rw [rest, List.drop_eq_getElem_cons (by simpa using c.inBounds)]
  rfl

namespace Faces

theorem token (h : c.Faces room ts) : c.token = ts.headD .eof := by
  have ahead := h.ahead
  rw [rest_eq, List.map_cons] at ahead
  cases ts with
  | nil => exact (List.cons.inj ahead).1
  | cons t ts => exact (List.cons.inj ahead).1

theorem size (h : c.Faces room ts) : ts.length < c.tokens.size := by
  have lengths := congrArg List.length h.ahead
  simp only [rest, List.length_map, List.length_drop, Array.length_toList, List.length_append,
    List.length_singleton] at lengths
  omega

theorem next (h : c.Faces room (t :: ts)) : c.pos + 1 < c.tokens.size ∧
    (c.tokens.toList.drop (c.pos + 1)).map Located.token = ts ++ [.eof] := by
  have ahead := h.ahead
  rw [rest_eq, List.map_cons] at ahead
  have tail : _ = ts ++ [Token.eof] := (List.cons.inj ahead).2
  have lengths := congrArg List.length tail
  simp only [List.length_map, List.length_drop, Array.length_toList, List.length_append,
    List.length_singleton] at lengths
  exact ⟨by omega, tail⟩

theorem advance (h : c.Faces room (t :: ts)) : c.advance.Faces room ts := by
  obtain ⟨inside, tail⟩ := h.next
  rw [Cursor.advance, dif_pos inside]
  exact ⟨tail, h.depth, h.clean⟩

theorem peek? (h : c.Faces room (t :: ts)) : c.peek? = some (ts.headD .eof) := by
  obtain ⟨inside, tail⟩ := h.next
  have head : (ts ++ [Token.eof])[0]? = some (ts.headD .eof) := by cases ts <;> rfl
  rw [← tail, List.getElem?_map, List.getElem?_drop, Array.getElem?_toList] at head
  exact head

end Faces
end Cursor

/-- Runs of tokens with commas between them. -/
def Token.commas : List (List Token) → List Token
  | [] => []
  | [w] => w
  | w :: ws => w ++ .sym .comma :: commas ws

theorem Token.commas_cons (w : List Token) (ws : List (List Token)) :
    ∃ more, commas (w :: ws) = w ++ more := by
  cases ws with
  | nil => exact ⟨[], (List.append_nil w).symm⟩
  | cons v ws => exact ⟨_, rfl⟩

theorem Token.length_commas {ws : List (List Token)} (h : ∀ w ∈ ws, w ≠ []) :
    ws.length ≤ (commas ws).length := by
  induction ws using commas.induct with
  | case1 => exact le_rfl
  | case2 w => exact List.length_pos_iff.mpr (h w List.mem_cons_self)
  | case3 w ws more ih =>
    have rest := ih fun v hv => h v (List.mem_cons_of_mem _ hv)
    rw [commas.eq_3 _ _ more, List.length_append, List.length_cons, List.length_cons]
    omega

namespace Parser

variable {α β γ : Type} {sure : Prop} {room : Nat} {ts mid rest : List Token}

/-- An error came out: the reading failed, or went on after a failure that it recorded. -/
def Lost (r : Except SyntaxError α × Cursor) : Prop := (∃ e, r.1 = .error e) ∨ r.2.recorded ≠ []

/-- Whoever records an error loses. -/
theorem recorded_record {f : Unit → Parser α} [Keeps (f ())] (e : SyntaxError) (c : Cursor) :
    ((move (·.record e) >>= f) c).2.recorded ≠ [] :=
  (Keeps.leads (p := f ()) (c.record e)).recorded_ne (List.cons_ne_nil _ _)

theorem Lost.bind {p : Parser α} {f : α → Parser β} [∀ a, Keeps (f a)] {c : Cursor}
    (h : Lost (p c)) : Lost ((p >>= f) c) := by
  rw [bind_apply]
  rcases run : p c with ⟨e | a, d⟩ <;> rw [run] at h
  · exact .inl ⟨e, rfl⟩
  · refine .inr ((Keeps.leads (p := f a) d).recorded_ne ?_)
    exact h.resolve_left fun ⟨_, failed⟩ => nomatch failed

/-- On the tokens `ts` the parser passes all but the last ones, `rest`, and then goes on as `k` with
something that has a property. Unless that is `sure`, an error may come out instead. -/
def Reads (sure : Prop) (room : Nat) (p : Parser β) (ts : List Token) (k : α → Parser β)
    (rest : List Token) (P : α → Prop) : Prop :=
  ∀ c, c.Faces room ts →
    (∃ a d, d.Faces room rest ∧ P a ∧ p c = k a d) ∨ ¬ sure ∧ Lost (p c)

namespace Reads

/-! ## One reading after another -/

/-- A parser that already goes on as it should. -/
theorem onward {p : Parser β} {k : α → Parser β} {P : α → Prop} (a : α) (h : P a) (same : p = k a) :
    Reads sure room p ts k ts P :=
  fun c faces => .inl ⟨a, c, faces, h, by rw [same]⟩

/-- The end of a reading. -/
theorem done {P : α → Prop} {a : α} (h : P a) : Reads sure room (pure a) ts pure ts P :=
  .onward a h rfl

/-- An error comes out. -/
theorem lost {p : Parser β} {k : α → Parser β} {P : α → Prop} (unsure : ¬ sure)
    (h : ∀ c, c.Faces room ts → Lost (p c)) : Reads sure room p ts k rest P :=
  fun c faces => .inr ⟨unsure, h c faces⟩

/-- What a parser goes on as is read in turn. -/
theorem «then» {p : Parser β} {k : α → Parser β} {k' : γ → Parser β} {P : α → Prop}
    {Q : γ → Prop} (hp : Reads sure room p ts k mid P)
    (hk : ∀ a, P a → Reads sure room (k a) mid k' rest Q) : Reads sure room p ts k' rest Q := by
  intro c faces
  obtain ⟨a, d, faces, holds, run⟩ | lost := hp c faces
  · rw [run]
    exact hk a holds d faces
  · exact .inr lost

/-- First something that cannot go wrong. -/
theorem step {p : Parser α} {f : α → Parser β} {k : γ → Parser β} {P : α → Prop} {Q : γ → Prop}
    (hp : Reads True room p ts pure mid P) (hf : ∀ a, P a → Reads sure room (f a) mid k rest Q) :
    Reads sure room (p >>= f) ts k rest Q := by
  intro c faces
  obtain ⟨a, d, faces, holds, run⟩ | ⟨unsure, -⟩ := hp c faces
  · rw [bind_apply, run]
    exact hf a holds d faces
  · exact absurd trivial unsure

theorem bind {p : Parser α} {f : α → Parser β} [∀ a, Keeps (f a)] {k : γ → Parser β} {P : α → Prop}
    {Q : γ → Prop} (hp : Reads sure room p ts pure mid P)
    (hf : ∀ a, P a → Reads sure room (f a) mid k rest Q) :
    Reads sure room (p >>= f) ts k rest Q := by
  intro c faces
  obtain ⟨a, d, faces, holds, run⟩ | ⟨unsure, lost⟩ := hp c faces
  · rw [bind_apply, run]
    exact hf a holds d faces
  · exact .inr ⟨unsure, lost.bind⟩

/-- What never goes well is not gone on with. -/
theorem halt {p : Parser α} {f : α → Parser β} [∀ a, Keeps (f a)] {k : γ → Parser β} {Q : γ → Prop}
    (hp : Reads sure room p ts pure [] fun _ => False) : Reads sure room (p >>= f) ts k rest Q :=
  hp.bind fun _ never => never.elim

theorem map {p : Parser α} {f : α → β} {P : α → Prop} {Q : β → Prop}
    (hp : Reads sure room p ts pure rest P) (h : ∀ a, P a → Q (f a)) :
    Reads sure room (f <$> p) ts pure rest Q := by
  rw [← bind_pure_comp]
  exact hp.bind fun a holds => .done (h a holds)

theorem weaken {p : Parser β} {k : α → Parser β} {P Q : α → Prop}
    (hp : Reads sure room p ts k rest P) (h : ∀ a, P a → Q a) : Reads sure room p ts k rest Q :=
  hp.then fun a holds => .onward a (h a holds) rfl

/-! ## Small steps -/

theorem look {f : Cursor → α} {P : α → Prop} (h : ∀ c, c.Faces room ts → P (f c)) :
    Reads sure room (look f) ts pure ts P :=
  fun c faces => .inl ⟨f c, c, faces, h c faces, rfl⟩

/-- Something is asked that does not matter. -/
theorem ask {f : Cursor → α} : Reads sure room (Parser.look f) ts pure ts fun _ => True :=
  .look fun _ _ => trivial

theorem token : Reads sure room (Parser.look (·.token)) ts pure ts (· = ts.headD .eof) :=
  .look fun _ faces => faces.token

theorem sees {t : Token} : Reads sure room (Parser.look (·.sees t)) ts pure ts
    (· = (ts.headD .eof).sameKind t) :=
  .look fun c faces => by rw [Cursor.sees, faces.token]

theorem peek {t : Token} : Reads sure room (Parser.look (·.peek?)) (t :: ts) pure (t :: ts)
    (· = some (ts.headD .eof)) :=
  .look fun _ faces => faces.peek?

theorem size : Reads sure room (Parser.look (·.tokens.size)) ts pure ts (ts.length < ·) :=
  .look fun _ faces => faces.size

theorem advance {t : Token} : Reads sure room advance (t :: ts) pure ts (· = t) :=
  fun c faces => .inl ⟨c.token, c.advance, faces.advance, faces.token, rfl⟩

theorem expect {t t' : Token} (same : t.sameKind t') :
    Reads sure room (expect t') (t :: ts) pure ts (· = t) := by
  intro c faces
  have seen : c.sees t' := by rw [Cursor.sees, faces.token]; exact same
  exact .inl ⟨c.token, c.advance, faces.advance, faces.token, if_pos seen⟩

theorem eat {t t' : Token} (same : t.sameKind t') :
    Reads sure room (eat t') (t :: ts) pure ts (· = true) := by
  intro c faces
  have seen : c.sees t' := by rw [Cursor.sees, faces.token]; exact same
  exact .inl ⟨true, c.advance, faces.advance, rfl, if_pos seen⟩

theorem leave {t' : Token} (other : (ts.headD .eof).sameKind t' = false) :
    Reads sure room (Parser.eat t') ts pure ts (· = false) := by
  intro c faces
  have unseen : c.sees t' = false := by rw [Cursor.sees, faces.token]; exact other
  exact .inl ⟨false, c, faces, rfl, if_neg (by simp [unseen])⟩

theorem freshId : Reads sure room freshId ts pure ts fun _ => True :=
  fun c faces => .inl ⟨c.ids.fresh.1, { c with ids := c.ids.fresh.2 },
    ⟨faces.ahead, faces.depth, faces.clean⟩, trivial, rfl⟩

theorem ident {name : String} :
    Reads sure room ident (.ident name :: ts) pure ts (·.name = name) := by
  intro c faces
  refine .inl ⟨⟨name, c.span⟩, c.advance, faces.advance, rfl, ?_⟩
  rw [Parser.ident, faces.token]
  rfl

theorem property {name : String} :
    Reads sure room property (.ofName name :: ts) pure ts (·.name = name) := by
  intro c faces
  refine .inl ⟨⟨name, c.span⟩, c.advance, faces.advance, rfl, ?_⟩
  have token := faces.token
  rw [List.headD_cons, Token.ofName] at token
  split at token
  · rename_i k found
    have text : k.text = name := eq_of_beq (List.find?_some found :)
    rw [Parser.property, token, ← text]
    rfl
  · rw [Parser.property, token, Parser.ident, token]
    rfl

theorem someIdent {name : String} :
    Reads sure room ident? (.ident name :: ts) pure ts fun o => ∃ i, o = some i ∧ i.name = name := by
  intro c faces
  refine .inl ⟨some ⟨name, c.span⟩, c.advance, faces.advance, ⟨_, rfl, rfl⟩, ?_⟩
  rw [ident?, faces.token]
  rfl

theorem noIdent {t : Token} (other : ∀ name, t ≠ .ident name) :
    Reads sure room ident? (t :: ts) pure (t :: ts) (· = none) := by
  intro c faces
  refine .inl ⟨none, c, faces, rfl, ?_⟩
  rw [ident?, faces.token]
  cases t with
  | ident name => exact absurd rfl (other name)
  | _ => rfl

/-! ## Parsers inside others -/

theorem nested {p : Parser α} {P : α → Prop} (hp : Reads sure room p ts pure rest P)
    (name : String) : Reads sure (room + 1) (nested name p) ts pure rest P := by
  intro c faces
  have depth := faces.depth
  have deep : ¬ Limit.nesting ≤ c.depth := by omega
  have down : Cursor.Faces { c with depth := c.depth + 1 } room ts :=
    ⟨faces.ahead, by dsimp; omega, faces.clean⟩
  have whole : Parser.nested name p c = ((p { c with depth := c.depth + 1 }).1,
      (p { c with depth := c.depth + 1 }).2.leave) := by
    rw [Parser.nested, Parser.enter, Limit.enter, if_neg deep]
  rw [whole]
  obtain ⟨a, d, up, holds, run⟩ | ⟨unsure, lost⟩ := hp _ down
  · refine .inl ⟨a, d.leave, ⟨up.ahead, ?_, up.clean⟩, holds, by rw [run]; rfl⟩
    have back := up.depth
    change d.depth - 1 + (room + 1) = Limit.nesting
    omega
  · exact .inr ⟨unsure, lost⟩

/-- Without a level that is left, nothing is read one level deeper. -/
theorem nested_zero {p : Parser α} {k : γ → Parser α} {P : γ → Prop} (unsure : ¬ sure)
    (name : String) : Reads sure 0 (Parser.nested name p) ts k rest P := by
  refine .lost unsure fun c faces => ?_
  have depth := faces.depth
  rw [Parser.nested, Parser.enter, Limit.enter, if_pos (by omega)]
  exact .inl ⟨_, rfl⟩

theorem noRoom {k : γ → Parser α} {P : γ → Prop} (unsure : ¬ sure) (name : String) :
    Reads sure room (Parser.noRoom name) ts k rest P :=
  .lost unsure fun _ _ => .inl ⟨_, rfl⟩

/-- A reading whose failure would be recorded. -/
theorem attempt {p : Parser α} {f : Except SyntaxError α → Parser β} {k : γ → Parser β}
    {P : α → Prop} {Q : γ → Prop} (hp : Reads sure room p ts pure mid P)
    (keeps : ∀ a, Keeps (f (.ok a))) (records : ∀ e c, (f (.error e) c).2.recorded ≠ [])
    (hf : ∀ a, P a → Reads sure room (f (.ok a)) mid k rest Q) :
    Reads sure room (Parser.attempt p >>= f) ts k rest Q := by
  intro c faces
  have whole : (Parser.attempt p >>= f) c = f (p c).1 (p c).2 := bind_apply _ _ _
  rw [whole]
  obtain ⟨a, d, faces, holds, run⟩ | ⟨unsure, lost⟩ := hp c faces
  · rw [run]
    exact hf a holds d faces
  · refine .inr ⟨unsure, .inr ?_⟩
    rcases run : p c with ⟨e | a, d⟩ <;> rw [run] at lost
    · exact records e d
    · refine ((keeps a).leads d).recorded_ne ?_
      exact lost.resolve_left fun ⟨_, failed⟩ => nomatch failed

theorem suggesting {p : Parser α} {P : α → Prop} (hp : Reads sure room p ts pure rest P)
    (suggestion : String) : Reads sure room (suggesting suggestion p) ts pure rest P := by
  intro c faces
  obtain ⟨a, d, faces, holds, run⟩ | ⟨unsure, lost⟩ := hp c faces
  · refine .inl ⟨a, d, faces, holds, ?_⟩
    rw [Parser.suggesting, run]
    rfl
  · refine .inr ⟨unsure, ?_⟩
    rw [Parser.suggesting]
    rcases run : p c with ⟨e | a, d⟩ <;> rw [run] at lost
    · exact .inl ⟨_, rfl⟩
    · exact lost

/-! ## Lists -/

/-- What stands between items: a comma, or after the last one a closing parenthesis. -/
def EndsItem : List Token → Prop
  | .sym .comma :: _ | .sym .rightParen :: _ => True
  | _ => False

section
variable {δ : Type} {xs : List δ} {words : δ → List Token} {item : Parser α} [Keeps item]
  {R : δ → α → Prop}

theorem commaList (n : Nat) (some : xs ≠ []) (enough : xs.length ≤ n + 1)
    (items : ∀ x ∈ xs, ∀ rest, EndsItem rest →
      Reads sure room item (words x ++ rest) pure rest (R x)) :
    Reads sure room (commaList item n) (Token.commas (xs.map words) ++ .sym .rightParen :: rest)
      pure (.sym .rightParen :: rest) (List.Forall₂ R xs) := by
  induction n generalizing xs with
  | zero =>
    match xs, some, enough with
    | [x], _, _ =>
      exact .bind (items x List.mem_cons_self _ trivial) fun a ha => .done (.cons ha .nil)
  | succ n ih =>
    cases xs with
    | nil => exact absurd rfl some
    | cons x xs =>
      have first := items x List.mem_cons_self
      cases xs with
      | nil =>
        refine .bind (first _ trivial) fun a ha => .step (.leave rfl) fun more no => ?_
        subst no
        exact .done (.cons ha .nil)
      | cons y ys =>
        have others := ih (List.cons_ne_nil y ys) (Nat.le_of_succ_le_succ enough)
          fun z hz => items z (List.mem_cons_of_mem _ hz)
        simp only [List.map_cons, Token.commas, List.append_assoc, List.cons_append] at others ⊢
        refine .bind (first _ trivial) fun a ha => .step (.eat rfl) fun more yes => ?_
        subst yes
        exact .bind others fun as has => .done (.cons ha has)

/-- Items with commas between them, up to and with a closing parenthesis. -/
theorem untilParen (items : ∀ x ∈ xs, ∀ rest, EndsItem rest →
      Reads sure room item (words x ++ rest) pure rest (R x))
    (starts : ∀ x ∈ xs, ∃ t us, words x = t :: us ∧ t.sameKind (.sym .rightParen) = false) :
    Reads sure room (untilParen item) (Token.commas (xs.map words) ++ .sym .rightParen :: rest)
      pure rest (List.Forall₂ R xs) := by
  refine .step .sees fun closed here => ?_
  have close : ∀ as : List α, List.Forall₂ R xs as → Reads sure room
      (do
        let _ ← Parser.expect (.sym .rightParen)
        return as) (.sym .rightParen :: rest) pure rest (List.Forall₂ R xs) :=
    fun as has => .step (.expect rfl) fun _ _ => .done has
  cases xs with
  | nil =>
    subst here
    exact close [] .nil
  | cons x xs =>
    have short : (x :: xs).length ≤ (Token.commas ((x :: xs).map words)).length := by
      refine le_trans (by simp) (Token.length_commas fun w hw => ?_)
      obtain ⟨y, hy, rfl⟩ := List.mem_map.mp hw
      obtain ⟨t, us, first, -⟩ := starts y hy
      simp [first]
    obtain ⟨t, us, first, other⟩ := starts x List.mem_cons_self
    obtain ⟨more, split⟩ := Token.commas_cons (words x) (xs.map words)
    rw [List.map_cons, split, first, List.cons_append, List.cons_append, List.headD_cons,
      other] at here
    subst here
    refine .step .size fun n enough => .bind (.commaList n (List.cons_ne_nil x xs) ?_ items) close
    rw [List.length_append] at enough
    omega

end

end Reads
end Parser
end WaitDefer
