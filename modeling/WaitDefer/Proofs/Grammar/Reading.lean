import WaitDefer.Proofs.Grammar.Keeping
import WaitDefer.Proofs.Grammar.Printable
import WaitDefer.Proofs.Grammar.Spelling
import WaitDefer.Proofs.Tree.Bags

/-!
# On the way through a text

A parser draws ids as it goes. What it has read so far holds some of them, each only once, and words
that the text holds:

* `IdSupply.Gave`: ids that a supply has handed out, none twice but the largest;
* `Cursor.Lexical`: a cursor in a text that was cut into tokens;
* `Parser.Makes`: a parser is given some ids, draws others, and all of them are accounted for;
* `Makes.bind`: one parser after another.
-/

namespace WaitDefer

/-! ## Ids handed out -/

/-- Ids that a supply has handed out. None of them occurs twice, unless it is the largest, which is
repeated once the supply is empty. -/
structure IdSupply.Gave (s : IdSupply) (ids : Multiset NodeId) : Prop where
  distinct : (ids.filter (· ≠ NodeId.last)).Nodup
  passed : ∀ i ∈ ids, ∀ n, s.next = some n → i < n

namespace IdSupply.Gave

variable {s : IdSupply} {ids ids' : Multiset NodeId}

theorem mono (h : s.Gave ids') (sub : ids ≤ ids') : s.Gave ids where
  distinct := Multiset.nodup_of_le (Multiset.filter_le_filter _ sub) h.distinct
  passed i hi := h.passed i (Multiset.mem_of_le sub hi)

theorem fresh (h : s.Gave ids) : s.fresh.2.Gave (s.fresh.1 ::ₘ ids) := by
  obtain ⟨next, exhausted⟩ := s
  cases next with
  | none =>
    refine ⟨?_, fun i _ n hn => ?_⟩
    · rw [Multiset.filter_cons_of_neg _ (by simp [IdSupply.fresh])]
      exact h.distinct
    · cases hn
  | some n =>
    have below : ∀ i ∈ ids, i < n := fun i hi => h.passed i hi n rfl
    refine ⟨?_, fun i hi m hm => ?_⟩
    · by_cases last : n = NodeId.last
      · rw [Multiset.filter_cons_of_neg _ (by simp [IdSupply.fresh, last])]
        exact h.distinct
      · rw [Multiset.filter_cons_of_pos _ (by simpa [IdSupply.fresh] using last)]
        refine Multiset.nodup_cons.mpr ⟨fun mem => ?_, h.distinct⟩
        exact Nat.lt_irrefl n (below n (Multiset.mem_filter.mp mem).1)
    · simp only [IdSupply.fresh, successor] at hm
      split at hm
      · cases hm
        rcases Multiset.mem_cons.mp hi with rfl | hi
        · exact Nat.lt_succ_self _
        · exact Nat.lt_succ_of_lt (below i hi)
      · cases hm

end IdSupply.Gave

/-! ## Words of a text -/

/-- What a text can be cut into: names that are no reserved words, and integers that can be
represented. -/
def Token.isLexical : Token → Bool
  | .ident name => Lexer.isName name
  | .int value => 0 ≤ value && value < Lexer.intBound
  | _ => true

namespace Lexer

theorem isLexical_ofName {c : Char} {cs : List Char} (start : isIdentStart c)
    (part : ∀ d ∈ cs, isIdentPart d) : (Token.ofName (String.ofList (c :: cs))).isLexical := by
  rw [Token.ofName]
  split
  · rfl
  · rename_i free
    have spelled : isIdentifier (String.ofList (c :: cs)) := by
      rw [isIdentifier, String.toList_ofList]
      exact Bool.and_eq_true_iff.mpr ⟨start, List.all_eq_true.mpr part⟩
    rw [Token.isLexical, isName, spelled, free]
    rfl

theorem isLexical_number {spelling : List Char} {value : Nat} {t : Token}
    (h : number spelling value = .token t) : t.isLexical := by
  unfold number at h
  split at h
  · cases h
    rw [Token.isLexical, Bool.and_eq_true]
    exact ⟨decide_eq_true (by omega), decide_eq_true (by omega)⟩
  · cases h

theorem isLexical_front {c : Char} {cs : List Char} {t : Token}
    (h : (front c cs).1 = .token t) : t.isLexical := by
  unfold front at h
  split at h
  · cases h
  split at h
  · cases h
  split at h
  · cases h
  split at h
  · rename_i start
    cases h
    exact isLexical_ofName start fun d hd => List.all_eq_true.mp List.all_takeWhile d hd
  split at h
  · unfold frontNumber at h
    split at h
    · split at h
      · exact isLexical_number h
      · have zero : number ['0'] 0 = .token t := h
        exact isLexical_number zero
    · exact isLexical_number h
  split at h
  · unfold frontString at h
    dsimp only at h
    split at h <;> cases h
    rfl
  · unfold frontSymbol at h
    split at h
    · cases h
      rfl
    · split at h <;> cases h
      rfl

theorem ne_eof_front {c : Char} {cs : List Char} {t : Token} (h : (front c cs).1 = .token t) :
    t ≠ .eof := by
  have number : ∀ spelling value, number spelling value ≠ .token .eof := by
    intro spelling value h
    unfold number at h
    split at h <;> cases h
  rintro rfl
  unfold front at h
  split at h
  · cases h
  split at h
  · cases h
  split at h
  · cases h
  split at h
  · unfold Token.ofName at h
    dsimp only at h
    split at h <;> cases h
  split at h
  · unfold frontNumber at h
    split at h
    · split at h
      · exact number _ _ h
      · exact number ['0'] 0 h
    · exact number _ _ h
  split at h
  · unfold frontString at h
    dsimp only at h
    split at h <;> cases h
  · unfold frontSymbol at h
    split at h
    · cases h
    · split at h <;> cases h

theorem exists_front_of_kinds (text : List Char) {t : Token} (h : .token t ∈ kinds text) :
    ∃ c cs, (front c cs).1 = .token t := by
  induction text using kinds.induct with
  | case1 =>
    rw [kinds] at h
    cases h
  | case2 c cs ih =>
    rw [kinds] at h
    rcases List.mem_cons.mp h with here | later
    · exact ⟨c, cs, here.symm⟩
    · exact ih later

/-- Every word is what some text begins with. -/
theorem exists_front_of_words {source : String} {ws : List Located} (h : words source = .ok ws)
    {t : Located} (ht : t ∈ ws) : ∃ c cs, (front c cs).1 = .token t.token := by
  unfold words at h
  dsimp only at h
  split at h
  · cases h
    obtain ⟨⟨kind, span⟩, inside, is⟩ := List.mem_filterMap.mp ht
    have found : kind ∈ (lexemes source.toList).map Prod.fst := List.mem_map_of_mem inside
    rw [lexemes, map_fst_scan] at found
    cases kind <;> cases is
    exact exists_front_of_kinds _ found
  · cases h

theorem isLexical_words {source : String} {ws : List Located} (h : words source = .ok ws)
    {t : Located} (ht : t ∈ ws) : t.token.isLexical :=
  let ⟨_, _, front⟩ := exists_front_of_words h ht
  isLexical_front front

theorem ne_eof_words {source : String} {ws : List Located} (h : words source = .ok ws)
    {t : Located} (ht : t ∈ ws) : t.token ≠ .eof :=
  let ⟨_, _, front⟩ := exists_front_of_words h ht
  ne_eof_front front

end Lexer

def Cursor.Lexical (c : Cursor) : Prop := ∀ t ∈ c.tokens.toList, t.token.isLexical

theorem Cursor.Lexical.token {c : Cursor} (h : c.Lexical) : c.token.isLexical :=
  h c.here (by rw [Cursor.here, Array.mem_toList_iff]; exact Array.getElem_mem _)

theorem Cursor.Leads.lexical {c d : Cursor} (h : c.Leads d) (lexical : c.Lexical) : d.Lexical := by
  rw [Cursor.Lexical, h.tokens]
  exact lexical

theorem Cursor.lexical_ofSource {source : String} {c : Cursor} (h : ofSource source = .ok c) :
    c.Lexical := by
  unfold ofSource at h
  cases words : Lexer.words source with
  | error e =>
    rw [words] at h
    cases h
  | ok ws =>
    rw [words] at h
    cases h
    intro t ht
    rcases List.mem_append.mp ht with inside | last
    · exact Lexer.isLexical_words words inside
    · rw [List.mem_singleton.mp last]
      rfl

/-! ## Parsers -/

namespace Parser

variable {α β : Type}

/-- A parser that is given some ids, in a text that was cut into tokens. Should it fail, whatever
other ids were handed out before it still are; should it read a value, then the value has a property
and its ids are handed out with the others. -/
def Makes (given : Multiset NodeId) (p : Parser α) (ids : α → Multiset NodeId) (P : α → Prop) :
    Prop :=
  ∀ c others, c.Lexical → c.ids.Gave (given + others) → (p c).2.ids.Gave others ∧
    ∀ a, (p c).1 = .ok a → P a ∧ (p c).2.ids.Gave (ids a + others)

/-- A parser that leaves the supply of ids alone. -/
def Quiet (p : Parser α) : Prop := ∀ c, (p c).2.ids = c.ids

/-- Such a parser that reads something with a property. -/
structure Tells (p : Parser α) (P : α → Prop) : Prop where
  quiet : Quiet p
  holds : ∀ c, c.Lexical → ∀ a, (p c).1 = .ok a → P a

section
variable {given : Multiset NodeId} {p : Parser α} {ids : α → Multiset NodeId} {P : α → Prop}

namespace Makes

theorem pure {a : α} (holds : P a) (sub : ids a ≤ given) : Makes given (Pure.pure a) ids P := by
  intro c others _ gave
  refine ⟨gave.mono (Multiset.le_add_left _ _), fun b hb => ?_⟩
  cases hb
  exact ⟨holds, gave.mono (Multiset.add_le_add_right sub)⟩

/-- The end of a parser: all ids that were given are in what was read. -/
theorem done {a : α} (holds : P a) (all : ids a = given) : Makes given (Pure.pure a) ids P :=
  pure holds (le_of_eq all)

theorem bind [Keeps p] {ids' : β → Multiset NodeId} {Q : β → Prop} {f : α → Parser β}
    (hp : Makes given p ids P) (hf : ∀ a, P a → Makes (ids a) (f a) ids' Q) :
    Makes given (p >>= f) ids' Q := by
  intro c others lexical gave
  obtain ⟨failed, read⟩ := hp c others lexical gave
  have still := (Keeps.leads (p := p) c).lexical lexical
  rw [bind_apply]
  rcases h : p c with ⟨_ | a, d⟩ <;> rw [h] at failed read still
  · exact ⟨failed, fun b hb => nomatch hb⟩
  · obtain ⟨holds, gave⟩ := read a rfl
    exact hf a holds d others still gave

theorem weaken {given' : Multiset NodeId} {ids' : α → Multiset NodeId} {Q : α → Prop}
    (h : Makes given p ids P) (sub : given ≤ given') (holds : ∀ a, P a → Q a)
    (le : ∀ a, ids' a ≤ ids a) : Makes given' p ids' Q := by
  intro c others lexical gave
  obtain ⟨failed, read⟩ := h c others lexical (gave.mono (Multiset.add_le_add_right sub))
  refine ⟨failed, fun a ha => ?_⟩
  obtain ⟨p, gave⟩ := read a ha
  exact ⟨holds a p, gave.mono (Multiset.add_le_add_right (le a))⟩

/-- Other ids are not touched. -/
theorem frame (h : Makes given p ids P) (more : Multiset NodeId) :
    Makes (given + more) p (fun a => ids a + more) P := by
  intro c others lexical gave
  rw [add_assoc] at gave
  obtain ⟨failed, read⟩ := h c (more + others) lexical gave
  refine ⟨failed.mono (Multiset.le_add_left _ _), fun a ha => ?_⟩
  obtain ⟨p, gave⟩ := read a ha
  exact ⟨p, by rwa [add_assoc]⟩

/-- A parser that needs no ids, with some that are kept beside it. -/
theorem beside (h : Makes 0 p ids P) (more : Multiset NodeId) :
    Makes more p (fun a => ids a + more) P :=
  (h.frame more).weaken (by simp) (fun _ h => h) fun _ => le_rfl

/-- One parser after another that leaves the ids alone. -/
theorem told [Keeps p] {ids' : β → Multiset NodeId} {Q : β → Prop} {f : α → Parser β}
    (tells : Tells p P) (hf : ∀ a, P a → Makes given (f a) ids' Q) :
    Makes given (p >>= f) ids' Q := by
  intro c others lexical gave
  have same := tells.quiet c
  have still := (Keeps.leads (p := p) c).lexical lexical
  have read := tells.holds c lexical
  rw [bind_apply]
  rcases h : p c with ⟨_ | a, d⟩ <;> rw [h] at same still read
  · exact ⟨same ▸ gave.mono (Multiset.le_add_left _ _), fun b hb => nomatch hb⟩
  · exact hf a (read a rfl) d others still (same ▸ gave)

theorem after [Keeps p] {ids' : β → Multiset NodeId} {Q : β → Prop} {f : α → Parser β}
    (quiet : Quiet p) (hf : ∀ a, Makes given (f a) ids' Q) : Makes given (p >>= f) ids' Q :=
  told (P := fun _ => True) ⟨quiet, fun _ _ _ _ => trivial⟩ fun a _ => hf a

/-- A parser that only fails. -/
theorem failing (quiet : Quiet p) (fails : ∀ c a, (p c).1 ≠ .ok a) : Makes given p ids P := by
  intro c others _ gave
  rw [quiet c]
  exact ⟨gave.mono (Multiset.le_add_left _ _), fun a ha => absurd ha (fails c a)⟩

theorem map [Keeps p] {ids' : β → Multiset NodeId} {Q : β → Prop} {f : α → β} (h : Makes given p ids P)
    (holds : ∀ a, P a → Q (f a)) (le : ∀ a, ids' (f a) ≤ ids a) :
    Makes given (f <$> p) ids' Q := by
  rw [← bind_pure_comp]
  exact h.bind fun a ha => .pure (holds a ha) (le a)

end Makes

end

/-! ## Small steps -/

theorem quiet_look (f : Cursor → α) : Quiet (look f) := fun _ => rfl

theorem quiet_unexpected (expected : List Token) : Quiet (unexpected expected : Parser α) :=
  fun _ => rfl

theorem quiet_throw (e : SyntaxError) : Quiet (throw e : Parser α) := fun _ => rfl

theorem quiet_move {f : Cursor → Cursor} (same : ∀ c, (f c).ids = c.ids) : Quiet (move f) :=
  fun c => same c

end Parser

theorem Cursor.ids_advance (c : Cursor) : c.advance.ids = c.ids := by
  unfold advance
  split <;> rfl

theorem Cursor.ids_skipWhile (skip : Token → Bool) (n : Nat) (c : Cursor) :
    (c.skipWhile skip n).ids = c.ids := by
  induction n generalizing c with
  | zero => rfl
  | succ n ih =>
    unfold skipWhile
    split
    · rw [ih, ids_advance]
    · rfl

theorem Cursor.ids_toStatementBoundary (c : Cursor) : c.toStatementBoundary.ids = c.ids := by
  unfold toStatementBoundary
  dsimp only
  split
  · rw [ids_advance, ids_skipWhile]
  · rw [ids_skipWhile]

theorem Cursor.ids_toFunction (c : Cursor) : c.toFunction.ids = c.ids := by
  rw [toFunction, ids_skipWhile, ids_advance]

namespace Parser

variable {α : Type}

theorem quiet_advance : Quiet advance := fun c => c.ids_advance

theorem quiet_eat (t : Token) : Quiet (eat t) := by
  intro c
  unfold eat
  split
  · exact c.ids_advance
  · rfl

theorem quiet_expect (t : Token) : Quiet (expect t) := by
  intro c
  unfold expect
  split
  · exact c.ids_advance
  · rfl

theorem quiet_ident : Quiet ident := by
  intro c
  unfold ident
  split
  · exact c.ids_advance
  · rfl

theorem quiet_property : Quiet property := by
  intro c
  unfold property
  split
  · exact c.ids_advance
  · exact quiet_ident c

theorem quiet_ident? : Quiet ident? := by
  intro c
  unfold ident?
  split
  · exact c.ids_advance
  · rfl

/-- A name that stands in a text. -/
theorem tells_ident : Tells ident (Lexer.isName ·.name) := by
  refine ⟨quiet_ident, fun c lexical i hi => ?_⟩
  have token := lexical.token
  unfold ident at hi
  split at hi
  · rename_i name found
    cases hi
    rw [found] at token
    exact token
  · cases hi

theorem tells_property : Tells property (Lexer.isIdentifier ·.name) := by
  refine ⟨quiet_property, fun c lexical i hi => ?_⟩
  unfold property at hi
  split at hi
  · rename_i k found
    cases hi
    have text : ∀ k : Keyword, Lexer.isIdentifier k.text := fun k => by cases k <;> decide
    exact text k
  · exact (Bool.and_eq_true_iff.mp (tells_ident.holds c lexical i hi)).1

theorem tells_ident? : Tells ident? (∀ i ∈ ·, Lexer.isName i.name) := by
  refine ⟨quiet_ident?, fun c lexical o ho => ?_⟩
  have token := lexical.token
  unfold ident? at ho
  split at ho
  · rename_i name found
    cases ho
    rintro i ⟨⟩
    rw [found] at token
    exact token
  · cases ho
    rintro i ⟨⟩

theorem tells_token : Tells (look (·.token)) (Token.isLexical ·) := by
  refine ⟨quiet_look _, fun c lexical t ht => ?_⟩
  cases ht
  exact lexical.token

theorem Quiet.suggesting {p : Parser α} (h : Quiet p) (suggestion : String) :
    Quiet (suggesting suggestion p) := by
  intro c
  have same := h c
  unfold Parser.suggesting
  split
  · rename_i e d run
    rw [run] at same
    exact same
  · exact same

theorem Tells.suggesting {p : Parser α} {P : α → Prop} (h : Tells p P) (suggestion : String) :
    Tells (suggesting suggestion p) P := by
  refine ⟨h.quiet.suggesting suggestion, fun c lexical a ha => h.holds c lexical a ?_⟩
  unfold Parser.suggesting at ha
  split at ha
  · cases ha
  · exact ha

section
variable {given : Multiset NodeId} {p : Parser α} {ids : α → Multiset NodeId} {P : α → Prop}

theorem Tells.makes (h : Tells p P) : Makes 0 p (fun _ => 0) P := by
  intro c others lexical gave
  rw [h.quiet c]
  rw [Multiset.zero_add] at gave
  exact ⟨gave, fun a ha => ⟨h.holds c lexical a ha, by rwa [Multiset.zero_add]⟩⟩

theorem makes_unexpected (expected : List Token) : Makes given (unexpected expected) ids P :=
  .failing (quiet_unexpected expected) fun _ _ h => nomatch h

theorem makes_throw (e : SyntaxError) : Makes given (throw e) ids P :=
  .failing (quiet_throw e) fun _ _ h => nomatch h

theorem makes_freshId : Makes given freshId (fun i => {i} + given) fun _ => True := by
  intro c others _ gave
  have more : c.ids.fresh.2.Gave (c.ids.fresh.1 ::ₘ (given + others)) := gave.fresh
  refine ⟨more.mono ?_, fun i hi => ?_⟩
  · exact (Multiset.le_add_left _ _).trans (Multiset.le_cons_self _ _)
  · cases hi
    exact ⟨trivial, by rwa [add_assoc, Multiset.singleton_add]⟩

/-- An id, then something else. -/
theorem Makes.freshId {β : Type} {ids' : β → Multiset NodeId} {Q : β → Prop}
    {f : NodeId → Parser β} (hf : ∀ i, Makes ({i} + given) (f i) ids' Q) :
    Makes given (Parser.freshId >>= f) ids' Q :=
  makes_freshId.bind fun i _ => hf i

theorem Makes.nested (h : Makes given p ids P) (name : String) :
    Makes given (nested name p) ids P := by
  intro c others lexical gave
  unfold Parser.nested enter
  cases Limit.enter name c.span c.depth with
  | error e => exact ⟨gave.mono (Multiset.le_add_left _ _), fun _ h => nomatch h⟩
  | ok depth => exact h { c with depth } others lexical gave

/-- A failure that is a value holds no ids. -/
theorem Makes.attempt (h : Makes given p ids P) :
    Makes given (attempt p)
      (fun r => match r with
        | .ok a => ids a
        | .error _ => 0)
      fun r => ∀ a, r = .ok a → P a := by
  intro c others lexical gave
  obtain ⟨failed, read⟩ := h c others lexical gave
  refine ⟨failed, fun r hr => ?_⟩
  cases hr
  refine ⟨fun a ha => (read a ha).1, ?_⟩
  change (p c).2.ids.Gave ((match (p c).1 with
    | .ok a => ids a
    | .error _ => 0) + others)
  cases h : (p c).1 with
  | error e => simpa using failed
  | ok a => exact (read a h).2

/-- A parser that goes on unless something is wrong. -/
theorem Makes.unless {c : Prop} [Decidable c] {e : SyntaxError} {f : Unit → Parser α}
    [Keeps (f ())] (h : ¬ c → Makes given (f ()) ids P) :
    Makes given (if c then throw e >>= f else f ()) ids P := by
  split
  · have never : Makes given (throw e : Parser Unit) (fun _ => given) fun _ => False :=
      makes_throw e
    exact never.bind fun _ absurd => absurd.elim
  · exact h ‹_›

end

/-! ## Lists -/

section
variable {p : Parser α} [Keeps p] {ids : α → Multiset NodeId} {P : α → Prop}

theorem Makes.some (h : Makes 0 p ids P) :
    Makes 0 (some <$> p) (fun o => bagOf ids o.toList) fun o => ∀ a ∈ o, P a :=
  h.map (by simp) (by simp)

omit [Keeps p] in
theorem Makes.none : Makes 0 (Pure.pure none) (fun o => bagOf ids o.toList) fun o => ∀ a ∈ o, P a :=
  .done (by simp) (by simp)

theorem Makes.unlessAt (h : Makes 0 p ids P) (t : Token) :
    Makes 0 (unlessAt t p) (fun o => bagOf ids o.toList) fun o => ∀ a ∈ o, P a := by
  refine .after (quiet_look _) fun absent => ?_
  split
  · exact .none
  · exact h.some

theorem Makes.commaList (h : Makes 0 p ids P) (n : Nat) :
    Makes 0 (commaList p n) (bagOf ids) fun as => ∀ a ∈ as, P a := by
  induction n with
  | zero =>
    exact h.bind fun a ha => .done (by simpa using ha) (by simp)
  | succ n ih =>
    refine h.bind fun a ha => .after (quiet_eat _) fun more => ?_
    split
    · refine (ih.beside _).bind fun as has => .done ?_ ?_
      · simpa using ⟨ha, has⟩
      · rw [bagOf_cons, add_comm]
    · exact .done (by simpa using ha) (by simp)

theorem Makes.untilParen (h : Makes 0 p ids P) :
    Makes 0 (untilParen p) (bagOf ids) fun as => ∀ a ∈ as, P a := by
  refine .after (quiet_look _) fun closed => ?_
  have close : ∀ as : List α, (∀ a ∈ as, P a) → Makes (bagOf ids as)
      (do
        let _ ← expect (.sym .rightParen)
        return as)
      (bagOf ids) fun as => ∀ a ∈ as, P a :=
    fun as has => .after (quiet_expect _) fun _ => .pure has le_rfl
  dsimp only
  split
  · exact Makes.bind (.done (by simp) bagOf_nil) close
  · exact .after (quiet_look _) fun n => (h.commaList n).bind close

end

end Parser
end WaitDefer
