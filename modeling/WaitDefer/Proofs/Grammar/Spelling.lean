import Mathlib.Data.List.TakeWhile
import WaitDefer.Token.Lexer
import WaitDefer.Tree.Printer

/-!
# Spelling

What a token is written as is read as that token again, whatever comes after it, as long as the next
character cannot be taken for a part of it:

* `Lexer.Spells`: a text is made of some tokens, with blanks between them;
* `Spells.blank`, `Spells.word`, `Spells.int`, `Spells.str`, `Spells.sym`: one more blank or token in
  front of a text;
* `Lexer.words_of_spells`: the words of such a text.
-/

namespace WaitDefer
namespace Lexer

/-! ## Lexemes without their places -/

/-- The lexemes of a text, one after the other. -/
def kinds : List Char → List Lexeme
  | [] => []
  | c :: cs => (front c cs).1 :: kinds (cs.drop (front c cs).2)
termination_by text => text.length
decreasing_by exact Nat.lt_succ_of_le (by rw [List.length_drop]; exact Nat.sub_le ..)

theorem map_fst_scan (p : Position) (text : List Char) (found : List (Lexeme × Span)) :
    (scan p text found).map Prod.fst = (found.map Prod.fst).reverse ++ kinds text := by
  induction text using kinds.induct generalizing p found with
  | case1 => rw [scan, kinds, List.map_reverse, List.append_nil]
  | case2 c cs ih =>
    rw [scan, kinds, ih, List.map_cons, List.reverse_cons, List.append_assoc]
    rfl

/-- A text that is made of these tokens, with blanks and comments between them. -/
def Spells (text : List Char) (ts : List Token) : Prop :=
  (kinds text).filter (· ≠ .trivia) = ts.map .token

theorem spells_nil : Spells [] [] := by
  rw [Spells, kinds]
  rfl

theorem words_of_lexemes {found : List (Lexeme × Span)} {ts : List Token}
    (h : (found.map Prod.fst).filter (· ≠ .trivia) = ts.map .token) :
    found.filterMap error? = [] ∧ (found.filterMap token?).map Located.token = ts := by
  induction found generalizing ts with
  | nil =>
    rw [List.map_nil, List.filter_nil, eq_comm, List.map_eq_nil_iff] at h
    subst h
    exact ⟨rfl, rfl⟩
  | cons l found ih =>
    obtain ⟨kind, span⟩ := l
    cases kind with
    | trivia =>
      rw [List.map_cons, List.filter_cons_of_neg (by simp)] at h
      exact ih h
    | fault f =>
      rw [List.map_cons, List.filter_cons_of_pos (by simp)] at h
      cases ts <;> simp at h
    | token t =>
      rw [List.map_cons, List.filter_cons_of_pos (by simp)] at h
      cases ts with
      | nil => cases h
      | cons t' ts =>
        rw [List.map_cons, List.cons.injEq, Lexeme.token.injEq] at h
        obtain ⟨rfl, rest⟩ := h
        obtain ⟨clean, words⟩ := ih rest
        exact ⟨clean, congrArg (t :: ·) words⟩

/-- The words of a text that is made of tokens are these tokens. -/
theorem words_of_spells {source : String} {ts : List Token} (h : Spells source.toList ts) :
    ∃ ws, words source = .ok ws ∧ ws.map Located.token = ts := by
  have found : ((lexemes source.toList).map Prod.fst).filter (· ≠ .trivia) = ts.map .token := by
    rw [lexemes, map_fst_scan]
    exact h
  obtain ⟨clean, tokens⟩ := words_of_lexemes found
  refine ⟨_, ?_, tokens⟩
  rw [words, clean]

/-- A token in front of a text. -/
theorem Spells.token {c : Char} {w rest : List Char} {t : Token} {ts : List Token}
    (h : front c (w ++ rest) = (.token t, w.length)) (more : Spells rest ts) :
    Spells (c :: (w ++ rest)) (t :: ts) := by
  rw [Spells, kinds, h, List.drop_left, List.filter_cons_of_pos (by simp), more]
  rfl

/-! ## Runs of characters -/

theorem takeWhile_append {p : Char → Bool} {cs rest : List Char} (all : ∀ c ∈ cs, p c)
    (stop : ∀ c ∈ rest.head?, p c = false) : (cs ++ rest).takeWhile p = cs := by
  rw [List.takeWhile_append_of_pos all]
  cases rest with
  | nil => rw [List.takeWhile_nil, List.append_nil]
  | cons c rest => rw [List.takeWhile_cons_of_neg (by simp [stop c rfl]), List.append_nil]

theorem drop_takeWhile (p : Char → Bool) (cs : List Char) :
    cs.drop (cs.takeWhile p).length = cs.dropWhile p := by
  induction cs with
  | nil => rfl
  | cons c cs ih =>
    by_cases h : p c
    · rw [List.takeWhile_cons_of_pos h, List.dropWhile_cons_of_pos h]
      exact ih
    · rw [List.takeWhile_cons_of_neg h, List.dropWhile_cons_of_neg h]
      rfl

/-! ## Blanks -/

theorem kinds_blank {c : Char} (h : isBlank c) (cs : List Char) :
    kinds (c :: cs) = .trivia :: kinds (cs.dropWhile isBlank) := by
  rw [kinds, front, if_pos h, drop_takeWhile]

theorem Spells.blank {c : Char} {rest : List Char} {ts : List Token} (h : isBlank c)
    (more : Spells rest ts) : Spells (c :: rest) ts := by
  rw [Spells, kinds_blank h, List.filter_cons_of_neg (by simp)]
  cases rest with
  | nil => exact more
  | cons d rest =>
    by_cases blank : isBlank d
    · -- two runs of blanks are one lexeme together
      rw [List.dropWhile_cons_of_pos blank]
      rwa [Spells, kinds_blank blank, List.filter_cons_of_neg (by simp)] at more
    · rw [List.dropWhile_cons_of_neg blank]
      exact more

/-! ## Tokens -/

/-- No name and no number goes on into this text. -/
def Apart (rest : List Char) : Prop := ∀ c ∈ rest.head?, isIdentPart c = false

/-- No operator goes on into this text, and no comment begins with it. -/
def Clear (rest : List Char) : Prop := ∀ c ∈ rest.head?, c ≠ '=' ∧ c ≠ '/' ∧ c ≠ '*'

theorem clear_cons {c : Char} (h : isIdentPart c) (rest : List Char) : Clear (c :: rest) := by
  intro d hd
  cases hd
  refine ⟨?_, ?_, ?_⟩ <;> rintro rfl <;> exact absurd h (by decide)

theorem isBlank_of_isIdentPart {c : Char} (h : isIdentPart c) : isBlank c = false ∧ c ≠ '/' := by
  refine ⟨Bool.eq_false_iff.mpr fun blank => ?_, ?_⟩
  · simp only [isBlank, Bool.or_eq_true, beq_iff_eq] at blank
    rcases blank with ((rfl | rfl) | rfl) | rfl <;> exact absurd h (by decide)
  · exact (clear_cons h [] c rfl).2.1

theorem front_name {c : Char} {cs rest : List Char} (start : isIdentStart c)
    (parts : ∀ d ∈ cs, isIdentPart d) (apart : Apart rest) :
    front c (cs ++ rest) = (.token (.ofName (String.ofList (c :: cs))), cs.length) := by
  obtain ⟨blank, slash⟩ := isBlank_of_isIdentPart (c := c) (by simp [isIdentPart, start])
  rw [front, blank, if_neg (by simp), if_neg (by simp [slash]), if_neg (by simp [slash]),
    if_pos start, takeWhile_append parts apart]

/-- A name or a reserved word in front of a text. -/
theorem Spells.name {name : String} {rest : List Char} {ts : List Token}
    (identifier : isIdentifier name) (apart : Apart rest) (more : Spells rest ts) :
    Spells (name.toList ++ rest) (.ofName name :: ts) := by
  unfold isIdentifier at identifier
  have spelling := String.ofList_toList (s := name)
  cases h : name.toList with
  | nil => rw [h] at identifier; cases identifier
  | cons c cs =>
    rw [h] at identifier spelling
    obtain ⟨start, parts⟩ := Bool.and_eq_true_iff.mp identifier
    rw [← spelling]
    exact .token (front_name start (List.all_eq_true.mp parts) apart) more

theorem clear_name {name : String} (identifier : isIdentifier name) (rest : List Char) :
    Clear (name.toList ++ rest) := by
  unfold isIdentifier at identifier
  cases h : name.toList with
  | nil => rw [h] at identifier; cases identifier
  | cons c cs =>
    rw [h] at identifier
    refine clear_cons ?_ (cs ++ rest)
    rw [isIdentPart, (Bool.and_eq_true_iff.mp identifier).1, Bool.true_or]

theorem isIdentifier_keyword (k : Keyword) : isIdentifier k.text := by
  cases k <;> decide

theorem ofName_keyword (k : Keyword) : Token.ofName k.text = .word k := by
  cases k <;> decide

theorem Spells.word {k : Keyword} {rest : List Char} {ts : List Token} (apart : Apart rest)
    (more : Spells rest ts) : Spells (k.text.toList ++ rest) (.word k :: ts) := by
  rw [← ofName_keyword]
  exact .name (isIdentifier_keyword k) apart more

/-! ### Numbers -/

theorem digitRun_append {ds rest : List Char} (digits : ∀ d ∈ ds, d.isDigit) (apart : Apart rest) :
    digitRun Char.isDigit (ds ++ rest) = ds.length := by
  induction ds with
  | nil =>
    cases rest with
    | nil => rfl
    | cons c rest =>
      have other := apart c rfl
      simp only [isIdentPart, isIdentStart, Bool.or_eq_false_iff] at other
      obtain ⟨⟨⟨-, underscore⟩, -⟩, digit⟩ := other
      rw [List.nil_append, digitRun, digit, underscore]
      rfl
  | cons d ds ih =>
    rw [List.cons_append, digitRun, if_pos (digits d List.mem_cons_self),
      ih fun e he => digits e (List.mem_cons_of_mem _ he)]
    rfl

theorem foldl_digits {ds : List Char} (digits : ∀ d ∈ ds, d.isDigit) (n : Nat) :
    ds.foldl (fun n c => n * 10 + digitValue c) n = Nat.ofDigitChars 10 ds n := by
  rw [Nat.ofDigitChars_eq_foldl]
  induction ds generalizing n with
  | nil => rfl
  | cons d ds ih =>
    rw [List.foldl_cons, List.foldl_cons, ih fun e he => digits e (List.mem_cons_of_mem _ he),
      digitValue, if_pos (digits d List.mem_cons_self), Nat.mul_comm]

theorem isDigit_of_mem_toDigits {n : Nat} {d : Char} (h : d ∈ Nat.toDigits 10 n) : d.isDigit :=
  Nat.isDigit_of_mem_toDigits (by decide) (by decide) h

theorem numeral_toDigits (n : Nat) : numeral 10 (Nat.toDigits 10 n) = n := by
  have plain : (Nat.toDigits 10 n).filter (· != '_') = Nat.toDigits 10 n := by
    refine List.filter_eq_self.mpr fun d hd => bne_iff_ne.mpr ?_
    rintro rfl
    exact Nat.underscore_not_in_toDigits hd
  rw [numeral, plain, foldl_digits fun d hd => isDigit_of_mem_toDigits hd]
  exact Nat.ofDigitChars_ten_toDigits

theorem isIdentStart_of_isDigit {c : Char} (h : c.isDigit) : isIdentStart c = false := by
  refine Bool.eq_false_iff.mpr fun start => ?_
  simp only [Char.isDigit, isIdentStart, Bool.and_eq_true, decide_eq_true_eq, Bool.or_eq_true,
    beq_iff_eq] at h start
  rcases start with (start | rfl) | rfl
  · change (decide (c.val ≥ 65 ∧ c.val ≤ 90) || decide (c.val ≥ 97) && decide (c.val ≤ 122)) = true
      at start
    grind
  · exact absurd h (by decide)
  · exact absurd h (by decide)

/-- A digit begins a decimal number, unless an `x` follows. -/
theorem frontNumber_of_head {c : Char} {cs : List Char} (h : cs.head? ≠ some 'x') :
    frontNumber c cs = (number (c :: cs.take (digitRun Char.isDigit cs))
      (numeral 10 (c :: cs.take (digitRun Char.isDigit cs))), digitRun Char.isDigit cs) := by
  unfold frontNumber
  split
  · exact absurd rfl h
  · rfl

theorem front_number {c : Char} {ds rest : List Char} (digits : ∀ d ∈ c :: ds, d.isDigit)
    (small : numeral 10 (c :: ds) < intBound) (apart : Apart rest) :
    front c (ds ++ rest) = (.token (.int (numeral 10 (c :: ds))), ds.length) := by
  have digit := digits c List.mem_cons_self
  have others : ∀ d ∈ ds, d.isDigit := fun d hd => digits d (List.mem_cons_of_mem _ hd)
  obtain ⟨blank, slash⟩ := isBlank_of_isIdentPart (c := c) (by simp [isIdentPart, digit])
  have head : (ds ++ rest).head? ≠ some 'x' := by
    intro h
    cases ds with
    | nil => exact absurd (apart 'x' h) (by decide)
    | cons d ds =>
      cases h
      exact absurd (others 'x' List.mem_cons_self) (by decide)
  rw [front, blank, isIdentStart_of_isDigit digit, digit, if_neg (by simp),
    if_neg (by simp [slash]), if_neg (by simp [slash]), if_neg (by simp), if_pos rfl,
    frontNumber_of_head head, digitRun_append others apart, List.take_left, number, if_pos small]

/-- A number in front of a text. -/
theorem Spells.int {n : Nat} {rest : List Char} {ts : List Token} (small : n < intBound)
    (apart : Apart rest) (more : Spells rest ts) :
    Spells (n.repr.toList ++ rest) (.int n :: ts) := by
  have value := numeral_toDigits n
  have digits : ∀ d ∈ Nat.toDigits 10 n, d.isDigit := fun d hd => isDigit_of_mem_toDigits hd
  rw [Nat.toList_repr]
  cases h : Nat.toDigits 10 n with
  | nil => exact absurd h Nat.toDigits_ne_nil
  | cons c ds =>
    rw [h] at value digits
    have number := front_number digits (by rwa [value]) apart
    rw [value] at number
    exact .token number more

theorem clear_repr (n : Nat) (rest : List Char) : Clear (n.repr.toList ++ rest) := by
  rw [Nat.toList_repr]
  cases h : Nat.toDigits 10 n with
  | nil => exact absurd h Nat.toDigits_ne_nil
  | cons c ds =>
    have digit := isDigit_of_mem_toDigits (h ▸ List.mem_cons_self : c ∈ Nat.toDigits 10 n)
    exact clear_cons (by rw [isIdentPart, digit, Bool.or_true]) (ds ++ rest)

/-! ### Strings -/

theorem escape_cases (c : Char) :
    (∃ d, Piece.escape c = ['\\', d] ∧ d ≠ '\n' ∧ escaped d = c) ∨
      (Piece.escape c = [c] ∧ c ≠ '"' ∧ c ≠ '\\') := by
  unfold Piece.escape
  split
  · exact .inl ⟨_, rfl, by decide, rfl⟩
  · exact .inl ⟨_, rfl, by decide, rfl⟩
  · exact .inl ⟨_, rfl, by decide, rfl⟩
  · exact .inl ⟨_, rfl, by decide, rfl⟩
  · exact .inl ⟨_, rfl, by decide, rfl⟩
  · exact .inr ⟨rfl, by assumption, by assumption⟩

theorem stringRun_escape (s rest : List Char) :
    stringRun '"' (s.flatMap Piece.escape ++ '"' :: rest) =
      ((s.flatMap Piece.escape).length + 1, true) := by
  induction s with
  | nil => rfl
  | cons c s ih =>
    rw [List.flatMap_cons, List.append_assoc]
    obtain ⟨d, pair, line, -⟩ | ⟨self, quote, backslash⟩ := escape_cases c
    · rw [pair]
      simp only [List.cons_append, List.nil_append, stringRun, beq_iff_eq, line, if_false, ih]
      rfl
    · rw [self, List.singleton_append, List.singleton_append, stringRun.eq_3 _ _ _ (by grind)]
      simp [quote, backslash, ih]

theorem unescape_escape (s : List Char) : unescape (s.flatMap Piece.escape) = s := by
  induction s with
  | nil => rfl
  | cons c s ih =>
    rw [List.flatMap_cons]
    obtain ⟨d, pair, -, value⟩ | ⟨self, -, backslash⟩ := escape_cases c
    · rw [pair]
      simp only [List.cons_append, List.nil_append, unescape, ih, value]
    · rw [self, List.singleton_append, unescape.eq_3 _ _ (by grind)]
      simp [backslash, ih]

theorem front_quote (s : String) (rest : List Char) :
    front '"' (s.toList.flatMap Piece.escape ++ ['"'] ++ rest) =
      (.token (.str s), (s.toList.flatMap Piece.escape ++ ['"']).length) := by
  have run := stringRun_escape s.toList rest
  rw [List.append_assoc, List.singleton_append, List.length_append]
  change frontString '"' _ = _
  rw [frontString, run, if_pos rfl, Nat.add_sub_cancel, List.take_left, unescape_escape,
    String.ofList_toList]
  rfl

/-- A string between quotes in front of a text. -/
theorem Spells.str {s : String} {rest : List Char} {ts : List Token} (more : Spells rest ts) :
    Spells ((Piece.quote s).toList ++ rest) (.str s :: ts) := by
  rw [Piece.quote, String.toList_ofList]
  exact .token (front_quote s rest) more

/-! ### Operators and punctuation -/

/-- A character that no blank, name, number or string begins with. -/
structure Mark (c : Char) : Prop where
  blank : isBlank c = false
  start : isIdentStart c = false
  digit : c.isDigit = false
  quotes : c ≠ '"' ∧ c ≠ '\''

theorem front_mark {c : Char} {cs : List Char} (mark : Mark c)
    (comment : c = '/' → cs.head? ≠ some '/' ∧ cs.head? ≠ some '*') :
    front c cs = frontSymbol c cs := by
  obtain ⟨blank, start, digit, double, quote⟩ := mark
  rw [front, blank, start, digit]
  simp only [Bool.false_eq_true, if_false, Bool.and_eq_true, Bool.or_eq_true, beq_iff_eq, double,
    quote, or_self]
  rw [if_neg (by grind), if_neg (by grind)]

theorem mark_of_ofChar? {c : Char} {s : Symbol} (h : Symbol.ofChar? c = some s) :
    Mark c ∧ ∀ d, d ≠ '=' → Symbol.ofPair? c d = none := by
  unfold Symbol.ofChar? at h
  split at h
  all_goals first
    | exact ⟨⟨by decide, by decide, by decide, by decide⟩, fun d hd => by simp [Symbol.ofPair?, hd]⟩
    | cases h

theorem mark_of_ofPair? {c d : Char} {s : Symbol} (h : Symbol.ofPair? c d = some s) :
    Mark c ∧ c ≠ '/' := by
  unfold Symbol.ofPair? at h
  split at h
  all_goals first
    | exact ⟨⟨by decide, by decide, by decide, by decide⟩, by decide⟩
    | cases h

theorem symbol_cases (s : Symbol) : (∃ c, s.text.toList = [c] ∧ Symbol.ofChar? c = some s) ∨
    ∃ c d, s.text.toList = [c, d] ∧ Symbol.ofPair? c d = some s := by
  cases s <;> first | exact .inl ⟨_, rfl, rfl⟩ | exact .inr ⟨_, _, rfl, rfl⟩

/-- An operator or punctuation in front of a text. -/
theorem Spells.sym {s : Symbol} {rest : List Char} {ts : List Token} (clear : Clear rest)
    (more : Spells rest ts) : Spells (s.text.toList ++ rest) (.sym s :: ts) := by
  obtain ⟨c, spelling, found⟩ | ⟨c, d, spelling, found⟩ := symbol_cases s
  · obtain ⟨mark, single⟩ := mark_of_ofChar? found
    have alone : rest.head?.bind (Symbol.ofPair? c) = none := by
      cases rest with
      | nil => rfl
      | cons d rest => exact single d (clear d rfl).1
    rw [spelling]
    refine .token (w := []) ?_ more
    rw [List.nil_append, front_mark mark, frontSymbol, alone, found]
    · rfl
    · exact fun _ => ⟨fun h => (clear _ h).2.1 rfl, fun h => (clear _ h).2.2 rfl⟩
  · obtain ⟨mark, slash⟩ := mark_of_ofPair? found
    rw [spelling]
    refine .token (w := [d]) ?_ more
    rw [front_mark mark fun h => absurd h slash, frontSymbol]
    simp only [List.cons_append, List.head?_cons, Option.bind_some, found, List.nil_append]
    rfl

end Lexer
end WaitDefer
