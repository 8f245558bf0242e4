import WaitDefer.Json.Reader
import WaitDefer.Json.Writer
import WaitDefer.Proofs.Grammar.Spelling

/-!
# JSON text

A value that can be written is read back from its text, whatever its strings hold:

* `Json.string_quoted`, `Json.number_int`: strings and whole numbers;
* `Json.Plain`: the values that can be written;
* `Json.ReadsBack`: the text of a value is read as this value, wherever it stands in a text;
* `Json.parse?_pretty`: so is a whole text.
-/

namespace WaitDefer.Json

open Lexer (takeWhile_append)

/-! ## Runs of characters -/

theorem dropWhile_append {p : Char → Bool} {cs rest : List Char} (all : ∀ c ∈ cs, p c)
    (stop : ∀ c ∈ rest.head?, p c = false) : (cs ++ rest).dropWhile p = rest := by
  rw [List.dropWhile_append_of_pos all]
  cases rest with
  | nil => rfl
  | cons c rest => exact List.dropWhile_cons_of_neg (by simp [stop c rfl])

/-- Blanks in front of a text make no difference. -/
theorem skipBlanks_append {blanks : List Char} (blank : ∀ c ∈ blanks, isBlank c)
    (text : List Char) : skipBlanks (blanks ++ text) = skipBlanks text :=
  List.dropWhile_append_of_pos blank

theorem skipBlanks_cons {c : Char} (h : isBlank c = false) (cs : List Char) :
    skipBlanks (c :: cs) = c :: cs :=
  List.dropWhile_cons_of_neg (by simp [h])

/-! ## Strings -/

theorem hex4?_control : ∀ n < 0x20,
    hex4? '0' '0' (hexDigit (n / 16)) (hexDigit (n % 16)) = some n := by
  decide

theorem stringUnits_plain {c : Char} (quote : c ≠ '"') (backslash : c ≠ '\\')
    (large : ¬ c.toNat < 0x20) (rest : List Char) (done : List Unit16) :
    stringUnits (c :: rest) done = stringUnits rest (.char c :: done) := by
  simp [stringUnits, quote, backslash, large]

/-- A unit that is no half of a surrogate pair is a character. -/
theorem assemble_unit {n : Nat} (small : n < 0xD800) (us : List Unit16) :
    assemble (.unit n :: us) = (assemble us).map (Char.ofNat n :: ·) := by
  have high : isHighSurrogate n = false := by
    unfold isHighSurrogate
    rw [Bool.and_eq_false_iff, decide_eq_false_iff_not]
    omega
  have low : isLowSurrogate n = false := by
    unfold isLowSurrogate
    rw [Bool.and_eq_false_iff, decide_eq_false_iff_not]
    omega
  rcases us with _ | ⟨_ | _, us⟩ <;> simp [assemble, high, low]

/-- A character is read back from how it is written. -/
theorem stringUnits_escape (c : Char) :
    ∃ u, (∀ us, assemble (u :: us) = (assemble us).map (c :: ·)) ∧
      ∀ rest done, stringUnits (escape c ++ rest) done = stringUnits rest (u :: done) := by
  have plain (us : List Unit16) : assemble (.char c :: us) = (assemble us).map (c :: ·) := by
    rw [assemble]
  unfold escape
  split
  case h_8 quote backslash _ _ _ _ _ =>
    by_cases small : c.toNat < 0x20
    · rw [if_pos small]
      refine ⟨.unit c.toNat, fun us => ?_, fun rest done => ?_⟩
      · rw [assemble_unit (by omega), Char.ofNat_toNat]
      · simp [stringUnits, hex4?_control c.toNat small]
    · rw [if_neg small]
      exact ⟨.char c, plain, fun rest done => stringUnits_plain quote backslash small rest done⟩
  all_goals exact ⟨.char _, plain, fun rest done => by simp [stringUnits, unescape?]⟩

/-- What stands between quotes is read back. -/
theorem string_quoted (s : String) (rest : List Char) :
    string (s.toList.flatMap escape ++ '"' :: rest) = some (some s, rest) := by
  have units (cs : List Char) : ∃ us, assemble us = some cs ∧ ∀ done,
      stringUnits (cs.flatMap escape ++ '"' :: rest) done = some (done.reverse ++ us, rest) := by
    induction cs with
    | nil => exact ⟨[], rfl, fun done => by simp [stringUnits]⟩
    | cons c cs ih =>
      obtain ⟨us, same, read⟩ := ih
      obtain ⟨u, first, one⟩ := stringUnits_escape c
      refine ⟨u :: us, ?_, fun done => ?_⟩
      · rw [first, same]
        rfl
      · rw [List.flatMap_cons, List.append_assoc, one, read, List.reverse_cons, List.append_assoc]
        rfl
  obtain ⟨us, same, read⟩ := units s.toList
  rw [string, read]
  simp [same]

/-! ## Numbers -/

/-- No number goes on into this text. -/
def Apart (rest : List Char) : Prop :=
  ∀ c ∈ rest.head?, c.isDigit = false ∧ c ≠ '.' ∧ c ≠ 'e' ∧ c ≠ 'E'

theorem apart_nil : Apart [] := nofun

section
variable {rest : List Char}

theorem digits_append {ds : List Char} (nonempty : ds ≠ []) (all : ∀ d ∈ ds, d.isDigit)
    (apart : Apart rest) : digits (ds ++ rest) = some (ds, rest) := by
  have stop : ∀ c ∈ rest.head?, c.isDigit = false := fun c hc => (apart c hc).1
  rw [digits, takeWhile_append all stop, dropWhile_append all stop]
  cases ds with
  | nil => exact absurd rfl nonempty
  | cons d ds => rfl

/-- A number does not begin with a zero that says nothing. -/
theorem head_toDigits {n : Nat} (positive : n ≠ 0) : (Nat.toDigits 10 n).head? ≠ some '0' := by
  induction n using Nat.strongRecOn with
  | _ n ih =>
    by_cases small : n < 10
    · rw [Nat.toDigits_of_lt_base small]
      have digit : ∀ n < 10, n ≠ 0 → [n.digitChar].head? ≠ some '0' := by decide
      exact digit n small positive
    · rw [Nat.toDigits_of_base_le (by decide) (Nat.le_of_not_lt small)]
      cases higher : Nat.toDigits 10 (n / 10) with
      | nil => exact absurd higher Nat.toDigits_ne_nil
      | cons d ds =>
        have head := ih (n / 10) (by omega) (by omega)
        rw [higher] at head
        exact head

theorem wholePart_toDigits (n : Nat) (apart : Apart rest) :
    wholePart (Nat.toDigits 10 n ++ rest) = some (Nat.toDigits 10 n, rest) := by
  have head := head_toDigits (n := n)
  have read := digits_append Nat.toDigits_ne_nil
    (fun d hd => Lexer.isDigit_of_mem_toDigits (n := n) hd) apart
  rw [wholePart, read]
  simp only [Option.bind_eq_bind, Option.bind_some]
  split
  · rename_i d ds long
    -- zero itself has one digit
    have zero : n ≠ 0 := by
      rintro rfl
      cases long
    exact absurd (congrArg List.head? long) (head zero)
  · rfl

theorem fraction_apart (apart : Apart rest) : fraction rest = some ([], rest) := by
  unfold fraction
  split
  · exact absurd rfl (apart '.' rfl).2.1
  · rfl

theorem exponent_apart (apart : Apart rest) : exponent rest = some ([], rest) := by
  unfold exponent
  split
  · rename_i e sign cs
    obtain ⟨-, -, lower, upper⟩ := apart e rfl
    simp [lower, upper]
  · rename_i e
    obtain ⟨-, -, lower, upper⟩ := apart e rfl
    simp [lower, upper]
  · rfl

theorem decimal_toDigits (n : Nat) : decimal (Nat.toDigits 10 n) = n := by
  have same : ∀ (ds : List Char) (k : Nat),
      ds.foldl (fun n c => n * 10 + (c.toNat - '0'.toNat)) k = Nat.ofDigitChars 10 ds k := by
    intro ds
    induction ds with
    | nil => exact fun _ => rfl
    | cons d ds ih =>
      intro k
      rw [List.foldl_cons, ih, Nat.ofDigitChars_cons, Nat.mul_comm]
  rw [decimal, same]
  exact Nat.ofDigitChars_ten_toDigits

/-- A whole number is read back. -/
theorem number_int (i : Int) (apart : Apart rest) :
    number ((toString i).toList ++ rest) = some (.int i, rest) := by
  cases i with
  | ofNat n =>
    have digits : (toString (Int.ofNat n)).toList = Nat.toDigits 10 n := Nat.toList_repr
    cases first : Nat.toDigits 10 n with
    | nil => exact absurd first Nat.toDigits_ne_nil
    | cons d ds =>
      have digit := Lexer.isDigit_of_mem_toDigits (n := n) (first ▸ List.mem_cons_self : d ∈ _)
      have plus : d ≠ '-' := by
        rintro rfl
        cases digit
      have whole := wholePart_toDigits n apart
      have value := decimal_toDigits n
      rw [first, List.cons_append] at whole
      rw [first] at value
      rw [digits, first, List.cons_append]
      simp [number, plus, whole, fraction_apart apart, exponent_apart apart, value]
  | negSucc n =>
    have digits : (toString (Int.negSucc n)).toList = '-' :: Nat.toDigits 10 (n + 1) := by
      change ("-" ++ (n + 1).repr).toList = _
      rw [String.toList_append, Nat.toList_repr]
      rfl
    have negative : Int.negSucc n = -((n + 1 : Nat) : Int) := rfl
    rw [digits, List.cons_append, negative]
    simp [number, wholePart_toDigits (n + 1) apart, fraction_apart apart, exponent_apart apart,
      decimal_toDigits]

end

/-! ## Values -/

/-- All numbers in the value are whole, and nothing in it was broken when it was read. -/
inductive Plain : Json → Prop
  | null : Plain null
  | bool (b : Bool) : Plain (bool b)
  | int (i : Int) : Plain (int i)
  | str (s : String) : Plain (str s)
  | arr {items : List Json} (h : ∀ item ∈ items, Plain item) : Plain (arr items)
  | obj {members : List (String × Json)} (h : ∀ m ∈ members, Plain m.2) : Plain (obj members)

/-- The characters of some pieces. -/
def characters (pieces : List String) : List Char := pieces.flatMap String.toList

@[simp] theorem characters_nil : characters [] = [] := rfl

@[simp] theorem characters_cons (piece : String) (pieces : List String) :
    characters (piece :: pieces) = piece.toList ++ characters pieces := rfl

@[simp] theorem characters_append (pieces others : List String) :
    characters (pieces ++ others) = characters pieces ++ characters others :=
  List.flatMap_append

theorem toList_lineBreak (level : Nat) :
    (lineBreak level).toList = '\n' :: List.replicate (2 * level) ' ' := by
  have indented (n : Nat) : ("\n".pushn ' ' n).toList = '\n' :: List.replicate n ' ' := by
    induction n with
    | zero => rfl
    | succ n ih =>
      have step : ("\n".pushn ' ' (n + 1)).toList = ("\n".pushn ' ' n).toList ++ [' '] :=
        String.toList_push _
      rw [step, ih, List.replicate_succ']
      rfl
  exact indented _

theorem lineBreak_blank (level : Nat) : ∀ c ∈ (lineBreak level).toList, isBlank c := by
  rw [toList_lineBreak]
  intro c hc
  rcases List.mem_cons.mp hc with rfl | hc
  · rfl
  · rw [List.eq_of_mem_replicate hc]
    rfl

theorem value_blanks {blanks : List Char} (blank : ∀ c ∈ blanks, isBlank c) (n : Nat)
    (text : List Char) : value n (blanks ++ text) = value n text := by
  cases n with
  | zero => rw [value, value]
  | succ n => rw [value, value, skipBlanks_append blank]

theorem value_space (n : Nat) (text : List Char) : value n (' ' :: text) = value n text :=
  value_blanks (List.forall_mem_singleton.mpr rfl) n text

theorem elements_blanks {blanks : List Char} (blank : ∀ c ∈ blanks, isBlank c) (n : Nat)
    (text : List Char) : elements n (blanks ++ text) = elements n text := by
  cases n with
  | zero => rw [elements, elements]
  | succ n => rw [elements, elements, value_blanks blank]

theorem members_blanks {blanks : List Char} (blank : ∀ c ∈ blanks, isBlank c) (n : Nat)
    (text : List Char) : members n (blanks ++ text) = members n text := by
  cases n with
  | zero => rw [members, members]
  | succ n => rw [members, members, skipBlanks_append blank]

/-- What may not be the first character of a number. -/
theorem ne_of_number {c : Char} (h : c = '-' ∨ c.isDigit) {d : Char}
    (other : d ≠ '-' ∧ d.isDigit = false) : c ≠ d := by
  rintro rfl
  rcases h with rfl | digit
  · exact other.1 rfl
  · rw [other.2] at digit
    cases digit

theorem isBlank_of_number {c : Char} (h : c = '-' ∨ c.isDigit) : isBlank c = false := by
  have other {d : Char} := ne_of_number h (d := d)
  have space : c ≠ ' ' := other (by decide)
  have tab : c ≠ '\t' := other (by decide)
  have line : c ≠ '\n' := other (by decide)
  have carriage : c ≠ '\r' := other (by decide)
  simp [isBlank, space, tab, line, carriage]

/-- A text whose first character begins a number is read as one. -/
theorem value_number {c : Char} (h : c = '-' ∨ c.isDigit) (n : Nat) (cs : List Char) :
    value (n + 1) (c :: cs) = number (c :: cs) := by
  rw [value, skipBlanks_cons (isBlank_of_number h)]
  split
  case h_7 => rfl
  all_goals
    rename_i same
    exact absurd (List.cons.inj same).1 (ne_of_number h (by decide))

/-! ### Pieces -/

theorem apart_cons {c : Char} (h : c.isDigit = false ∧ c ≠ '.' ∧ c ≠ 'e' ∧ c ≠ 'E')
    (rest : List Char) : Apart (c :: rest) := by
  rintro d ⟨⟩
  exact h

theorem apart_comma (rest : List Char) : Apart (',' :: rest) := apart_cons (by decide) rest

theorem apart_lineBreak (level : Nat) (rest : List Char) :
    Apart ((lineBreak level).toList ++ rest) := by
  rw [toList_lineBreak]
  exact apart_cons (by decide) _

theorem toList_quote (s : String) : (quote s).toList = '"' :: (s.toList.flatMap escape ++ ['"']) :=
  String.toList_ofList

/-- The text of the items of an array, without its brackets. -/
def itemText (level : Nat) : List Json → List Char
  | [] => []
  | item :: items => characters (item.pieces level) ++ characters (itemPieces level items)

/-- The text of the members of an object, without its braces. -/
def memberText (level : Nat) : List (String × Json) → List Char
  | [] => []
  | (name, value) :: members =>
    (quote name).toList ++ (':' :: ' ' :: (characters (value.pieces level) ++
      characters (memberPieces level members)))

theorem pieces_int (level : Nat) (i : Int) :
    characters ((int i).pieces level) = (toString i).toList := by
  simp [pieces]

theorem pieces_str (level : Nat) (s : String) :
    characters ((str s).pieces level) = '"' :: (s.toList.flatMap escape ++ ['"']) := by
  simp [pieces, toList_quote]

theorem start_int (i : Int) : ∃ c cs, (toString i).toList = c :: cs ∧ (c = '-' ∨ c.isDigit) := by
  cases i with
  | ofNat n =>
    have digits : (toString (Int.ofNat n)).toList = Nat.toDigits 10 n := Nat.toList_repr
    cases first : Nat.toDigits 10 n with
    | nil => exact absurd first Nat.toDigits_ne_nil
    | cons d ds =>
      have digit := Lexer.isDigit_of_mem_toDigits (n := n) (first ▸ List.mem_cons_self : d ∈ _)
      exact ⟨d, ds, digits.trans first, .inr digit⟩
  | negSucc n =>
    exact ⟨'-', (n + 1).repr.toList, String.toList_append, .inl rfl⟩

/-- A value's text begins with no blank and with no bracket that closes. -/
theorem start_pieces {j : Json} (plain : j.Plain) (level : Nat) :
    ∃ c cs, characters (j.pieces level) = c :: cs ∧ isBlank c = false ∧ c ≠ ']' := by
  cases plain with
  | null => exact ⟨_, _, rfl, by decide, by decide⟩
  | bool b => cases b <;> exact ⟨_, _, rfl, by decide, by decide⟩
  | int i =>
    obtain ⟨c, cs, text, begins⟩ := start_int i
    rw [pieces_int]
    exact ⟨c, cs, text, isBlank_of_number begins, ne_of_number begins (by decide)⟩
  | str s => exact ⟨'"', _, pieces_str level s, by decide, by decide⟩
  | @arr items => cases items <;> exact ⟨_, _, rfl, by decide, by decide⟩
  | @obj members =>
    rcases members with _ | ⟨⟨name, value⟩, members⟩ <;> exact ⟨_, _, rfl, by decide, by decide⟩

theorem pieces_arr (level : Nat) (item : Json) (items : List Json) :
    characters ((arr (item :: items)).pieces level) = '[' :: ((lineBreak (level + 1)).toList ++
      (itemText (level + 1) (item :: items) ++ ((lineBreak level).toList ++ [']']))) := by
  simp [pieces, itemText]

theorem pieces_obj (level : Nat) (m : String × Json) (members : List (String × Json)) :
    characters ((obj (m :: members)).pieces level) = '\x7b' :: ((lineBreak (level + 1)).toList ++
      (memberText (level + 1) (m :: members) ++ ((lineBreak level).toList ++ ['\x7d']))) := by
  simp [pieces, memberText]

theorem itemText_cons (level : Nat) (item next : Json) (items : List Json) :
    itemText level (item :: next :: items) = characters (item.pieces level) ++
      (',' :: ((lineBreak level).toList ++ itemText level (next :: items))) := by
  simp [itemText, itemPieces]

theorem memberText_cons (level : Nat) (name : String) (value : Json) (m : String × Json)
    (members : List (String × Json)) :
    memberText level ((name, value) :: m :: members) = '"' :: (name.toList.flatMap escape ++
      '"' :: ':' :: ' ' :: (characters (value.pieces level) ++
        (',' :: ((lineBreak level).toList ++ memberText level (m :: members))))) := by
  simp [memberText, memberPieces, toList_quote]

theorem itemText_single (level : Nat) (item : Json) :
    itemText level [item] = characters (item.pieces level) := by
  simp [itemText, itemPieces]

theorem memberText_single (level : Nat) (name : String) (value : Json) :
    memberText level [(name, value)] = '"' :: (name.toList.flatMap escape ++
      '"' :: ':' :: ' ' :: characters (value.pieces level)) := by
  simp [memberText, memberPieces, toList_quote]

theorem lineBreak_length (level : Nat) : 0 < (lineBreak level).toList.length := by
  rw [toList_lineBreak]
  exact Nat.succ_pos _

theorem start_itemText {item : Json} (plain : item.Plain) (items : List Json) (level : Nat) :
    ∃ c cs, itemText level (item :: items) = c :: cs ∧ isBlank c = false ∧ c ≠ ']' := by
  obtain ⟨c, cs, text, blank, more⟩ := start_pieces plain level
  rw [itemText, text]
  exact ⟨c, _, rfl, blank, more⟩

theorem start_memberText (level : Nat) (m : String × Json) (others : List (String × Json)) :
    ∃ cs, memberText level (m :: others) = '"' :: cs := by
  rw [memberText, toList_quote]
  exact ⟨_, rfl⟩

/-! ### Reading pieces -/

section
variable {n : Nat} {text cs ds rest rest' : List Char} {name : String} {item : Json}
  {items : List Json} {others : List (String × Json)}

/-- A bracket that is not closed at once opens an array of items. -/
theorem value_array {c : Char} (next : skipBlanks cs = c :: ds) (more : c ≠ ']')
    (read : elements n (c :: ds) = some (items, rest)) :
    value (n + 1) ('[' :: cs) = some (.arr items, rest) := by
  rw [value, skipBlanks_cons (by decide)]
  simp [next, more, read]

/-- A brace before a name opens an object of members. -/
theorem value_object (next : skipBlanks cs = '"' :: ds) :
    value (n + 1) ('\x7b' :: cs) = members n ('"' :: ds) := by
  rw [value, skipBlanks_cons (by decide)]
  simp [next]

theorem value_string (read : string cs = some (some name, rest)) :
    value (n + 1) ('"' :: cs) = some (.str name, rest) := by
  rw [value, skipBlanks_cons (by decide)]
  simp [read]

theorem elements_last (read : value n text = some (item, rest))
    (close : skipBlanks rest = ']' :: rest') : elements (n + 1) text = some ([item], rest') := by
  rw [elements, read]
  simp only [Option.bind_eq_bind, Option.bind_some, close]

theorem elements_next (read : value n text = some (item, rest))
    (comma : skipBlanks rest = ',' :: cs) (more : elements n cs = some (items, rest')) :
    elements (n + 1) text = some (item :: items, rest') := by
  rw [elements, read]
  simp only [Option.bind_eq_bind, Option.bind_some, comma, more]

theorem members_last (named : string cs = some (some name, ':' :: ds))
    (read : value n ds = some (item, rest)) (close : skipBlanks rest = '\x7d' :: rest') :
    members (n + 1) ('"' :: cs) = some (.obj [(name, item)], rest') := by
  rw [members, skipBlanks_cons (by decide)]
  simp only [Option.bind_eq_bind, Option.bind_some, named]
  rw [skipBlanks_cons (by decide)]
  simp only [Option.bind_some, read, close]
  rfl

theorem members_next (named : string cs = some (some name, ':' :: ds))
    (read : value n ds = some (item, rest)) (comma : skipBlanks rest = ',' :: text)
    (more : members n text = some (.obj others, rest')) :
    members (n + 1) ('"' :: cs) = some (.obj ((name, item) :: others), rest') := by
  rw [members, skipBlanks_cons (by decide)]
  simp only [Option.bind_eq_bind, Option.bind_some, named]
  rw [skipBlanks_cons (by decide)]
  simp only [Option.bind_some, read, comma, more]
  rfl

end

/-- However far it is indented, the text of a value is read as this value, and no further. -/
def ReadsBack (j : Json) : Prop :=
  ∀ {level n : Nat} {rest : List Char}, Apart rest → (characters (j.pieces level)).length < n →
    value n (characters (j.pieces level) ++ rest) = some (j, rest)

theorem elements_pieces {items : List Json} (each : ∀ item ∈ items, ReadsBack item)
    (nonempty : items ≠ []) (level k : Nat) {n : Nat} (rest : List Char)
    (fuel : (itemText level items).length + 1 < n) :
    elements n (itemText level items ++ ((lineBreak k).toList ++ ']' :: rest)) =
      some (items, rest) := by
  induction items generalizing n with
  | nil => exact absurd rfl nonempty
  | cons item items ih =>
    obtain ⟨n, rfl⟩ : ∃ k, n = k + 1 := ⟨n - 1, by omega⟩
    obtain ⟨first, later⟩ := List.forall_mem_cons.mp each
    cases items with
    | nil =>
      rw [itemText_single] at fuel ⊢
      refine elements_last (first (apart_lineBreak _ _) (by omega)) ?_
      rw [skipBlanks_append (lineBreak_blank _), skipBlanks_cons (by decide)]
    | cons next items =>
      rw [itemText_cons] at fuel ⊢
      simp only [List.length_cons, List.length_append] at fuel
      simp only [List.cons_append, List.append_assoc]
      have indented := lineBreak_length level
      have others := ih later (List.cons_ne_nil _ _) (n := n) (by omega)
      refine elements_next (first (apart_comma _) (by omega)) (skipBlanks_cons (by decide) _) ?_
      rw [elements_blanks (lineBreak_blank _), others]

theorem members_pieces {others : List (String × Json)} (each : ∀ m ∈ others, ReadsBack m.2)
    (nonempty : others ≠ []) (level k : Nat) {n : Nat} (rest : List Char)
    (fuel : (memberText level others).length + 1 < n) :
    members n (memberText level others ++ ((lineBreak k).toList ++ '\x7d' :: rest)) =
      some (.obj others, rest) := by
  induction others generalizing n with
  | nil => exact absurd rfl nonempty
  | cons m others ih =>
    obtain ⟨n, rfl⟩ : ∃ k, n = k + 1 := ⟨n - 1, by omega⟩
    obtain ⟨name, item⟩ := m
    have first : ReadsBack item := each _ List.mem_cons_self
    have later : ∀ m ∈ others, ReadsBack m.2 := fun m hm => each m (List.mem_cons_of_mem _ hm)
    cases others with
    | nil =>
      rw [memberText_single] at fuel ⊢
      simp only [List.length_cons, List.length_append] at fuel
      simp only [List.cons_append, List.append_assoc]
      refine members_last (string_quoted name _)
        ((value_space _ _).trans (first (apart_lineBreak _ _) (by omega))) ?_
      rw [skipBlanks_append (lineBreak_blank _), skipBlanks_cons (by decide)]
    | cons next others =>
      rw [memberText_cons] at fuel ⊢
      simp only [List.length_cons, List.length_append] at fuel
      simp only [List.cons_append, List.append_assoc]
      have indented := lineBreak_length level
      have more := ih later (List.cons_ne_nil _ _) (n := n) (by omega)
      refine members_next (string_quoted name _)
        ((value_space _ _).trans (first (apart_comma _) (by omega)))
        (skipBlanks_cons (by decide) _) ?_
      rw [members_blanks (lineBreak_blank _), more]

theorem Plain.readsBack {j : Json} (plain : j.Plain) : ReadsBack j := by
  induction plain with
  | null =>
    rintro level (_ | n) rest - fuel
    · cases fuel
    · rfl
  | bool b =>
    rintro level (_ | n) rest - fuel
    · cases fuel
    · cases b <;> rfl
  | int i =>
    rintro level (_ | n) rest apart fuel
    · cases fuel
    · obtain ⟨c, cs, text, begins⟩ := start_int i
      have read := number_int i apart
      rw [text] at read
      rw [pieces_int, text]
      exact (value_number begins n (cs ++ rest)).trans read
  | str s =>
    rintro level (_ | n) rest - fuel
    · cases fuel
    · rw [pieces_str, List.cons_append, List.append_assoc]
      exact value_string (string_quoted s rest)
  | @arr items h ih =>
    rintro level (_ | n) rest - fuel
    · cases fuel
    cases items with
    | nil => rfl
    | cons item items =>
      rw [pieces_arr] at fuel ⊢
      simp only [List.length_cons, List.length_append] at fuel
      obtain ⟨c, cs, text, blank, more⟩ :=
        start_itemText (h item List.mem_cons_self) items (level + 1)
      have read := elements_pieces ih (List.cons_ne_nil _ _) (level + 1) level (n := n) rest
        (by omega)
      simp only [List.cons_append, List.append_assoc, List.nil_append, text] at read ⊢
      refine value_array ?_ more read
      rw [skipBlanks_append (lineBreak_blank _), skipBlanks_cons blank]
  | @obj others h ih =>
    rintro level (_ | n) rest - fuel
    · cases fuel
    cases others with
    | nil => rfl
    | cons m others =>
      rw [pieces_obj] at fuel ⊢
      simp only [List.length_cons, List.length_append] at fuel
      obtain ⟨cs, text⟩ := start_memberText (level + 1) m others
      have read := members_pieces ih (List.cons_ne_nil _ _) (level + 1) level (n := n) rest
        (by omega)
      simp only [List.cons_append, List.append_assoc, List.nil_append, text] at read ⊢
      rw [value_object, read]
      rw [skipBlanks_append (lineBreak_blank _), skipBlanks_cons (by decide)]

/-- **A value is read back from its text.** -/
theorem parse?_pretty {j : Json} (plain : j.Plain) : parse? j.pretty = some j := by
  have text : j.pretty.toList = characters (j.pieces 0) := String.toList_join
  have read := plain.readsBack apart_nil (Nat.lt_succ_self (characters (j.pieces 0)).length)
  rw [List.append_nil] at read
  rw [parse?, text]
  simp only [Nat.succ_eq_add_one] at read
  simp [read, skipBlanks]

end WaitDefer.Json
