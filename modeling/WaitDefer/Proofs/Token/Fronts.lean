import WaitDefer.Proofs.Grammar.Reading

/-!
# A lexeme and nothing after it

A token that stands at the front of a text is read the same from its own characters alone:

* `Lexer.digitRun_take`, `Lexer.stringRun_take`: runs that are cut off where they end;
* `Lexer.front_take`: the token at the front of a text;
* `Lexer.tokenize_alone`: the tokens of a text that is one token.
-/

namespace WaitDefer
namespace Lexer

/-! ## Runs -/

theorem digitRun_pos {p : Char → Bool} {cs : List Char} (h : cs.head?.any p) :
    0 < digitRun p cs := by
  cases cs with
  | nil => cases h
  | cons c cs =>
    have digit : p c = true := by simpa using h
    rw [digitRun, if_pos digit]
    exact Nat.succ_pos _

theorem head?_take_pos {n : Nat} (positive : 0 < n) (cs : List Char) :
    (cs.take n).head? = cs.head? := by
  rw [List.head?_take, if_neg (by omega)]

theorem digitRun_take (p : Char → Bool) (cs : List Char) :
    digitRun p (cs.take (digitRun p cs)) = digitRun p cs := by
  induction cs with
  | nil => rfl
  | cons c cs ih =>
    rw [digitRun]
    split
    · rename_i digit
      rw [List.take_succ_cons, digitRun, if_pos digit, ih]
    · rename_i other
      split
      · rename_i underscore
        have next := head?_take_pos (digitRun_pos (Bool.and_eq_true_iff.mp underscore).2) cs
        rw [List.take_succ_cons, digitRun, if_neg other, next, if_pos underscore, ih]
      · rfl

theorem stringRun_take {quote : Char} {cs : List Char} (closed : (stringRun quote cs).2) :
    stringRun quote (cs.take (stringRun quote cs).1) = stringRun quote cs := by
  induction cs using stringRun.induct quote with
  | case1 => rfl
  | case2 cs d h =>
    rw [stringRun, if_pos h] at closed
    cases closed
  | case3 cs d h ih =>
    rw [stringRun, if_neg h] at closed ⊢
    dsimp only at closed ⊢
    rw [List.take_succ_cons, List.take_succ_cons, stringRun, if_neg h, ih closed]
  | case4 c cs plain h =>
    rw [stringRun.eq_3 _ _ _ plain, if_pos h, List.take_succ_cons, List.take_zero,
      stringRun.eq_3 _ _ _ (by simp), if_pos h]
  | case5 c cs plain other h =>
    rw [stringRun.eq_3 _ _ _ plain, if_neg other, if_pos h] at closed
    cases closed
  | case6 c cs plain other h ih =>
    rw [stringRun.eq_3 _ _ _ plain, if_neg other, if_neg h] at closed ⊢
    dsimp only at closed ⊢
    have still : ∀ d ds, c = '\\' → cs.take (stringRun quote cs).1 = d :: ds → False :=
      fun d ds is _ => h (by simp [is])
    rw [List.take_succ_cons, stringRun.eq_3 _ _ _ still, if_neg other, if_neg h, ih closed]

/-! ## Fronts -/

/-- What a run of digits ends before is none of its digits. -/
theorem head?_take_digitRun {p : Char → Bool} {x : Char} (other : p x = false) (mark : x ≠ '_')
    (cs : List Char) : (cs.take (digitRun p cs)).head? ≠ some x := by
  intro first
  cases cs with
  | nil => cases first
  | cons c cs =>
    have is : c = x := by
      rw [List.head?_take] at first
      split at first
      · cases first
      · exact Option.some.inj first
    subst is
    rw [digitRun, if_neg (by simp [other]), if_neg (by simp [mark])] at first
    cases first

theorem frontNumber_decimal {c : Char} {cs : List Char}
    (decimal : ∀ d ds, c = '0' → cs = 'x' :: d :: ds → False) :
    frontNumber c cs = (number (c :: cs.take (digitRun Char.isDigit cs))
      (numeral 10 (c :: cs.take (digitRun Char.isDigit cs))), digitRun Char.isDigit cs) := by
  unfold frontNumber
  split
  · exact absurd rfl fun h => decimal _ _ rfl h
  · rfl

theorem frontNumber_take (c : Char) (cs : List Char) :
    frontNumber c (cs.take (frontNumber c cs).2) = frontNumber c cs := by
  by_cases hex : ∃ d ds, c = '0' ∧ cs = 'x' :: d :: ds
  · obtain ⟨d, ds, rfl, rfl⟩ := hex
    by_cases digit : isHexDigit d = true
    · have whole : ∀ es, frontNumber '0' ('x' :: d :: es) =
          (number ('0' :: 'x' :: d :: es.take (digitRun isHexDigit es))
            (numeral 16 (d :: es.take (digitRun isHexDigit es))), digitRun isHexDigit es + 2) :=
        fun es => if_pos digit
      rw [whole, List.take_succ_cons, List.take_succ_cons, whole, digitRun_take, List.take_take,
        Nat.min_self]
    · have zero : frontNumber '0' ('x' :: d :: ds) = (number ['0'] 0, 0) := if_neg digit
      rw [zero]
      rfl
  · rw [frontNumber_decimal fun d ds zero x => hex ⟨d, ds, zero, x⟩]
    dsimp only
    rw [frontNumber_of_head (head?_take_digitRun (by decide) (by decide) cs), digitRun_take,
      List.take_take, Nat.min_self]

theorem frontString_take {c : Char} {cs : List Char} {t : Token} {n : Nat}
    (h : frontString c cs = (.token t, n)) : frontString c (cs.take n) = (.token t, n) := by
  unfold frontString at h
  dsimp only at h
  split at h
  · rename_i closed
    cases h
    rw [frontString]
    rw [stringRun_take closed, if_pos closed, List.take_take,
      Nat.min_eq_left (Nat.sub_le _ _)]
  · cases h

theorem frontSymbol_take (c : Char) (cs : List Char) :
    frontSymbol c (cs.take (frontSymbol c cs).2) = frontSymbol c cs := by
  cases pair : cs.head?.bind (Symbol.ofPair? c) with
  | some s =>
    have two : frontSymbol c cs = (.token (.sym s), 1) := by rw [frontSymbol, pair]
    rw [two, frontSymbol, head?_take_pos Nat.one_pos, pair]
  | none =>
    have one : frontSymbol c cs = frontSymbol c [] ∧ (frontSymbol c cs).2 = 0 := by
      unfold frontSymbol
      rw [pair]
      cases Symbol.ofChar? c <;> exact ⟨rfl, rfl⟩
    rw [one.2, List.take_zero, one.1]

theorem front_take {c : Char} {cs : List Char} {t : Token} {n : Nat}
    (h : front c cs = (.token t, n)) : front c (cs.take n) = (.token t, n) := by
  have fewer : ∀ d, ¬ (c == '/' && cs.head? == some d) →
      ¬ (c == '/' && (cs.take n).head? == some d) := by
    intro d plain comment
    rw [List.head?_take] at comment
    split at comment
    · simp at comment
    · exact plain comment
  unfold front at h ⊢
  split at h
  · cases h
  rename_i word
  rw [if_neg word]
  split at h
  · cases h
  rename_i line
  rw [if_neg (fewer _ line)]
  split at h
  · cases h
  rename_i block
  rw [if_neg (fewer _ block)]
  split at h
  · cases h
    have run := List.takeWhile_idem (p := isIdentPart) (l := cs)
    rw [if_pos ‹_›, ← List.prefix_iff_eq_take.mp (List.takeWhile_prefix _), run]
  rename_i name
  rw [if_neg name]
  split at h
  · rw [if_pos ‹_›, ← h]
    have same := frontNumber_take c cs
    rwa [h] at same ⊢
  rename_i digit
  rw [if_neg digit]
  split at h
  · rw [if_pos ‹_›, frontString_take h]
  rename_i quote
  rw [if_neg quote]
  have same := frontSymbol_take c cs
  rwa [h] at same

/-- The tokens of a text that is one token. -/
theorem tokenize_alone {c : Char} {cs : List Char} {t : Token}
    (h : (front c cs).1 = .token t) :
    let alone := c :: cs.take (front c cs).2
    tokenize (String.ofList alone) =
      .ok [⟨t, .between .start (.after .start alone)⟩, endOf alone] := by
  intro alone
  have whole : front c cs = (.token t, (front c cs).2) := Prod.ext h rfl
  have again := front_take whole
  have one : lexemes alone = [(.token t, .between .start (.after .start alone))] := by
    rw [lexemes, scan, again]
    dsimp only
    rw [List.take_take, Nat.min_self, List.drop_eq_nil_of_le (List.length_take_le _ _), scan]
    rfl
  rw [tokenize, words, String.toList_ofList, one]
  rfl

end Lexer
end WaitDefer
