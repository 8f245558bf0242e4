import Mathlib.Data.List.Infix
import WaitDefer.Proofs.Source.Places
import WaitDefer.Proofs.Token.Fronts

/-!
# Tokens tile the text

* `Lexer.Gap`: blanks and comments, and what comes after them;
* `Lexer.cuts`: the lexemes of a text, each placed by all the text before it;
* `Lexer.Tiled`: tokens with gaps between them that make up a text;
* `Lexer.Tiles`, `Lexer.tiles_of_tokenize`: how the tokens that a text is split into lie in it.
-/

namespace WaitDefer
namespace Lexer

open String (utf8Len)

/-! ## Gaps -/

/-- The end of a block comment. -/
def closing : List Char := ['*', '/']

/-- A text that holds no token, told by the text that comes after it: blanks, comments that go to
the end of their line, and comments between marks, of which a last one may lack its closing mark. -/
inductive Gap : List Char → List Char → Prop
  | nil {next : List Char} : Gap [] next
  | blank {c : Char} {rest next : List Char} (is : isBlank c) (more : Gap rest next) :
    Gap (c :: rest) next
  | line {body rest next : List Char} (inside : '\n' ∉ body)
    (ends : ∀ c ∈ (rest ++ next).head?, c = '\n') (more : Gap rest next) :
    Gap ('/' :: '/' :: (body ++ rest)) next
  | block {body rest next : List Char} (inside : ¬ closing <:+: body) (more : Gap rest next) :
    Gap ('/' :: '*' :: (body ++ closing ++ rest)) next
  | opened {body : List Char} (inside : ¬ closing <:+: body) : Gap ('/' :: '*' :: body) []

theorem not_closing_cons {c : Char} {cs : List Char} (first : ¬ (c == '*' && cs.head? == some '/'))
    (more : ¬ closing <:+: cs) : ¬ closing <:+: c :: cs := by
  intro found
  obtain ⟨rest, here⟩ | later := List.infix_cons_iff.mp found
  · cases here
    exact first rfl
  · exact more later

/-- A comment goes on to the first closing mark, or to the end of the text. -/
theorem commentRun_cases (cs : List Char) :
    (∃ body rest, cs = body ++ closing ++ rest ∧ ¬ closing <:+: body ∧
      commentRun cs = (body ++ closing).length) ∨
    (¬ closing <:+: cs ∧ commentRun cs = cs.length) := by
  induction cs with
  | nil => exact .inr ⟨by decide, rfl⟩
  | cons c cs ih =>
    by_cases ends : c == '*' && cs.head? == some '/'
    · obtain ⟨star, slash⟩ := Bool.and_eq_true_iff.mp ends
      obtain ⟨rest, rfl⟩ := List.head?_eq_some_iff.mp (beq_iff_eq.mp slash)
      cases beq_iff_eq.mp star
      exact .inl ⟨[], rest, rfl, by decide, rfl⟩
    · rw [commentRun, if_neg ends]
      obtain ⟨body, rest, rfl, inside, run⟩ | ⟨inside, run⟩ := ih
      · refine .inl ⟨c :: body, rest, rfl, not_closing_cons ?_ inside, by rw [run]; rfl⟩
        intro found
        cases body with
        | nil => simp at found
        | cons d body => exact ends found
      · exact .inr ⟨not_closing_cons ends inside, by rw [run]; rfl⟩

theorem Gap.blanks {blanks rest next : List Char} (all : ∀ c ∈ blanks, isBlank c)
    (more : Gap rest next) : Gap (blanks ++ rest) next := by
  induction blanks with
  | nil => exact more
  | cons c blanks ih =>
    obtain ⟨first, others⟩ := List.forall_mem_cons.mp all
    exact .blank first (ih others)

theorem number_ne_trivia (spelling : List Char) (value : Nat) :
    number spelling value ≠ .trivia := by
  unfold number
  split <;> nofun

/-- What is no token is a run of blanks or a comment. -/
theorem trivia_cases {c : Char} {cs : List Char} {n : Nat} (h : front c cs = (.trivia, n)) :
    (isBlank c ∧ n = (cs.takeWhile isBlank).length) ∨
    (c = '/' ∧ ∃ ds, cs = '/' :: ds ∧ n = (ds.takeWhile (· != '\n')).length + 1) ∨
    (c = '/' ∧ ∃ ds, cs = '*' :: ds ∧ n = commentRun ds + 1) := by
  unfold front at h
  split at h
  · cases h
    exact .inl ⟨‹_›, rfl⟩
  split at h
  · rename_i comment
    obtain ⟨slash, next⟩ := Bool.and_eq_true_iff.mp comment
    obtain ⟨ds, rfl⟩ := List.head?_eq_some_iff.mp (beq_iff_eq.mp next)
    cases h
    exact .inr (.inl ⟨beq_iff_eq.mp slash, ds, rfl, rfl⟩)
  split at h
  · rename_i comment
    obtain ⟨slash, next⟩ := Bool.and_eq_true_iff.mp comment
    obtain ⟨ds, rfl⟩ := List.head?_eq_some_iff.mp (beq_iff_eq.mp next)
    cases h
    exact .inr (.inr ⟨beq_iff_eq.mp slash, ds, rfl, rfl⟩)
  split at h
  · cases h
  split at h
  · have kind := congrArg Prod.fst h
    unfold frontNumber at kind
    split at kind
    · split at kind <;> dsimp only at kind <;> exact (number_ne_trivia _ _ kind).elim
    · exact (number_ne_trivia _ _ kind).elim
  split at h
  · unfold frontString at h
    dsimp only at h
    split at h <;> cases h
  · unfold frontSymbol at h
    split at h
    · cases h
    · split at h <;> cases h

/-- A lexeme that is no token, and a gap after it. -/
theorem Gap.front {c : Char} {cs gap next : List Char} {n : Nat} (h : front c cs = (.trivia, n))
    (rest : cs.drop n = gap ++ next) (more : Gap gap next) :
    Gap (c :: cs.take n ++ gap) next := by
  obtain ⟨blank, rfl⟩ | ⟨rfl, ds, rfl, rfl⟩ | ⟨rfl, ds, rfl, rfl⟩ := trivia_cases h
  · rw [← List.prefix_iff_eq_take.mp (List.takeWhile_prefix _)]
    refine .blank blank (more.blanks fun d inside => ?_)
    exact List.mem_takeWhile_imp inside
  · rw [List.drop_succ_cons, drop_takeWhile] at rest
    rw [List.take_succ_cons, ← List.prefix_iff_eq_take.mp (List.takeWhile_prefix _)]
    refine .line (fun feed => ?_) (fun d first => ?_) more
    · simpa using List.mem_takeWhile_imp feed
    · have stop := List.head?_dropWhile_not (· != '\n') ds
      rw [rest, first] at stop
      simpa using stop
  · rw [List.drop_succ_cons] at rest
    rw [List.take_succ_cons]
    obtain ⟨body, tail, rfl, inside, run⟩ | ⟨inside, run⟩ := commentRun_cases ds
    · rw [run, List.drop_left] at rest
      rw [run, List.take_left]
      exact .block inside more
    · rw [run, List.drop_length, List.nil_eq_append_iff] at rest
      obtain ⟨rfl, rfl⟩ := rest
      rw [run, List.take_length, List.append_nil]
      exact .opened inside

/-! ## Lexemes with their places -/

/-- The lexemes of `rest`, each placed by the text before it; `before` comes before all. -/
def cuts (before : List Char) : List Char → List (Lexeme × Span)
  | [] => []
  | c :: cs =>
    let lexeme := front c cs
    let through := before ++ c :: cs.take lexeme.2
    (lexeme.1, .between (.after .start before) (.after .start through)) ::
      cuts through (cs.drop lexeme.2)
termination_by rest => rest.length
decreasing_by exact Nat.lt_succ_of_le (by rw [List.length_drop]; exact Nat.sub_le ..)

theorem scan_eq_cuts (before rest : List Char) (found : List (Lexeme × Span)) :
    scan (.after .start before) rest found = found.reverse ++ cuts before rest := by
  induction before, rest using cuts.induct generalizing found with
  | case1 before => rw [scan, cuts, List.append_nil]
  | case2 before c cs lexeme through ih =>
    rw [scan, cuts, ← Position.after_append, ih, List.reverse_cons, List.append_assoc]
    rfl

theorem lexemes_eq_cuts (text : List Char) : lexemes text = cuts [] text :=
  scan_eq_cuts [] text []

/-- A text is all of the lexemes in it, one after the other. -/
theorem front_append (before : List Char) (c : Char) (cs : List Char) :
    before ++ c :: cs.take (front c cs).2 ++ cs.drop (front c cs).2 = before ++ c :: cs := by
  rw [List.append_assoc, List.cons_append, List.take_append_drop]

theorem placed_cuts (before rest : List Char) {l : Lexeme × Span} (h : l ∈ cuts before rest) :
    l.2.Placed (before ++ rest) := by
  induction before, rest using cuts.induct with
  | case1 before =>
    rw [cuts] at h
    cases h
  | case2 before c cs lexeme through ih =>
    rw [cuts] at h
    rw [← front_append]
    obtain rfl | later := List.mem_cons.mp h
    · exact ⟨before, _, List.prefix_append .., rfl⟩
    · exact ih later

/-- Wherever something of a text is no token, it stands in the text. -/
theorem placed_lexemes {text : List Char} {l : Lexeme × Span} (h : l ∈ lexemes text) :
    l.2.Placed text :=
  placed_cuts [] text (lexemes_eq_cuts text ▸ h)

/-! ## Tokens and gaps -/

/-- After `before`, the text `rest` is made of tokens with gaps around them. -/
inductive Tiled : List Char → List Char → List Located → Prop
  | done {before rest : List Char} (gap : Gap rest []) :
    Tiled before rest [endOf (before ++ rest)]
  | token {before gap cs : List Char} {c : Char} {t : Token} {ts : List Located}
    (free : Gap gap (c :: cs)) (is : (front c cs).1 = .token t)
    (more : Tiled (before ++ gap ++ c :: cs.take (front c cs).2) (cs.drop (front c cs).2) ts) :
    Tiled before (gap ++ c :: cs)
      (⟨t, .between (.after .start (before ++ gap))
        (.after .start (before ++ gap ++ c :: cs.take (front c cs).2))⟩ :: ts)

/-- One more lexeme that is no token. -/
theorem Tiled.trivia {before cs : List Char} {c : Char} {ts : List Located}
    (h : (Lexer.front c cs).1 = .trivia)
    (more : Tiled (before ++ c :: cs.take (Lexer.front c cs).2) (cs.drop (Lexer.front c cs).2) ts) :
    Tiled before (c :: cs) ts := by
  have whole : Lexer.front c cs = (.trivia, (Lexer.front c cs).2) := Prod.ext h rfl
  generalize rest : cs.drop (Lexer.front c cs).2 = after at more
  generalize start : before ++ c :: cs.take (Lexer.front c cs).2 = through at more
  cases more with
  | done gap =>
    have free := gap.front whole (by rw [rest, List.append_nil])
    rw [← rest, List.cons_append, List.take_append_drop] at free
    rw [← start, ← rest, front_append]
    exact .done free
  | token free is more =>
    rename_i gap cs' c' t ts
    have wider := free.front whole rest
    have all : c :: cs.take (Lexer.front c cs).2 ++ gap ++ c' :: cs' = c :: cs := by
      rw [List.append_assoc, ← rest, List.cons_append, List.take_append_drop]
    rw [← all, ← start]
    have next : Tiled before _ _ := .token wider is (by rwa [← List.append_assoc, start])
    rwa [← List.append_assoc] at next

theorem tiled_cuts {text before rest : List Char} (all : before ++ rest = text)
    (clean : (cuts before rest).filterMap error? = []) :
    Tiled before rest ((cuts before rest).filterMap token? ++ [endOf text]) := by
  induction before, rest using cuts.induct with
  | case1 before =>
    rw [cuts, ← all]
    exact .done .nil
  | case2 before c cs lexeme through ih =>
    have more := ih ((front_append before c cs).trans all)
    rw [cuts] at clean ⊢
    cases kind : (front c cs).1 with
    | trivia =>
      simp only [kind, List.filterMap_cons, error?, token?] at clean ⊢
      exact .trivia kind (more clean)
    | token t =>
      simp only [kind, List.filterMap_cons, error?, token?] at clean ⊢
      have next : Tiled before ([] ++ c :: cs) _ := .token .nil kind
        (by rw [List.append_nil]; exact more clean)
      rw [List.append_nil] at next
      exact next
    | fault f =>
      simp only [kind, List.filterMap_cons, error?] at clean
      cases clean

theorem tiled_of_tokenize {source : String} {ts : List Located} (ok : tokenize source = .ok ts) :
    Tiled [] source.toList ts := by
  unfold tokenize words at ok
  dsimp only at ok
  split at ok
  · rename_i clean
    cases ok
    rw [lexemes_eq_cuts] at clean ⊢
    exact tiled_cuts rfl clean
  · cases ok

theorem tiled_of_words {source : String} {ws : List Located} (ok : words source = .ok ws) :
    Tiled [] source.toList (ws ++ [endOf source.toList]) :=
  tiled_of_tokenize (by rw [tokenize, ok]; rfl)

/-! ## Tokens in a text -/

/-- A token that is read where it stands. -/
def Stands (text : List Char) (w : Located) : Prop :=
  ∃ before c cs, before ++ c :: cs = text ∧ (front c cs).1 = .token w.token ∧
    w.span = .between (.after .start before) (.after .start (before ++ c :: cs.take (front c cs).2))

namespace Stands

variable {text : List Char} {w : Located}

theorem ne_eof (h : Stands text w) : w.token ≠ .eof :=
  let ⟨_, _, _, _, is, _⟩ := h
  ne_eof_front is

theorem placed (h : Stands text w) : w.span.Placed text := by
  obtain ⟨before, c, cs, rfl, -, place⟩ := h
  rw [place, ← front_append]
  exact ⟨before, _, List.prefix_append .., rfl⟩

theorem filled (h : Stands text w) : w.span.start < w.span.stop := by
  obtain ⟨before, c, cs, -, -, place⟩ := h
  have positive := c.utf8Size_pos
  simp [place, Span.between]
  omega

theorem alone {source : String} (h : Stands source.toList w) :
    ∃ slice, w.span.slice? source = some slice ∧ tokenize slice =
      .ok [⟨w.token, ⟨0, slice.utf8ByteSize, 1, 1⟩⟩, endOf slice.toList] := by
  obtain ⟨before, c, cs, all, is, place⟩ := h
  refine ⟨String.ofList (c :: cs.take (front c cs).2), ?_, ?_⟩
  · rw [place]
    exact Span.Placed.slice?_eq (all ▸ (front_append before c cs).symm)
  · rw [tokenize_alone is, String.utf8ByteSize_ofList, String.toList_ofList,
      ← Position.offset_start_after]
    rfl

end Stands

theorem placed_endOf (text : List Char) : (endOf text).span.Placed text :=
  ⟨text, [], by rw [List.append_nil], by rw [List.append_nil]; rfl⟩

namespace Tiled

variable {text before rest : List Char} {ts : List Located}

/-- The end of the text comes after all other tokens. -/
theorem ends (h : Tiled before rest ts) (all : before ++ rest = text) :
    ∃ words, ts = words ++ [endOf text] ∧ ∀ w ∈ words, Stands text w := by
  induction h with
  | done gap => exact ⟨[], by rw [all]; rfl, by simp⟩
  | @token before gap cs c t ts free is more ih =>
    have whole : before ++ gap ++ c :: cs = text := by rw [List.append_assoc, all]
    obtain ⟨words, rfl, stand⟩ := ih ((front_append _ c cs).trans whole)
    refine ⟨_ :: words, rfl, List.forall_mem_cons.mpr ⟨?_, stand⟩⟩
    exact ⟨before ++ gap, c, cs, whole, is, rfl⟩

theorem placed (h : Tiled before rest ts) (all : before ++ rest = text) {w : Located}
    (hw : w ∈ ts) : w.span.Placed text := by
  obtain ⟨words, rfl, stand⟩ := h.ends all
  obtain inside | last := List.mem_append.mp hw
  · exact (stand w inside).placed
  · rw [List.mem_singleton.mp last]
    exact placed_endOf text

theorem le_start (h : Tiled before rest ts) {w : Located} (hw : w ∈ ts) :
    utf8Len before ≤ w.span.start := by
  induction h with
  | done gap =>
    rw [List.mem_singleton.mp hw]
    simp [endOf, Span.between]
  | token free is more ih =>
    obtain rfl | later := List.mem_cons.mp hw
    · simp [Span.between]
    · have further := ih later
      simp only [String.utf8Len_append] at further
      omega

/-- There are no more tokens than bytes, but for the end of the text. -/
theorem length_le (h : Tiled before rest ts) : ts.length ≤ utf8Len rest + 1 := by
  induction h with
  | done gap => simp
  | @token before gap cs c t ts free is more ih =>
    have positive := c.utf8Size_pos
    have fewer : utf8Len (cs.drop (front c cs).2) ≤ utf8Len cs :=
      String.utf8Len_le_of_suffix (List.drop_suffix ..)
    rw [List.length_cons, String.utf8Len_append, String.utf8Len_cons]
    omega

/-- Each token ends before the next one starts. -/
theorem apart (h : Tiled before rest ts) : ts.Pairwise fun a b => a.span.stop ≤ b.span.start := by
  induction h with
  | done gap => exact List.pairwise_singleton ..
  | token free is more ih =>
    refine .cons (fun w hw => ?_) ih
    exact (more.le_start hw).trans' (by simp [Span.between])

end Tiled

/-! ## The tiling -/

/-- From byte `i` to byte `j` there is no token in a text. -/
def GapBetween (source : String) (i j : Nat) : Prop :=
  ∃ before gap next, before ++ gap ++ next = source.toList ∧ utf8Len before = i ∧
    utf8Len (before ++ gap) = j ∧ Gap gap next

/-- Before each of some tokens there is a gap, which begins where the token before it ends; the
first one begins at byte `i`. -/
def Gapped (source : String) : Nat → List Located → Prop
  | _, [] => True
  | i, w :: ws => GapBetween source i w.span.start ∧ Gapped source w.span.stop ws

theorem Tiled.gapped {source : String} {before rest : List Char} {ts : List Located}
    (h : Tiled before rest ts) (all : before ++ rest = source.toList) :
    Gapped source (utf8Len before) ts := by
  induction h with
  | @done before rest gap =>
    refine ⟨⟨before, rest, [], by rw [List.append_nil, all], rfl, ?_, gap⟩, trivial⟩
    simp [endOf, Span.between]
  | @token before gap cs c t ts free is more ih =>
    have whole : before ++ gap ++ c :: cs = source.toList := by rw [List.append_assoc, all]
    refine ⟨⟨before, gap, c :: cs, whole, rfl, by simp [Span.between], free⟩, ?_⟩
    simpa [Span.between] using ih ((front_append _ c cs).trans whole)

/-- How the tokens that a text is split into lie in it. -/
structure Tiles (source : String) (ts : List Located) : Prop where
  /-- The last token, and no other, is the end of the text; nothing is in it. -/
  ends : ∃ words last, ts = words ++ [last] ∧ (∀ w ∈ words, w.token ≠ .eof) ∧ last.token = .eof ∧
    last.span.start = source.utf8ByteSize ∧ last.span.stop = source.utf8ByteSize
  /-- Every other token has characters. -/
  filled : ∀ w ∈ ts, w.token ≠ .eof → w.span.start < w.span.stop
  /-- Each stands where its line and column say, and its ends are between characters. -/
  sound : ∀ w ∈ ts, w.span.Sound source
  /-- They come one after the other. -/
  apart : ts.Pairwise fun a b => a.span.stop ≤ b.span.start
  /-- Around them there are only blanks and comments. -/
  gaps : Gapped source 0 ts
  /-- The characters of each, as a text of their own, are that token. -/
  alone : ∀ w ∈ ts, w.token ≠ .eof → ∃ slice, w.span.slice? source = some slice ∧
    tokenize slice = .ok [⟨w.token, ⟨0, slice.utf8ByteSize, 1, 1⟩⟩, endOf slice.toList]

/-- If a text can be split into tokens, they tile it. -/
theorem tiles_of_tokenize {source : String} {ts : List Located} (ok : tokenize source = .ok ts) :
    Tiles source ts := by
  have tiled := tiled_of_tokenize ok
  obtain ⟨words, rfl, stand⟩ := tiled.ends rfl
  have word : ∀ w ∈ words ++ [endOf source.toList], w.token ≠ .eof → Stands source.toList w := by
    intro w hw other
    obtain inside | last := List.mem_append.mp hw
    · exact stand w inside
    · rw [List.mem_singleton.mp last] at other
      exact absurd rfl other
  constructor
  case ends =>
    refine ⟨words, _, rfl, fun w hw => (stand w hw).ne_eof, rfl, ?_, ?_⟩ <;>
      simp [endOf, Span.between, String.utf8Len_toList]
  case filled => exact fun w hw other => (word w hw other).filled
  case sound => exact fun w hw => (tiled.placed rfl hw).sound
  case apart => exact tiled.apart
  case gaps => exact tiled.gapped rfl
  case alone => exact fun w hw other => (word w hw other).alone

/-- Letters of more than one byte, a string over a line break, comments of both kinds. -/
theorem tiles_of_tokenize_mixed :
    let source := "f // \u03bb\n  + '\u03bb\\\\' /* a\n *"
    let words : List Located := [⟨.ident "f", ⟨0, 1, 1, 1⟩⟩, ⟨.sym .plus, ⟨10, 11, 2, 3⟩⟩,
      ⟨.str "\u03bb\\", ⟨12, 18, 2, 5⟩⟩, ⟨.eof, ⟨26, 26, 3, 3⟩⟩]
    tokenize source = .ok words ∧ Tiles source words := by
  intro source words
  have ok : tokenize source = .ok words := by decide +kernel
  exact ⟨ok, tiles_of_tokenize ok⟩

end Lexer
end WaitDefer
