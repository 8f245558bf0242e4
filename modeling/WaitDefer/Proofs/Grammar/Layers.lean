import WaitDefer.Proofs.Grammar.Operators
import WaitDefer.Proofs.Grammar.Rounds

/-!
# The layers of the grammar

A chain of binary operators is read by climbing their levels of binding in one loop. The grammar
says the same with one loop for each level, each with the next tighter one for its operands:

* `Parser.layers`, `layered`, `Deeper.layers`: the grammar in layers;
* `Parser.climb_of_enough`: the climb does not depend on the number of levels it is given;
* `Parser.Loops.looser`: a loop of a level and then one of the next looser are one loop of both;
* `Parser.expression_layered`: climbing and layers are the same reading.
-/

namespace WaitDefer

set_option synthInstance.maxSize 512

/-! ## The layered grammar -/

namespace Parser

/-- The layers, loosest first, each with its operators. Behind the last layer unary operators
follow. -/
def layers : List (List (Symbol × BinaryOp)) :=
  [[(.pipePipe, .or)],
    [(.ampAmp, .and)],
    [(.equalEqual, .equal), (.bangEqual, .notEqual)],
    [(.less, .less), (.lessEqual, .lessEqual), (.greater, .greater), (.greaterEqual, .greaterEqual)],
    [(.plus, .add), (.minus, .subtract)],
    [(.star, .multiply), (.slash, .divide), (.percent, .modulo)]]

/-- The operator of a layer that a token stands for. -/
def operatorIn (ops : List (Symbol × BinaryOp)) : Token → Option BinaryOp
  | .sym s => ops.lookup s
  | _ => none

/-- An operand of the next layer, and then operators of this one, each with one more such operand.
`rounds` bounds their number. -/
def layered (rounds : Cursor → Nat) (operand : Parser Expr) :
    List (List (Symbol × BinaryOp)) → Parser Expr
  | [] => operand
  | ops :: tighter => do
    let left ← layered rounds operand tighter
    folds (operatorIn ops) (fun _ => layered rounds operand tighter) (← look rounds) left

end Parser

/-- The parsers with room for `n` more levels of nesting that read operators in layers. -/
def Deeper.layers (rounds : Cursor → Nat) : Nat → Deeper
  | 0 => none
  | n + 1 =>
    let d := layers rounds n
    { expression := Parser.nested "expression" (Parser.layered rounds (Parser.unary d) Parser.layers)
      unary := Parser.unary d
      statement := Parser.nested "statement" (Parser.statement d) }

theorem Precedence.rank_injective : Function.Injective rank := by
  intro p q
  cases p <;> cases q <;> decide

namespace Parser

/-! ## Operators at the end -/

variable {α β : Type}

/-- At a binary operator with nothing behind it there is nothing to read. -/
def Stuck (p : Parser α) : Prop :=
  ∀ c a, c.pos + 1 = c.tokens.size → c.token.binaryOp?.isSome → (p c).1 ≠ .ok a

namespace Stuck

variable {p : Parser α} {f : α → Parser β}

theorem bind (h : Stuck p) : Stuck (p >>= f) := by
  intro c b last op ok
  rw [bind_apply] at ok
  rcases run : p c with ⟨e | a, d⟩ <;> rw [run] at ok
  · cases ok
  · exact h c a last op (by rw [run])

theorem nested (h : Stuck p) (name : String) : Stuck (nested name p) := by
  intro c a last op ok
  unfold Parser.nested enter at ok
  cases deeper : Limit.enter name c.span c.depth with
  | error e =>
    rw [deeper] at ok
    cases ok
  | ok depth =>
    rw [deeper] at ok
    exact h { c with depth } a last op ok

theorem advance {f : Token → Parser β} (h : ∀ t, Stuck (f t)) : Stuck (advance >>= f) := by
  intro c b last op
  have same : c.advance = c := dif_neg (by omega)
  rw [bind_apply]
  change ((f c.token) c.advance).1 ≠ _
  rw [same]
  exact h c.token c b last op

theorem primary (d : Deeper) : Stuck (primary d) := by
  intro c a _ op ok
  rw [Parser.primary, look_bind, look_bind] at ok
  generalize c.token = t at op ok
  split at ok <;> first | cases op | cases ok

theorem unary {d : Deeper} (h : Stuck d.unary) : Stuck (unary d) := by
  intro c a last op
  rw [Parser.unary, look_bind, look_bind]
  cases unaryOp? c.token with
  | none => exact (primary d).bind c a last op
  | some u => exact advance (fun _ => (h.nested "unary").bind) c a last op

theorem unary_levels (n : Nat) : Stuck (Parser.unary (Deeper.levels n)) := by
  induction n with
  | zero => exact unary fun _ _ _ _ ok => nomatch ok
  | succ n ih => exact unary ih

theorem climb {d : Deeper} (h : Stuck (Parser.unary d)) (levels : Nat) (least : Precedence) :
    Stuck (climb d levels least) := by
  cases levels with
  | zero => exact h
  | succ levels => exact h.bind

end Stuck

section
variable {find : Token → Option BinaryOp} {right : BinaryOp → Parser Expr} [∀ op, Keeps (right op)]

/-- So every operator with an operand passes tokens, also without an end of the text. -/
theorem operatorRound_forward (known : ∀ t op, find t = some op → t.binaryOp?.isSome)
    (stuck : ∀ op, Stuck (right op)) {left e : Expr} {c : Cursor} (more : noOperator find c = false)
    (ok : (operatorRound find right left c).1 = .ok e) :
    c.pos < (operatorRound find right left c).2.pos := by
  rw [operatorRound, look_bind] at ok ⊢
  cases found : find c.token with
  | none => simp [noOperator, found] at more
  | some op =>
    rw [found] at ok
    dsimp only at ok ⊢
    have inside := c.inBounds
    by_cases last : c.pos + 1 = c.tokens.size
    · exact absurd ok
        (Stuck.advance (fun _ => (stuck op).bind) c e last (known _ op found))
    · have moved := Cursor.pos_advance (c := c) (by omega)
      rw [bind_apply]
      exact (moved ▸ Nat.lt_succ_self c.pos : c.pos < c.advance.pos).trans_le
        (Keeps.leads c.advance).pos

theorem loops_folds (known : ∀ t op, find t = some op → t.binaryOp?.isSome)
    (stuck : ∀ op, Stuck (right op)) {n : Nat} (left : Expr) {c : Cursor}
    (enough : c.rest.length ≤ n) :
    Loops (fun _ => noOperator find) (operatorRound find right) id left c
      (folds find right n left c) :=
  .of_bound (I := fun _ => True) (folds_succ find right)
    (fun _ _ _ _ more ok => operatorRound_forward known stuck more ok) n left enough trivial

end

theorem folds_congr {find : Token → Option BinaryOp} {right right' : BinaryOp → Parser Expr}
    (same : ∀ t op, find t = some op → right op = right' op) (n : Nat) :
    folds find right n = folds find right' n := by
  induction n with
  | zero => rfl
  | succ n ih =>
    funext left
    rw [folds, folds, ih]
    refine bind_congr fun t => ?_
    cases found : find t with
    | none => rfl
    | some op =>
      dsimp only
      rw [same t op found]

/-! ## Climbing -/

theorem operator?_eq_some {least : Precedence} {t : Token} {op : BinaryOp} :
    operator? least t = some op ↔ t.binaryOp? = some op ∧ least.rank ≤ op.precedence.rank := by
  unfold operator?
  cases t.binaryOp? with
  | none => simp
  | some o =>
    dsimp only
    split
    · constructor
      · intro none; cases none
      · rintro ⟨⟨⟩, _⟩; omega
    · constructor
      · rintro ⟨⟩; exact ⟨rfl, by omega⟩
      · rintro ⟨⟨⟩, _⟩; rfl

/-- No binary operator binds as tightly as a unary one. -/
theorem operator?_unary (t : Token) : operator? .unary t = none := by
  cases found : operator? .unary t with
  | none => rfl
  | some op =>
    have tight := (operator?_eq_some.mp found).2
    cases op <;> exact absurd tight (by decide)

theorem folds_none {find : Token → Option BinaryOp} (none : ∀ t, find t = none)
    (right : BinaryOp → Parser Expr) (n : Nat) (left : Expr) : folds find right n left = pure left := by
  cases n with
  | zero => rfl
  | succ n =>
    rw [folds]
    simp only [none]
    rfl

/-- The operators of a climb with as many levels as it takes. -/
theorem climb_succ (d : Deeper) (levels : Nat) (least : Precedence) :
    climb d (levels + 1) least = (do
      let left ← unary d
      folds (operator? least) (fun op => climb d levels op.precedence.tighter)
        (← look (·.tokens.size)) left) := by
  rw [climb]
  simp only [operators_eq_folds]

theorem climb_unary (d : Deeper) (levels : Nat) : climb d levels .unary = unary d := by
  cases levels with
  | zero => rfl
  | succ levels =>
    rw [climb_succ]
    simp only [folds_none operator?_unary]
    exact bind_pure (unary d)

/-- The climb does not depend on the number of levels it is given, if these are no fewer than the
levels from `least` to the tightest. -/
theorem climb_of_enough (d : Deeper) {m n : Nat} {least : Precedence}
    (hm : Precedence.unary.rank ≤ least.rank + m) (hn : Precedence.unary.rank ≤ least.rank + n) :
    climb d m least = climb d n least := by
  induction m generalizing n least with
  | zero =>
    have tightest : least = .unary := by
      revert hm
      cases least <;> decide
    rw [tightest, climb_unary, climb_unary]
  | succ m ih =>
    cases n with
    | zero =>
      have tightest : least = .unary := by
        revert hn
        cases least <;> decide
      rw [tightest, climb_unary, climb_unary]
    | succ n =>
      rw [climb_succ, climb_succ]
      refine bind_congr fun left => bind_congr fun size => congrFun (folds_congr ?_ size) left
      intro t op found
      have tight := (operator?_eq_some.mp found).2
      have tighter := op.rank_tighter
      exact ih (by omega) (by omega)

/-- An expression of operators at `least` or tighter. -/
def climbAll (d : Deeper) (least : Precedence) : Parser Expr :=
  climb d (Precedence.unary.rank - least.rank) least

theorem climb_eq_climbAll (d : Deeper) {n : Nat} {least : Precedence}
    (enough : Precedence.unary.rank ≤ least.rank + n) : climb d n least = climbAll d least :=
  climb_of_enough d enough (by have := least.rank_le; omega)

theorem binary_eq_climbAll (d : Deeper) : binary d = climbAll d .logicalOr :=
  climb_eq_climbAll d (by decide)

/-- The operators of a climb, each with an operand of the levels above its own. -/
theorem climbAll_eq (d : Deeper) (least : Precedence) : climbAll d least = (do
    let left ← unary d
    folds (operator? least) (fun op => climbAll d op.precedence.tighter)
      (← look (·.tokens.size)) left) := by
  rw [← climb_eq_climbAll d (n := Precedence.unary.rank + 1) (by omega), climb_succ]
  refine bind_congr fun left => bind_congr fun size => congrFun (folds_congr ?_ size) left
  intro t op found
  exact climb_eq_climbAll d (by omega)

/-! ## One loop for two -/

namespace Loops

variable {σ : Type} {stop stop' : σ → Cursor → Bool} {round round' : σ → Parser σ} {out : σ → α}
  {s : σ} {c : Cursor}

/-- Where two loops stop together and go round alike, they are the same loop. -/
theorem alike {r : Except SyntaxError α × Cursor} {I : Cursor → Prop}
    (h : Loops stop' round' out s c r) (start : I c)
    (stops : ∀ s c, I c → stop s c = stop' s c)
    (rounds : ∀ s c, I c → round s c = round' s c)
    (keeps : ∀ s c t d, I c → stop' s c = false → round' s c = (.ok t, d) → I d) :
    Loops stop round out s c r := by
  induction h with
  | stops now => exact .stops ((stops _ _ start).trans now)
  | fails more run => exact .fails ((stops _ _ start).trans more) ((rounds _ _ start).trans run)
  | goesOn more run _ ih =>
    exact .goesOn ((stops _ _ start).trans more) ((rounds _ _ start).trans run)
      (ih (keeps _ _ _ _ start more run))

/-- A loop whose rounds are also rounds of another one, and then the other one, are the other one
all along. -/
theorem looser {t : σ} {d : Cursor} {r : Except SyntaxError α × Cursor}
    (h : Loops stop' round' id s c (.ok t, d))
    (rounds : ∀ s c, stop' s c = false → stop s c = false ∧ round s c = round' s c)
    (next : Loops stop round out t d r) : Loops stop round out s c r := by
  generalize first : (Except.ok t, d) = r' at h
  induction h with
  | stops =>
    cases first
    exact next
  | fails => cases first
  | goesOn more run _ ih =>
    exact .goesOn (rounds _ _ more).1 ((rounds _ _ more).2.trans run) (ih first)

theorem looser_error {e : SyntaxError} {d : Cursor}
    (h : Loops stop' round' (id : σ → σ) s c (.error e, d))
    (rounds : ∀ s c, stop' s c = false → stop s c = false ∧ round s c = round' s c) :
    Loops stop round out s c (.error e, d) := by
  generalize first : (Except.error e, d) = r at h
  induction h with
  | stops => cases first
  | fails more run =>
    cases first
    exact .fails (rounds _ _ more).1 ((rounds _ _ more).2.trans run)
  | goesOn more run _ ih =>
    exact .goesOn (rounds _ _ more).1 ((rounds _ _ more).2.trans run) (ih first)

end Loops

theorem operatorRound_congr {find find' : Token → Option BinaryOp}
    {right right' : BinaryOp → Parser Expr} {c : Cursor} (same : find c.token = find' c.token)
    (operand : ∀ op, find' c.token = some op → right op = right' op) (left : Expr) :
    operatorRound find right left c = operatorRound find' right' left c := by
  rw [operatorRound, operatorRound, look_bind, look_bind, same]
  cases found : find' c.token with
  | none => rfl
  | some op =>
    dsimp only
    rw [operand op found]

/-- A round ends where its operand does. -/
theorem operatorRound_ok {find : Token → Option BinaryOp} {right : BinaryOp → Parser Expr}
    {left e : Expr} {c d : Cursor} (more : noOperator find c = false)
    (run : operatorRound find right left c = (.ok e, d)) :
    ∃ op a, right op c.advance = (.ok a, d) := by
  rw [operatorRound, look_bind] at run
  cases found : find c.token with
  | none => simp [noOperator, found] at more
  | some op =>
    rw [found] at run
    change (right op >>= _) c.advance = _ at run
    rw [bind_apply] at run
    rcases operand : right op c.advance with ⟨_ | a, d'⟩ <;> rw [operand] at run <;> cases run
    exact ⟨op, a, operand⟩

/-! ## One layer -/

/-- The operators that bind as tightly as `level`. -/
def AtLevel (level : Precedence) (ops : List (Symbol × BinaryOp)) : Prop :=
  ∀ t op, operatorIn ops t = some op ↔ t.binaryOp? = some op ∧ op.precedence = level

section
variable {level : Precedence} {ops : List (Symbol × BinaryOp)}
  (below : level.tighter.rank = level.rank + 1)
include below

theorem operator?_of_tighter {t : Token} {op : BinaryOp}
    (found : operator? level.tighter t = some op) : operator? level t = some op := by
  obtain ⟨op, tight⟩ := operator?_eq_some.mp found
  exact operator?_eq_some.mpr ⟨op, by omega⟩

/-- What binds no tighter than the level, but as tightly as it, is of the level. -/
theorem AtLevel.operator?_eq (these : AtLevel level ops) {t : Token}
    (none : operator? level.tighter t = none) : operator? level t = operatorIn ops t := by
  refine Option.ext fun op => ?_
  rw [operator?_eq_some, these t op]
  refine and_congr_right fun found => ⟨fun loose => ?_, fun same => same ▸ le_rfl⟩
  have no : ¬ level.tighter.rank ≤ op.precedence.rank := fun h => by
    simp [operator?_eq_some.mpr ⟨found, h⟩] at none
  exact Precedence.rank_injective (by omega)

end

section
variable {d : Deeper} [d.Keeps]

instance (least : Precedence) : Keeps (climbAll d least) := by
  unfold climbAll
  infer_instance

variable (stuck : Stuck (unary d))
include stuck

omit [d.Keeps] in
theorem stuck_climbAll (least : Precedence) : Stuck (climbAll d least) := stuck.climb _ _

theorem loops_climbAll (least : Precedence) {n : Nat} (left : Expr) {c : Cursor}
    (enough : c.rest.length ≤ n) :
    Loops (fun _ => noOperator (operator? least))
      (operatorRound (operator? least) fun op => climbAll d op.precedence.tighter) id left c
      (folds (operator? least) (fun op => climbAll d op.precedence.tighter) n left c) :=
  loops_folds (fun t op found => by simp [(operator?_eq_some.mp found).1])
    (fun _ => stuck_climbAll stuck _) left enough

/-- A climb ends before the first operator that it cannot take. -/
theorem noOperator_climbAll {least : Precedence} {c e : Cursor} {a : Expr}
    (run : climbAll d least c = (.ok a, e)) : noOperator (operator? least) e = true := by
  rw [climbAll_eq, bind_apply] at run
  rcases first : unary d c with ⟨_ | left, c'⟩ <;> rw [first] at run
  · cases run
  · have all := loops_climbAll stuck least left c'.length_rest_le
    change folds _ _ c'.tokens.size left c' = _ at run
    rw [run] at all
    exact all.stopped.elim fun _ h => h.1

variable {level : Precedence} {ops : List (Symbol × BinaryOp)} {rounds : Cursor → Nat}

/-- Where nothing binds tighter than the level, its own loop is the rest of the climb. -/
theorem loops_layer (these : AtLevel level ops) (below : level.tighter.rank = level.rank + 1)
    {n : Nat} {left : Expr} {c : Cursor} (enough : c.rest.length ≤ n)
    (none : noOperator (operator? level.tighter) c = true) :
    Loops (fun _ => noOperator (operator? level))
      (operatorRound (operator? level) fun op => climbAll d op.precedence.tighter) id left c
      (folds (operatorIn ops) (fun _ => climbAll d level.tighter) n left c) := by
  have known : ∀ t op, operatorIn ops t = some op → t.binaryOp?.isSome := fun t op found => by
    simp [((these t op).mp found).1]
  have layer := loops_folds known (fun _ => stuck_climbAll stuck level.tighter) left enough
  have same : ∀ c : Cursor, noOperator (operator? level.tighter) c = true →
      operator? level c.token = operatorIn ops c.token := fun c none =>
    these.operator?_eq below (Option.isNone_iff_eq_none.mp none)
  refine layer.alike (I := fun c => noOperator (operator? level.tighter) c = true) none
    (fun _ c none => ?_) (fun left c none => ?_) fun _ c t e none more run => ?_
  · rw [noOperator, noOperator, same c none]
  · refine operatorRound_congr (same c none) (fun op found => ?_) left
    rw [((these _ op).mp found).2]
  · obtain ⟨_, _, operand⟩ := operatorRound_ok more run
    exact noOperator_climbAll stuck operand

/-- Climbing from a level is climbing from the next tighter one, and then a loop over the operators
of this level. -/
theorem climbAll_layer (these : AtLevel level ops) (below : level.tighter.rank = level.rank + 1)
    (enough : ∀ c, c.rest.length ≤ rounds c) :
    climbAll d level = (do
      let left ← climbAll d level.tighter
      folds (operatorIn ops) (fun _ => climbAll d level.tighter) (← look rounds) left) := by
  have tighter : ∀ left c, noOperator (operator? level.tighter) c = false →
      noOperator (operator? level) c = false ∧
        operatorRound (operator? level) (fun op => climbAll d op.precedence.tighter) left c =
          operatorRound (operator? level.tighter) (fun op => climbAll d op.precedence.tighter)
            left c := by
    intro left c more
    obtain ⟨op, found⟩ := Option.isSome_iff_exists.mp (by simpa [noOperator] using more)
    have also := operator?_of_tighter below found
    exact ⟨by simp [noOperator, also], operatorRound_congr (also.trans found.symm) (fun _ _ => rfl) left⟩
  rw [climbAll_eq d level]
  conv_rhs =>
    enter [1]
    rw [climbAll_eq d level.tighter]
  rw [bind_assoc]
  refine bind_congr fun left => funext fun c => ?_
  rw [look_bind, bind_apply, look_bind]
  refine (loops_climbAll stuck level left c.length_rest_le).unique ?_
  have first := loops_climbAll stuck level.tighter left c.length_rest_le
  rcases run : folds (operator? level.tighter) (fun op => climbAll d op.precedence.tighter)
      c.tokens.size left c with ⟨e | t, c'⟩ <;> rw [run] at first
  · exact first.looser_error tighter
  · exact first.looser tighter (loops_layer stuck these below (enough c')
      (first.stopped.elim fun _ h => h.1))

end

/-! ## All layers -/

/-- Layers of operators, each of the next tighter level, up to the unary operators. -/
def Rising : Precedence → List (List (Symbol × BinaryOp)) → Prop
  | level, [] => level = .unary
  | level, ops :: tighter =>
    AtLevel level ops ∧ level.tighter.rank = level.rank + 1 ∧ Rising level.tighter tighter

theorem AtLevel.of_symbols {level : Precedence} {ops : List (Symbol × BinaryOp)}
    (same : ∀ s : Symbol, ops.lookup s = s.binaryOp?.filter (·.precedence == level)) :
    AtLevel level ops := by
  intro t op
  cases t with
  | sym s => rw [operatorIn, Token.binaryOp?, same, Option.filter_eq_some_iff, beq_iff_eq]
  | _ => simp [operatorIn, Token.binaryOp?]

theorem rising_layers : Rising .logicalOr layers := by
  refine ⟨?_, rfl, ?_, rfl, ?_, rfl, ?_, rfl, ?_, rfl, ?_, rfl, rfl⟩
  all_goals exact .of_symbols fun s => by cases s <;> rfl

theorem layered_eq_climbAll {d : Deeper} [d.Keeps] (stuck : Stuck (unary d)) {rounds : Cursor → Nat}
    (enough : ∀ c, c.rest.length ≤ rounds c) {ls : List (List (Symbol × BinaryOp))}
    {level : Precedence} (rising : Rising level ls) :
    layered rounds (unary d) ls = climbAll d level := by
  induction ls generalizing level with
  | nil =>
    cases rising
    rfl
  | cons ops ls ih =>
    obtain ⟨these, below, rising⟩ := rising
    rw [layered, ih rising, ← climbAll_layer stuck these below enough]

end Parser

theorem Deeper.layers_eq_levels {rounds : Cursor → Nat} (enough : ∀ c, c.rest.length ≤ rounds c)
    (n : Nat) : layers rounds n = levels n := by
  induction n with
  | zero => rfl
  | succ n ih =>
    rw [layers, levels, ih, Parser.layered_eq_climbAll (.unary_levels n) enough Parser.rising_layers,
      ← Parser.binary_eq_climbAll]

/-- **Climbing reads the layered grammar.** On every list of tokens, from every place in it and at
every depth, an expression is read as the layers say: the same tree with the same ids and spans, or
the same error, and the same cursor. The loops of the layers need no bound of their own. -/
theorem Parser.expression_layered {rounds : Cursor → Nat} (enough : ∀ c, c.rest.length ≤ rounds c) :
    Parser.expression = (Deeper.layers rounds Limit.nesting).expression := by
  rw [Deeper.layers_eq_levels enough]
  rfl

/-- As many rounds as there are tokens are enough. -/
theorem Parser.expression_layered_size :
    (∀ c : Cursor, c.rest.length ≤ c.tokens.size) ∧
      Parser.expression = (Deeper.layers (·.tokens.size) Limit.nesting).expression :=
  ⟨Cursor.length_rest_le, Parser.expression_layered Cursor.length_rest_le⟩

end WaitDefer
