import Mathlib.Tactic.MkIffOfInductiveProp
import WaitDefer.Tree.Decode
import WaitDefer.Tree.Encode
import WaitDefer.Proofs.Json.Text
import WaitDefer.Proofs.Tree.Spots

/-!
# The tree in JSON

What is written of a module is read back as the same module, however large its numbers and whatever
its strings hold, unless it nests too deep:

* `Json.depth`: how deep arrays and objects nest in a value;
* `Json.Carries`: a value off which a decoder reads something, given enough room; `record`, `form`,
  `list` and `maybe` put such values together, and `one` up to `five` are the records of so many
  fields;
* `Expr.carries`, `StatementKind.carries`, `Func.carries`, `carries_cases`: the JSON of a tree
  carries the tree;
* `Module.read?_write`: so does its text.
-/

namespace WaitDefer

namespace Json

/-! ## How deep a value nests -/

mutual

/-- So many arrays and objects are nested in a value, the value itself included. -/
def depth : Json → Nat
  | arr items => depthOfItems items + 1
  | obj members => depthOfMembers members + 1
  | _ => 0

def depthOfItems : List Json → Nat
  | [] => 0
  | item :: items => max item.depth (depthOfItems items)

def depthOfMembers : List (String × Json) → Nat
  | [] => 0
  | (_, value) :: members => max value.depth (depthOfMembers members)

end

theorem depthOfItems_le {items : List Json} {n : Nat} :
    depthOfItems items ≤ n ↔ ∀ item ∈ items, item.depth ≤ n := by
  induction items with
  | nil => simp [depthOfItems]
  | cons item items ih => rw [depthOfItems, Nat.max_le, ih, List.forall_mem_cons]

theorem depthOfMembers_le {members : List (String × Json)} {n : Nat} :
    depthOfMembers members ≤ n ↔ ∀ m ∈ members, m.2.depth ≤ n := by
  induction members with
  | nil => simp [depthOfMembers]
  | cons m members ih => rw [depthOfMembers, Nat.max_le, ih, List.forall_mem_cons]

/-! ## Values that carry something -/

/-- The value can be written as text, and a decoder with enough room reads `a` off it. -/
structure Carries {α : Type} (decode : Decoder α) (j : Json) (a : α) : Prop where
  plain : j.Plain
  read : ∀ room, j.depth ≤ room → decode room j = some a

namespace Carries

variable {α : Type} {decode : Decoder α} {j : Json} {a : α}

/-! ### Records and forms -/

/-- A record is read off its fields, which nest one level less. -/
theorem record {members : List (String × Json)} (plain : ∀ m ∈ members, m.2.Plain)
    (read : ∀ room, (∀ m ∈ members, m.2.depth ≤ room) → decode (room + 1) (obj members) = some a) :
    Carries decode (obj members) a := by
  refine ⟨.obj plain, fun room deep => ?_⟩
  cases room with
  | zero => cases deep
  | succ room => exact read room (depthOfMembers_le.mp (Nat.le_of_succ_le_succ deep))

section
variable {α₁ α₂ α₃ α₄ α₅ : Type} {decode₁ : Decoder α₁} {decode₂ : Decoder α₂}
  {decode₃ : Decoder α₃} {decode₄ : Decoder α₄} {decode₅ : Decoder α₅} {j₁ j₂ j₃ j₄ j₅ : Json}
  {a₁ : α₁} {a₂ : α₂} {a₃ : α₃} {a₄ : α₄} {a₅ : α₅} {n₁ n₂ n₃ n₄ n₅ : String}

theorem one (make : α₁ → α) (h₁ : Carries decode₁ j₁ a₁)
    (step : ∀ room, decode (room + 1) (obj [(n₁, j₁)]) = (do return make (← decode₁ room j₁))) :
    Carries decode (obj [(n₁, j₁)]) (make a₁) := by
  refine record (by simp [h₁.plain]) fun room deep => ?_
  simp only [List.forall_mem_cons] at deep
  rw [step, h₁.read room deep.1]
  rfl

theorem two (make : α₁ → α₂ → α) (h₁ : Carries decode₁ j₁ a₁) (h₂ : Carries decode₂ j₂ a₂)
    (step : ∀ room, decode (room + 1) (obj [(n₁, j₁), (n₂, j₂)]) =
      (do return make (← decode₁ room j₁) (← decode₂ room j₂))) :
    Carries decode (obj [(n₁, j₁), (n₂, j₂)]) (make a₁ a₂) := by
  refine record (by simp [h₁.plain, h₂.plain]) fun room deep => ?_
  simp only [List.forall_mem_cons] at deep
  obtain ⟨d₁, d₂, -⟩ := deep
  rw [step, h₁.read room d₁, h₂.read room d₂]
  rfl

theorem three (make : α₁ → α₂ → α₃ → α) (h₁ : Carries decode₁ j₁ a₁) (h₂ : Carries decode₂ j₂ a₂)
    (h₃ : Carries decode₃ j₃ a₃)
    (step : ∀ room, decode (room + 1) (obj [(n₁, j₁), (n₂, j₂), (n₃, j₃)]) =
      (do return make (← decode₁ room j₁) (← decode₂ room j₂) (← decode₃ room j₃))) :
    Carries decode (obj [(n₁, j₁), (n₂, j₂), (n₃, j₃)]) (make a₁ a₂ a₃) := by
  refine record (by simp [h₁.plain, h₂.plain, h₃.plain]) fun room deep => ?_
  simp only [List.forall_mem_cons] at deep
  obtain ⟨d₁, d₂, d₃, -⟩ := deep
  rw [step, h₁.read room d₁, h₂.read room d₂, h₃.read room d₃]
  rfl

theorem four (make : α₁ → α₂ → α₃ → α₄ → α) (h₁ : Carries decode₁ j₁ a₁)
    (h₂ : Carries decode₂ j₂ a₂) (h₃ : Carries decode₃ j₃ a₃) (h₄ : Carries decode₄ j₄ a₄)
    (step : ∀ room, decode (room + 1) (obj [(n₁, j₁), (n₂, j₂), (n₃, j₃), (n₄, j₄)]) =
      (do return make (← decode₁ room j₁) (← decode₂ room j₂) (← decode₃ room j₃)
            (← decode₄ room j₄))) :
    Carries decode (obj [(n₁, j₁), (n₂, j₂), (n₃, j₃), (n₄, j₄)]) (make a₁ a₂ a₃ a₄) := by
  refine record (by simp [h₁.plain, h₂.plain, h₃.plain, h₄.plain]) fun room deep => ?_
  simp only [List.forall_mem_cons] at deep
  obtain ⟨d₁, d₂, d₃, d₄, -⟩ := deep
  rw [step, h₁.read room d₁, h₂.read room d₂, h₃.read room d₃, h₄.read room d₄]
  rfl

theorem five (make : α₁ → α₂ → α₃ → α₄ → α₅ → α) (h₁ : Carries decode₁ j₁ a₁)
    (h₂ : Carries decode₂ j₂ a₂) (h₃ : Carries decode₃ j₃ a₃) (h₄ : Carries decode₄ j₄ a₄)
    (h₅ : Carries decode₅ j₅ a₅)
    (step : ∀ room, decode (room + 1) (obj [(n₁, j₁), (n₂, j₂), (n₃, j₃), (n₄, j₄), (n₅, j₅)]) =
      (do return make (← decode₁ room j₁) (← decode₂ room j₂) (← decode₃ room j₃)
            (← decode₄ room j₄) (← decode₅ room j₅))) :
    Carries decode (obj [(n₁, j₁), (n₂, j₂), (n₃, j₃), (n₄, j₄), (n₅, j₅)])
      (make a₁ a₂ a₃ a₄ a₅) := by
  refine record (by simp [h₁.plain, h₂.plain, h₃.plain, h₄.plain, h₅.plain]) fun room deep => ?_
  simp only [List.forall_mem_cons] at deep
  obtain ⟨d₁, d₂, d₃, d₄, d₅, -⟩ := deep
  rw [step, h₁.read room d₁, h₂.read room d₂, h₃.read room d₃, h₄.read room d₄, h₅.read room d₅]
  rfl

end

/-- A form carries what its content does. -/
theorem form {decode' : Decoder α} {name : String} (h : Carries decode j a)
    (step : ∀ room, decode' (room + 1) (form name j) = decode room j) :
    Carries decode' (form name j) a := by
  refine record (List.forall_mem_singleton.mpr h.plain) fun room deep => ?_
  exact (step room).trans (h.read room (deep _ List.mem_cons_self))

theorem list {decodes : Decoder (List α)}
    (step : ∀ room js, decodes (room + 1) (arr js) = js.mapM (decode room)) {f : α → Json}
    {xs : List α} (each : ∀ x ∈ xs, Carries decode (f x) x) :
    Carries decodes (list f xs) xs := by
  refine ⟨.arr (List.forall_mem_map.mpr fun x hx => (each x hx).plain), fun room deep => ?_⟩
  cases room with
  | zero => cases deep
  | succ room =>
    have within := depthOfItems_le.mp (Nat.le_of_succ_le_succ deep)
    rw [Json.list, step]
    clear deep
    induction xs with
    | nil => rfl
    | cons x xs ih =>
      obtain ⟨first, others⟩ := List.forall_mem_cons.mp each
      obtain ⟨shallow, below⟩ := List.forall_mem_cons.mp within
      rw [List.map_cons, List.mapM_cons, first.read room shallow, ih others below]
      rfl

/-- A field that may be missing. -/
theorem maybe {f : α → Json} {o : Option α} (each : ∀ x ∈ o, Carries decode (f x) x)
    (present : ∀ x, f x ≠ null) :
    Carries (fun room j => maybe (decode room) (some j)) (optional f o) o := by
  cases o with
  | none => exact ⟨.null, fun _ _ => rfl⟩
  | some x =>
    obtain ⟨plain, read⟩ := each x rfl
    refine ⟨plain, fun room deep => ?_⟩
    have read := read room deep
    change Json.maybe (decode room) (some (f x)) = some (some x)
    cases same : f x with
    | null => exact absurd same (present x)
    | _ =>
      rw [same] at read
      exact congrArg (Option.map some) read

theorem upTo {n last : Nat} (h : n ≤ last) : Carries (upTo last) (nat n) n := by
  refine ⟨.int _, fun room _ => ?_⟩
  have above : (0 : Int) ≤ n ∧ (n : Int) ≤ last := ⟨Int.natCast_nonneg n, Int.ofNat_le.mpr h⟩
  simp [Json.upTo, nat, above]

theorem signed64 {i : Int} (h : -0x8000000000000000 ≤ i ∧ i < 0x8000000000000000) :
    Carries signed64 (int i) i := by
  refine ⟨.int _, fun room _ => ?_⟩
  simp [Json.signed64, h]

theorem text (s : String) : Carries text (str s) s := ⟨.str s, fun _ _ => rfl⟩

theorem truth (b : Bool) : Carries truth (bool b) b := ⟨.bool b, fun _ _ => rfl⟩

end Carries

end Json

open Json

/-! ## Numbers -/

/-- The numbers of a span are no larger than they may be. -/
@[mk_iff]
structure Span.Fits (s : Span) : Prop where
  start : s.start ≤ Decode.lastOffset
  stop : s.stop ≤ Decode.lastOffset
  line : s.line ≤ Decode.lastIndex
  column : s.column ≤ Decode.lastIndex

/-- The number that a spot stands for. -/
def Spot.number? : Spot → Option Int
  | .expr (.int value _) => some value
  | _ => none

/-- The numbers of a spot are within the range they may have: those of its span, its id, and the
value of a literal. -/
@[mk_iff]
structure Spot.Fits (x : Spot) : Prop where
  span : x.span.Fits
  id : ∀ i ∈ x.id?, i ≤ Decode.lastIndex
  number : ∀ n ∈ x.number?, -0x8000000000000000 ≤ n ∧ n < 0x8000000000000000

instance (s : Span) : Decidable s.Fits := decidable_of_iff _ (Span.fits_iff s).symm

instance (x : Spot) : Decidable x.Fits := decidable_of_iff _ (Spot.fits_iff x).symm

/-! ## Small records -/

theorem Span.carries {s : Span} (fits : s.Fits) : Carries Decode.span s.toJson s :=
  .four Span.mk (.upTo fits.start) (.upTo fits.stop) (.upTo fits.line) (.upTo fits.column)
    fun _ => rfl

theorem Ident.carries {x : Ident} (fits : x.span.Fits) : Carries Decode.ident x.toJson x :=
  .two Ident.mk (.text x.name) (Span.carries fits) fun _ => rfl

theorem UnaryOp.carries (op : UnaryOp) : Carries Decode.unaryOp (.str op.formName) op :=
  ⟨.str _, fun _ _ => by cases op <;> rfl⟩

theorem BinaryOp.carries (op : BinaryOp) : Carries Decode.binaryOp (.str op.formName) op :=
  ⟨.str _, fun _ _ => by cases op <;> rfl⟩

theorem Ident.toJson_ne_null (x : Ident) : x.toJson ≠ .null := nofun

/-! ## Expressions -/

theorem Expr.toJson_ne_null (e : Expr) : e.toJson ≠ .null := by
  cases e <;> simp [Expr.toJson, form]

theorem Expr.listToJson_eq (es : List Expr) : Expr.listToJson es = es.map Expr.toJson := by
  induction es with
  | nil => rfl
  | cons e es ih => rw [Expr.listToJson, ih, List.map_cons]

/-- A literal is a value and its place. -/
theorem Json.Carries.literal {α : Type} {value : Decoder α} {make : α → Span → Expr} {j : Json}
    {a : α} {s : Span} (h : Carries value j a) (fits : s.Fits) :
    Carries (Decode.literal value make) (.obj [("value", j), ("span", s.toJson)]) (make a s) :=
  .two make h (Span.carries fits) fun _ => rfl

theorem Expr.carries {e : Expr} (fits : (Spot.expr e).Fits)
    (names : ∀ x, Spot.ident x ∈ e.spots → x.span.Fits)
    (operands : ∀ o ∈ e.operands, Carries Decode.expr o.toJson o)
    (functions : ∀ f ∈ e.functions, Carries Decode.func f.toJson f) :
    Carries Decode.expr e.toJson e := by
  have place : Carries Decode.span e.span.toJson e.span := Span.carries fits.span
  cases e with
  | int i s => exact .form (.literal (.signed64 (fits.number i rfl)) fits.span) fun _ => rfl
  | str v s => exact .form (.literal (.text v) fits.span) fun _ => rfl
  | bool b s => exact .form (.literal (.truth b) fits.span) fun _ => rfl
  | null s => exact .one Expr.null place fun _ => rfl
  | ident x => exact .one Expr.ident (Ident.carries fits.span) fun _ => rfl
  | unary op operand s =>
    have inner := operands operand (by simp [Expr.operands])
    exact .form (.three Expr.unary op.carries inner place fun _ => rfl) fun _ => rfl
  | binary op left right s =>
    have first := operands left (by simp [Expr.operands])
    have second := operands right (by simp [Expr.operands])
    exact .form (.four Expr.binary op.carries first second place fun _ => rfl) fun _ => rfl
  | call callee arguments s =>
    have called := operands callee (by simp [Expr.operands])
    have given : Carries Decode.exprList _ arguments := .list (fun _ _ => rfl) fun e he =>
      operands e (by simp [Expr.operands, he])
    rw [Expr.toJson, Expr.listToJson_eq]
    exact .form (.three Expr.call called given place fun _ => rfl) fun _ => rfl
  | member object property s =>
    have held := operands object (by simp [Expr.operands])
    have name := Ident.carries (names property (by simp [Expr.spots]))
    exact .form (.three Expr.member held name place fun _ => rfl) fun _ => rfl
  | func f => exact .one Expr.func (functions f (by simp [Expr.functions])) fun _ => rfl
  | defer bindings s =>
    have bound : Carries (items Decode.ident) _ bindings := .list (fun _ _ => rfl) fun x hx =>
      Ident.carries (names x (by simp [Expr.spots, hx]))
    have content : Carries Decode.deferral
        (.obj [("bindings", .list Ident.toJson bindings), ("span", s.toJson)])
        (.defer bindings s) := .two Expr.defer bound place fun _ => rfl
    exact .form content fun _ => rfl

/-! ## Functions and blocks -/

theorem Func.carries {f : Func} (fits : (Spot.func f).Fits)
    (names : ∀ x ∈ f.name.toList ++ f.params, x.span.Fits)
    (body : Carries Decode.block f.body.toJson f.body) : Carries Decode.func f.toJson f := by
  obtain ⟨id, name, params, body, span⟩ := f
  have own : Carries _ _ name := .maybe
    (fun x hx => Ident.carries (names x (by simp [Option.mem_def.mp hx]))) Ident.toJson_ne_null
  have taken : Carries (items Decode.ident) _ params := .list (fun _ _ => rfl) fun x hx =>
    Ident.carries (names x (by simp [hx]))
  exact .five Func.mk (.upTo (fits.id id rfl)) own taken body (Span.carries fits.span) fun _ => rfl

theorem Statement.listToJson_eq (ss : List Statement) :
    Statement.listToJson ss = ss.map Statement.toJson := by
  induction ss with
  | nil => rfl
  | cons s ss ih => rw [Statement.listToJson, ih, List.map_cons]

theorem Block.toJson_ne_null (b : Block) : b.toJson ≠ .null := by
  cases b
  simp [Block.toJson]

theorem Block.carries {b : Block} (fits : (Spot.block b).Fits)
    (each : ∀ s ∈ b.statements, Carries Decode.statement s.toJson s) :
    Carries Decode.block b.toJson b := by
  obtain ⟨id, ss, span⟩ := b
  have body : Carries Decode.statementList _ ss := .list (fun _ _ => rfl) each
  rw [Block.toJson, Statement.listToJson_eq]
  exact .three Block.mk (.upTo (fits.id id rfl)) body (Span.carries fits.span) fun _ => rfl

/-! ## Statements -/

/-- An arm as it stands in the list of a switch. -/
def Arm.toJson (a : Arm) : Json :=
  .obj [("test", a.test.toJson), ("body", a.body.toJson), ("span", a.span.toJson)]

theorem Arm.listToJson_eq (arms : List Arm) : Arm.listToJson arms = arms.map Arm.toJson := by
  induction arms with
  | nil => rfl
  | cons a arms ih =>
    obtain ⟨test, body, span⟩ := a
    rw [Arm.listToJson, ih, List.map_cons]
    rfl

theorem Statement.toJson_ne_null (s : Statement) : s.toJson ≠ .null := by
  cases s
  simp [Statement.toJson]

namespace StatementKind

theorem toJson_declare (name : Ident) (init : Option Expr) :
    (declare name init).toJson =
      form "Let" (.obj [("name", name.toJson), ("init", .optional Expr.toJson init)]) := by
  cases init <;> rfl

theorem toJson_ret (value : Option Expr) :
    (ret value).toJson = form "Return" (.optional Expr.toJson value) := by
  cases value <;> rfl

theorem toJson_branch (condition : Expr) (yes : Block) (no : Option Block) :
    (branch condition yes no).toJson = form "If" (.obj [("condition", condition.toJson),
      ("then_branch", yes.toJson), ("else_branch", .optional Block.toJson no)]) := by
  cases no <;> rfl

theorem toJson_switch (subject : Expr) (arms : List Arm) (otherwise : Option Block) :
    (switch subject arms otherwise).toJson = form "Switch" (.obj [
      ("discriminant", subject.toJson), ("cases", .list Arm.toJson arms),
      ("default", .optional Block.toJson otherwise)]) := by
  cases otherwise <;> rw [toJson, Arm.listToJson_eq] <;> rfl

end StatementKind

theorem LoopHead.toJson_counting (init : Option Statement) (test : Option Expr)
    (update : Option Statement) :
    (counting init test update).toJson = form "For" (.obj [
      ("init", .optional Statement.toJson init), ("test", .optional Expr.toJson test),
      ("update", .optional Statement.toJson update)]) := by
  cases init <;> cases test <;> cases update <;> rfl

section
variable {kind : StatementKind}

theorem LoopHead.carries {head : LoopHead}
    (tests : ∀ e ∈ head.test?, Carries Decode.expr e.toJson e)
    (headers : ∀ h ∈ head.statements, Carries Decode.statement h.toJson h) :
    Carries Decode.loopHead head.toJson head := by
  have condition {e : Expr} (h : Carries Decode.expr e.toJson e) :
      Carries Decode.conditionOnly (form "condition" e.toJson) e := .form h fun _ => rfl
  cases head with
  | whileDo test => exact .one LoopHead.whileDo (condition (tests test rfl)) fun _ => rfl
  | doWhile test => exact .one LoopHead.doWhile (condition (tests test rfl)) fun _ => rfl
  | counting init test update =>
    have first : Carries _ _ init := .maybe
      (fun h hh => headers h (by simp [statements, Option.mem_def.mp hh])) Statement.toJson_ne_null
    have middle : Carries _ _ test := .maybe tests Expr.toJson_ne_null
    have last : Carries _ _ update := .maybe
      (fun h hh => headers h (by simp [statements, Option.mem_def.mp hh])) Statement.toJson_ne_null
    rw [toJson_counting]
    exact .form (.three LoopHead.counting first middle last fun _ => rfl) fun _ => rfl

theorem Arm.carries {a : Arm} (fits : a.span.Fits) (test : Carries Decode.expr a.test.toJson a.test)
    (body : Carries Decode.block a.body.toJson a.body) : Carries Decode.arm a.toJson a := by
  obtain ⟨test, body, span⟩ := a
  exact .three Arm.mk ‹_› ‹_› (Span.carries fits) fun _ => rfl

theorem Json.Carries.label {label : Option Ident} (names : ∀ x ∈ label, x.span.Fits) :
    Carries (fun room j => Json.maybe (Decode.ident room) (some j))
      (.optional Ident.toJson label) label :=
  .maybe (fun x hx => Ident.carries (names x hx)) Ident.toJson_ne_null

theorem StatementKind.carries
    (exprs : ∀ e ∈ kind.tests ++ kind.operands, Carries Decode.expr e.toJson e)
    (headers : ∀ h ∈ kind.headers, Carries Decode.statement h.toJson h)
    (blocks : ∀ b ∈ kind.blocks, Carries Decode.block b.toJson b)
    (functions : ∀ f ∈ kind.functions, Carries Decode.func f.toJson f)
    (names : ∀ x, Spot.ident x ∈ kind.spots → x.span.Fits)
    (armSpans : ∀ a, Spot.arm a ∈ kind.spots → a.span.Fits) :
    Carries Decode.statementKind kind.toJson kind := by
  cases kind with
  | declare name init =>
    have introduced := Ident.carries (names name (by simp [spots]))
    have value : Carries _ _ init := .maybe
      (fun e he => exprs e (by simp [tests, operands, Option.mem_def.mp he])) Expr.toJson_ne_null
    rw [toJson_declare]
    exact .form (.two StatementKind.declare introduced value fun _ => rfl) fun _ => rfl
  | assign target value =>
    have left := exprs target (by simp [tests, operands])
    have right := exprs value (by simp [tests, operands])
    exact .form (.two StatementKind.assign left right fun _ => rfl) fun _ => rfl
  | expr value =>
    exact .one StatementKind.expr (exprs value (by simp [tests, operands])) fun _ => rfl
  | ret value =>
    have returned : Carries _ _ value := .maybe
      (fun e he => exprs e (by simp [tests, operands, Option.mem_def.mp he])) Expr.toJson_ne_null
    rw [toJson_ret]
    exact .one StatementKind.ret returned fun _ => rfl
  | block body =>
    exact .one StatementKind.block (blocks body (by simp [StatementKind.blocks])) fun _ => rfl
  | branch condition yes no =>
    have test := exprs condition (by simp [tests])
    have first := blocks yes (by simp [StatementKind.blocks])
    have second : Carries _ _ no := .maybe
      (fun b hb => blocks b (by simp [StatementKind.blocks, Option.mem_def.mp hb]))
      Block.toJson_ne_null
    rw [toJson_branch]
    exact .form (.three StatementKind.branch test first second fun _ => rfl) fun _ => rfl
  | switch subject arms otherwise =>
    have compared := exprs subject (by simp [tests])
    have chosen : Carries Decode.armList _ arms := .list (fun _ _ => rfl) fun a ha =>
      Arm.carries (armSpans a (by simp [spots, ha])) (exprs a.test (by simp [tests]; grind))
        (blocks a.body (by simp [StatementKind.blocks]; grind))
    have fallback : Carries _ _ otherwise := .maybe
      (fun b hb => blocks b (by simp [StatementKind.blocks, Option.mem_def.mp hb]))
      Block.toJson_ne_null
    rw [toJson_switch]
    exact .form (.three StatementKind.switch compared chosen fallback fun _ => rfl) fun _ => rfl
  | loop label head body =>
    have named : Carries _ _ label :=
      .label fun x hx => names x (by simp [spots, Option.mem_def.mp hx])
    have driven : Carries Decode.loopHead _ head :=
      LoopHead.carries (fun e he => exprs e (by simp [tests, Option.mem_def.mp he])) headers
    have round := blocks body (by simp [StatementKind.blocks])
    exact .form (.three StatementKind.loop named driven round fun _ => rfl) fun _ => rfl
  | jump kind label =>
    have named : Carries _ _ label :=
      .label fun x hx => names x (by simp [spots, Option.mem_def.mp hx])
    have content : Carries Decode.labelOnly (form "label" (.optional Ident.toJson label)) label :=
      .form named fun _ => rfl
    cases kind with
    | leave => exact .one (StatementKind.jump .leave) content fun _ => rfl
    | resume => exact .one (StatementKind.jump .resume) content fun _ => rfl
  | wait body =>
    exact .one StatementKind.wait (blocks body (by simp [StatementKind.blocks])) fun _ => rfl
  | func f =>
    exact .one StatementKind.func (functions f (by simp [StatementKind.functions])) fun _ => rfl

theorem Statement.carries {s : Statement} (fits : (Spot.statement s).Fits)
    (kind : Carries Decode.statementKind s.kind.toJson s.kind) :
    Carries Decode.statement s.toJson s := by
  obtain ⟨id, kind, span⟩ := s
  exact .three Statement.mk (.upTo (fits.id id rfl)) ‹_› (Span.carries fits.span) fun _ => rfl

end

/-! ## Modules -/

theorem carries_cases : Cases
    (fun e => (Spot.expr e).Every Spot.Fits → Carries Decode.expr e.toJson e)
    (fun f => (Spot.func f).Every Spot.Fits → Carries Decode.func f.toJson f)
    (fun b => (Spot.block b).Every Spot.Fits → Carries Decode.block b.toJson b)
    (fun s => (Spot.statement s).Every Spot.Fits → Carries Decode.statement s.toJson s) where
  expr e operands functions fits :=
    Expr.carries fits.1 (fun x hx => (fits.2 _ (.of_inside hx)).span)
      (fun o ho => operands o ho (fits.within (Expr.within_operand ho)))
      fun f hf => functions f hf (fits.within (Expr.within_function hf))
  func f body fits := by
    have inside {y : Spot} (hy : y ∈ (Spot.func f).inside) : y.Every Spot.Fits :=
      fits.within (.of_inside hy)
    refine Func.carries fits.1 (fun x hx => ?_) (body (inside (by simp [Spot.inside])))
    have name : Spot.ident x ∈ (Spot.func f).inside := by
      simpa [Spot.inside] using hx
    exact (inside name).1.span
  block b each fits :=
    Block.carries fits.1 fun s hs => each s hs (fits.within (.of_inside (List.mem_map_of_mem hs)))
  statement s exprs headers blocks functions fits :=
    Statement.carries fits.1 (StatementKind.carries
      (fun e he => exprs e he (fits.within (Statement.within_expr he)))
      (fun h hh => headers h hh (fits.within (Statement.within_header hh)))
      (fun b hb => blocks b hb (fits.within (Statement.within_block hb)))
      (fun f hf => functions f hf (fits.within (Statement.within_function hf)))
      (fun x hx => (fits.2 _ (.of_inside hx)).span)
      fun a ha => (fits.2 _ (.of_inside ha)).span)

namespace Module

/-- All numbers in the module are within the range they may have. -/
structure Fits (m : Module) : Prop where
  span : m.span.Fits
  spots : ∀ x, m.Has x → x.Fits

theorem carries {m : Module} (fits : m.Fits) : Carries Decode.wholeModule m.toJson m := by
  have each : ∀ f ∈ m.functions, Carries Decode.func f.toJson f := by
    intro f hf
    apply Func.whole carries_cases f
    exact ⟨fits.spots _ ⟨f, hf, .inl rfl⟩, fun y hy => fits.spots y ⟨f, hf, .inr hy⟩⟩
  have functions : Carries (items Decode.func) _ m.functions := .list (fun _ _ => rfl) each
  exact .two Module.mk functions (Span.carries fits.span) fun _ => rfl

/-- **The tree is read back from its text.** -/
theorem read?_write {m : Module} (fits : m.Fits) (shallow : m.toJson.depth < 128) :
    Module.read? m.write = some m := by
  have carried := carries fits
  rw [read?, write, parse?_pretty carried.plain]
  exact carried.read _ (Nat.le_of_lt_succ shallow)

/-- The largest numbers there are, and a string with all kinds of characters. -/
def extremes : Module :=
  let last : Span := ⟨Decode.lastOffset, Decode.lastOffset, Decode.lastIndex, Decode.lastIndex⟩
  let value : Expr := .binary .add (.int (-0x8000000000000000) last)
    (.str "\"\\/\n\x00\x1f\x7f\u00e9\uffff😀" last) last
  ⟨[⟨Decode.lastIndex, some ⟨"", last⟩, [], ⟨0, [⟨1, .ret (some value), last⟩], default⟩, last⟩],
    last⟩

theorem read?_write_extremes : extremes.Fits ∧ extremes.toJson.depth < 128 ∧
    Module.read? extremes.write = some extremes := by
  have one {x y : Spot} (own : x.Fits) (only : x.inside = [y]) (h : y.Every Spot.Fits) :
      x.Every Spot.Fits :=
    Spot.every_iff.mpr ⟨own, only ▸ List.forall_mem_singleton.mpr h⟩
  have none {x : Spot} (own : x.Fits) (leaf : x.inside = []) : x.Every Spot.Fits :=
    Spot.every_iff.mpr ⟨own, leaf ▸ List.forall_mem_nil _⟩
  have two {x y z : Spot} (own : x.Fits) (both : x.inside = [y, z]) (h : y.Every Spot.Fits)
      (h' : z.Every Spot.Fits) : x.Every Spot.Fits :=
    Spot.every_iff.mpr ⟨own, both ▸ List.forall_mem_cons.mpr ⟨h, List.forall_mem_singleton.mpr h'⟩⟩
  have fits : extremes.Fits := by
    refine ⟨by decide, fun x hx => hx.of_every (List.forall_mem_singleton.mpr ?_)⟩
    exact two (by decide) rfl (none (by decide) rfl)
      (one (by decide) rfl (one (by decide) rfl
        (two (by decide) rfl (none (by decide) rfl) (none (by decide) rfl))))
  have shallow : extremes.toJson.depth < 128 := by decide +kernel
  exact ⟨fits, shallow, read?_write fits shallow⟩

end Module

end WaitDefer
