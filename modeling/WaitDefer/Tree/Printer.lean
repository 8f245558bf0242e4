import WaitDefer.Grammar.Precedence

/-! The tree as program text. A tree is laid out as pieces, which are tokens and the blanks between
them, and the text is what the pieces spell. Parentheses stand where the operators' binding needs
them and nowhere else. -/
namespace WaitDefer

/-- A token or a run of blanks. -/
inductive Piece
  | tok (t : Token)
  | gap (blanks : String)
  deriving DecidableEq, Repr, Inhabited

namespace Piece

/-- How a character of a string is written between quotes. -/
def escape (c : Char) : List Char :=
  match c with
  | '"' => ['\\', '"']
  | '\\' => ['\\', '\\']
  | '\n' => ['\\', 'n']
  | '\r' => ['\\', 'r']
  | '\t' => ['\\', 't']
  | c => [c]

/-- A string between quotes. -/
def quote (s : String) : String :=
  String.ofList ('"' :: (s.toList.flatMap escape ++ ['"']))

/-- The text of a piece. -/
def text : Piece → String
  | tok (.str s) => quote s
  | tok t => t.text
  | gap blanks => blanks

/-- The text of several pieces. -/
def render (pieces : List Piece) : String := String.join (pieces.map text)

/-- The tokens among some pieces. -/
def tokens (pieces : List Piece) : List Token :=
  pieces.filterMap fun
    | tok t => some t
    | gap _ => none

def space : Piece := gap " "

def newline : Piece := gap "\n"

/-- Four blanks for each level of nesting. -/
def indent (level : Nat) : Piece := gap ("".pushn ' ' (4 * level))

def word (k : Keyword) : Piece := tok (.word k)

def sym (s : Symbol) : Piece := tok (.sym s)

/-- A name, wherever it is bound or used. -/
def name (i : Ident) : Piece := tok (.ident i.name)

/-- Names with commas between them. -/
def names : List Ident → List Piece
  | [] => []
  | [i] => [name i]
  | i :: is => name i :: sym .comma :: space :: names is

/-- A loop's label and its colon. -/
def labelOf : Option Ident → List Piece
  | some i => [name i, sym .colon, space]
  | none => []

/-- Lines between braces; the closing brace is indented by `level`. -/
def braces (level : Nat) (lines : List Piece) : List Piece :=
  if lines.isEmpty then [sym .leftBrace, sym .rightBrace]
  else sym .leftBrace :: newline :: (lines ++ [indent level, sym .rightBrace])

/-- Parentheses around some pieces, if wanted. -/
def parens (wanted : Bool) (pieces : List Piece) : List Piece :=
  if wanted then sym .leftParen :: (pieces ++ [sym .rightParen]) else pieces

end Piece

open Piece

namespace Expr

/-- An operand that binds more loosely than its place asks needs parentheses. -/
def isLooserThan (e : Expr) (place : Precedence) : Bool :=
  match e with
  | binary op .. => op.precedence.rank < place.rank
  | _ => false

/-- What stands before a call or a member access needs parentheses if it is an operation or a
function. -/
def needsGrouping : Expr → Bool
  | binary .. | unary .. | func .. => true
  | _ => false

end Expr

namespace StatementKind

/-- Declarations, assignments and expressions end with a semicolon of their own, except in the
head of a loop. -/
def isSimple : StatementKind → Bool
  | declare .. | assign .. | expr .. => true
  | _ => false

/-- What ends a statement of this kind where statements follow each other. -/
def ending (kind : StatementKind) : List Piece :=
  if kind.isSimple then [sym .semicolon] else []

end StatementKind

/-! ## Layout

`level` is the nesting of the line on which the layout starts. -/

mutual

def Func.pieces (level : Nat) : Func → List Piece
  | ⟨_, fname, params, body, _⟩ =>
    word .function :: space :: (fname.toList.map name ++ (sym .leftParen :: (names params ++
      (sym .rightParen :: space :: body.pieces level))))

/-- Statements between braces. -/
def Block.pieces (level : Nat) : Block → List Piece
  | ⟨_, ss, _⟩ => braces level (Statement.listPieces (level + 1) ss)

/-- What follows an `else`: a block that holds one `if` and nothing more is written as that
`if`. -/
def Block.elsePieces (level : Nat) : Block → List Piece
  | ⟨_, [⟨_, .branch condition yes no, _⟩], _⟩ =>
    (StatementKind.branch condition yes no).pieces level
  | ⟨_, ss, _⟩ => braces level (Statement.listPieces (level + 1) ss)

/-- Statements, each on a line of its own. -/
def Statement.listPieces (level : Nat) : List Statement → List Piece
  | [] => []
  | s :: ss => s.linePieces level ++ Statement.listPieces level ss

def Statement.linePieces (level : Nat) : Statement → List Piece
  | ⟨_, kind, _⟩ => indent level :: (kind.pieces level ++ (kind.ending ++ [newline]))

/-- A statement without the semicolon that ends a simple one. -/
def StatementKind.pieces (level : Nat) : StatementKind → List Piece
  | .declare i none => [word .let, space, name i]
  | .declare i (some init) =>
    word .let :: space :: name i :: space :: sym .equal :: space :: init.pieces level
  | .assign target value =>
    target.pieces level ++ (space :: sym .equal :: space :: value.pieces level)
  | .expr value => value.pieces level
  | .ret none => [word .return, sym .semicolon]
  | .ret (some value) => word .return :: space :: (value.pieces level ++ [sym .semicolon])
  | .block body => body.pieces level
  | .branch condition yes none =>
    word .if :: space :: sym .leftParen :: (condition.pieces level ++
      (sym .rightParen :: space :: yes.pieces level))
  | .branch condition yes (some no) =>
    word .if :: space :: sym .leftParen :: (condition.pieces level ++
      (sym .rightParen :: space :: (yes.pieces level ++
        (space :: word .else :: space :: no.elsePieces level))))
  | .switch subject arms none =>
    word .switch :: space :: sym .leftParen :: (subject.pieces level ++
      (sym .rightParen :: space :: sym .leftBrace :: newline ::
        (Arm.listPieces (level + 1) arms ++ [indent level, sym .rightBrace])))
  | .switch subject arms (some ⟨_, ss, _⟩) =>
    word .switch :: space :: sym .leftParen :: (subject.pieces level ++
      (sym .rightParen :: space :: sym .leftBrace :: newline ::
        (Arm.listPieces (level + 1) arms ++
          (indent (level + 1) :: word .default :: sym .colon :: newline ::
            (Statement.listPieces (level + 2) ss ++ [indent level, sym .rightBrace])))))
  | .loop label (.whileDo condition) body =>
    labelOf label ++ (word .while :: space :: sym .leftParen :: (condition.pieces level ++
      (sym .rightParen :: space :: body.pieces level)))
  | .loop label (.doWhile condition) body =>
    labelOf label ++ (word .do :: space :: (body.pieces level ++
      (space :: word .while :: space :: sym .leftParen :: (condition.pieces level ++
        [sym .rightParen, sym .semicolon]))))
  | .loop label (.counting init test update) body =>
    labelOf label ++ (word .for :: space :: sym .leftParen ::
      ((match init with
        | some ⟨_, kind, _⟩ => kind.pieces level
        | none => []) ++
      (sym .semicolon ::
      ((match test with
        | some e => space :: e.pieces level
        | none => []) ++
      (sym .semicolon ::
      ((match update with
        | some ⟨_, kind, _⟩ => space :: kind.pieces level
        | none => []) ++
      (sym .rightParen :: space :: body.pieces level)))))))
  | .jump kind none => [word kind.keyword, sym .semicolon]
  | .jump kind (some label) => [word kind.keyword, space, name label, sym .semicolon]
  | .wait body => word .wait :: space :: body.pieces level
  | .func f => f.pieces level

/-- The arms of a switch; `level` is that of the line with the test. -/
def Arm.listPieces (level : Nat) : List Arm → List Piece
  | [] => []
  | ⟨test, ⟨_, ss, _⟩, _⟩ :: arms =>
    indent level :: word .case :: space :: (test.pieces level ++
      (sym .colon :: newline ::
        (Statement.listPieces (level + 1) ss ++ Arm.listPieces level arms)))

def Expr.pieces (level : Nat) : Expr → List Piece
  | .int value _ => [tok (.int value)]
  | .str value _ => [tok (.str value)]
  | .bool true _ => [word .true]
  | .bool false _ => [word .false]
  | .null _ => [word .null]
  | .ident i => [name i]
  | .unary op operand _ =>
    sym op.symbol :: parens (operand.isLooserThan .unary) (operand.pieces level)
  | .binary op left right _ =>
    parens (left.isLooserThan op.precedence) (left.pieces level) ++
      (space :: sym op.symbol :: space ::
        parens (right.isLooserThan op.precedence.tighter) (right.pieces level))
  | .call callee arguments _ =>
    parens callee.needsGrouping (callee.pieces level) ++
      (sym .leftParen :: (Expr.listPieces level arguments ++ [sym .rightParen]))
  | .member object property _ =>
    parens object.needsGrouping (object.pieces level) ++
      [sym .dot, tok (.ofName property.name)]
  | .func f => f.pieces level
  | .defer bindings _ =>
    word .defer :: sym .leftParen :: (names bindings ++ [sym .rightParen])

/-- Expressions with commas between them. -/
def Expr.listPieces (level : Nat) : List Expr → List Piece
  | [] => []
  | [e] => e.pieces level
  | e :: es => e.pieces level ++ (sym .comma :: space :: Expr.listPieces level es)

end

/-! ## Text -/

namespace Expr

def print (e : Expr) : String := render (e.pieces 0)

end Expr

namespace Statement

def print (s : Statement) : String := render (s.linePieces 0)

end Statement

namespace Block

/-- The statements of a block, each on a line of its own, without the braces. -/
def print (b : Block) : String := render (Statement.listPieces 0 b.statements)

end Block

namespace Func

def print (f : Func) : String := render (f.pieces 0)

end Func

namespace Module

/-- Functions with an empty line between them. -/
def listPieces : List Func → List Piece
  | [] => []
  | [f] => f.pieces 0 ++ [newline]
  | f :: fs => f.pieces 0 ++ (newline :: newline :: listPieces fs)

def pieces (m : Module) : List Piece := listPieces m.functions

def print (m : Module) : String := render m.pieces

end Module
end WaitDefer
