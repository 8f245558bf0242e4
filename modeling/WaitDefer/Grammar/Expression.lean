import WaitDefer.Grammar.Parser
import WaitDefer.Grammar.Precedence

/-! Reading expressions. A chain of binary operators is read by climbing the levels of binding;
operators of one level group to the left. Whatever nests (an expression in parentheses, an
argument, the operand of a unary operator, a statement of a function's body) is read one level
deeper, by parsers that are given for that level. -/
namespace WaitDefer

/-- The parsers for what lies one level deeper. -/
structure Deeper where
  expression : Parser Expr
  unary : Parser Expr
  statement : Parser Statement

namespace Parser

/-! ## Blocks and functions -/

/-- Statements up to one of the tokens `ends` or the end of the text. An error inside a statement
is recorded and the reading goes on at the next boundary; each round passes a token. Only so many
rounds are allowed. -/
def statements (d : Deeper) (ends : List Token) : Nat → List Statement → Parser (List Statement)
  | n, done => do
    if ← look fun c => c.atEnd || ends.any c.sees then
      return done.reverse
    else match n with
      | 0 => throw (Limit.tooManyRounds "block" Limit.rounds (← look (·.span)))
      | n + 1 =>
        let start ← look (·.pos)
        match ← attempt d.statement with
        | .ok s => statements d ends n (s :: done)
        | .error e =>
          move (·.record e)
          move (·.toStatementBoundary)
          if (← look (·.pos)) == start then move (·.advance)
          statements d ends n done

/-- Statements between braces. -/
def block (d : Deeper) : Parser Block := do
  let start ← look (·.span)
  let _ ← expect (.sym .leftBrace)
  let id ← freshId
  let ss ← statements d [.sym .rightBrace] Limit.rounds []
  let _ ← expect (.sym .rightBrace)
  return ⟨id, ss, ← look (·.spanFrom start)⟩

/-- A function. Only where `named` is false may it have no name. -/
def function (d : Deeper) (named : Bool) : Parser Func := do
  let start ← look (·.span)
  let _ ← expect (.word .function)
  let id ← freshId
  let name ← ident?
  if named && name.isNone then
    suggesting "function declarations need a name" (unexpected [anyName])
  let _ ← expect (.sym .leftParen)
  let params ← untilParen ident
  let body ← block d
  return ⟨id, name, params, body, start.through body.span⟩

/-! ## Operands -/

/-- A literal, a name, a function, a deferral, or an expression in parentheses. -/
def primary (d : Deeper) : Parser Expr := do
  let start ← look (·.span)
  match ← look (·.token) with
  | .int value =>
    let _ ← advance
    return .int value start
  | .str value =>
    let _ ← advance
    return .str value start
  | .word .true =>
    let _ ← advance
    return .bool true start
  | .word .false =>
    let _ ← advance
    return .bool false start
  | .word .null =>
    let _ ← advance
    return .null start
  | .ident name =>
    let _ ← advance
    return .ident ⟨name, start⟩
  | .sym .leftParen =>
    let _ ← advance
    let inner ← d.expression
    let _ ← expect (.sym .rightParen)
    return inner
  | .word .function => return .func (← function d false)
  | .word .defer =>
    let _ ← advance
    let _ ← expect (.sym .leftParen)
    let bindings ← untilParen (suggesting "defer() binds plain identifiers only" ident)
    return .defer bindings (← look (·.spanFrom start))
  | _ => unexpected [anyName, .int 0, .str "", .sym .leftParen]

/-- Calls and member accesses after an operand; `n` bounds their number. -/
def suffixes (d : Deeper) : Nat → Expr → Parser Expr
  | 0, e => return e
  | n + 1, e => do
    match ← look (·.token) with
    | .sym .leftParen =>
      let _ ← advance
      let arguments ← untilParen d.expression
      suffixes d n (.call e arguments (← look (·.spanFrom e.span)))
    | .sym .dot =>
      let _ ← advance
      let property ← property
      suffixes d n (.member e property (e.span.through property.span))
    | _ => return e

/-- The unary operator a token stands for. -/
def unaryOp? : Token → Option UnaryOp
  | .sym .bang => some .not
  | .sym .minus => some .minus
  | _ => none

/-- An operand with its calls and member accesses, after any unary operators. -/
def unary (d : Deeper) : Parser Expr := do
  let start ← look (·.span)
  match unaryOp? (← look (·.token)) with
  | some op =>
    let _ ← advance
    let operand ← nested "unary" d.unary
    return .unary op operand (start.through operand.span)
  | none =>
    let e ← primary d
    suffixes d (← look (·.tokens.size)) e

/-! ## Binary operators -/

/-- The operator at the cursor, if it binds at least as tightly as `least`. -/
def operator? (least : Precedence) (t : Token) : Option BinaryOp :=
  match t.binaryOp? with
  | some op => if op.precedence.rank < least.rank then none else some op
  | none => none

/-- Goes on with operators at `least` or tighter after a left operand; `right` reads what follows
an operator and `n` bounds their number. -/
def operators (right : Precedence → Parser Expr) (least : Precedence) : Nat → Expr → Parser Expr
  | 0, left => return left
  | n + 1, left => do
    match operator? least (← look (·.token)) with
    | some op =>
      let _ ← advance
      let operand ← right op.precedence.tighter
      operators right least n (.binary op left operand (left.span.through operand.span))
    | none => return left

/-- An expression of operators at `least` or tighter. `levels` counts the levels that are left to
climb. -/
def climb (d : Deeper) : Nat → Precedence → Parser Expr
  | 0, _ => unary d
  | levels + 1, least => do
    let left ← unary d
    operators (climb d levels) least (← look (·.tokens.size)) left

/-- A whole expression, without going a level deeper for it. -/
def binary (d : Deeper) : Parser Expr := climb d Precedence.unary.rank .logicalOr

end Parser
end WaitDefer
