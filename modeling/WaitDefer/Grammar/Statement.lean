import WaitDefer.Grammar.Expression

/-! Reading statements, and the whole grammar. -/
namespace WaitDefer
namespace Parser

/-- A declaration, assignment or expression without its semicolon. -/
def simple (d : Deeper) (declarations : Bool) : Parser Statement := do
  let start ← look (·.span)
  if ← look (·.sees (.word .let)) then
    if !declarations then
      throw (.malformed "declaration not allowed here" start)
    let _ ← advance
    let id ← freshId
    let name ← ident
    let init ← if ← eat (.sym .equal) then some <$> d.expression else pure none
    return ⟨id, .declare name init, ← look (·.spanFrom start)⟩
  else
    let id ← freshId
    let target ← d.expression
    if ← eat (.sym .equal) then
      if !target.isAssignable then
        throw (.badTarget target.span)
      let value ← d.expression
      return ⟨id, .assign target value, ← look (·.spanFrom start)⟩
    else
      return ⟨id, .expr target, ← look (·.spanFrom start)⟩

/-- An expression between parentheses. -/
def condition (d : Deeper) : Parser Expr := do
  let _ ← expect (.sym .leftParen)
  let e ← d.expression
  let _ ← expect (.sym .rightParen)
  return e

/-- `if`. An `if` right after an `else` is the only statement of a block of its own. -/
def branch (d : Deeper) : Parser Statement := do
  let start ← look (·.span)
  let _ ← expect (.word .if)
  let id ← freshId
  let test ← condition d
  let yes ← block d
  let no ←
    if ← eat (.word .else) then
      if ← look (·.sees (.word .if)) then
        let blockId ← freshId
        let s ← d.statement
        pure (some ⟨blockId, [s], s.span⟩)
      else
        some <$> block d
    else
      pure none
  return ⟨id, .branch test yes no, ← look (·.spanFrom start)⟩

/-- The tokens that end an arm of a switch. -/
def armEnds : List Token := [.word .case, .word .default, .sym .rightBrace]

/-- The arms of a switch, up to its closing brace; a second arm for all other values is an
error. -/
def arms (d : Deeper) : Nat → List Arm → Option Block → Parser (List Arm × Option Block)
  | n, done, otherwise => do
    if ← look fun c => c.sees (.sym .rightBrace) || c.atEnd then
      return (done.reverse, otherwise)
    else match n with
      | 0 => throw (Limit.tooManyRounds "switch" Limit.rounds (← look (·.span)))
      | n + 1 =>
        let start ← look (·.span)
        if ← eat (.word .case) then
          let test ← d.expression
          let _ ← expect (.sym .colon)
          let blockId ← freshId
          let ss ← statements d armEnds Limit.rounds []
          let span ← look (·.spanFrom start)
          arms d n (⟨test, ⟨blockId, ss, span⟩, span⟩ :: done) otherwise
        else if ← eat (.word .default) then
          let _ ← expect (.sym .colon)
          let blockId ← freshId
          let ss ← statements d armEnds Limit.rounds []
          if otherwise.isSome then
            throw (.malformed "switch has more than one default arm" start)
          arms d n done (some ⟨blockId, ss, ← look (·.spanFrom start)⟩)
        else
          unexpected armEnds

def switch (d : Deeper) : Parser Statement := do
  let start ← look (·.span)
  let _ ← expect (.word .switch)
  let id ← freshId
  let subject ← condition d
  let _ ← expect (.sym .leftBrace)
  let r ← arms d Limit.rounds [] none
  let _ ← expect (.sym .rightBrace)
  return ⟨id, .switch subject r.1 r.2, ← look (·.spanFrom start)⟩

/-- Something, unless the token `t` stands in its place. -/
def unlessAt (t : Token) (p : Parser α) : Parser (Option α) := do
  if ← look (·.sees t) then return none else some <$> p

/-- What follows the first word of a loop: its head and its body. -/
def headAndBody (d : Deeper) (first : Token) : Parser (LoopHead × Block) := do
  match first with
  | .word .while =>
    let test ← condition d
    return (.whileDo test, ← block d)
  | .word .do =>
    let body ← block d
    let _ ← expect (.word .while)
    let test ← condition d
    let _ ← expect (.sym .semicolon)
    return (.doWhile test, body)
  | _ =>
    let _ ← expect (.sym .leftParen)
    let init ← unlessAt (.sym .semicolon) (simple d true)
    let _ ← expect (.sym .semicolon)
    let test ← unlessAt (.sym .semicolon) d.expression
    let _ ← expect (.sym .semicolon)
    let update ← unlessAt (.sym .rightParen) (simple d false)
    let _ ← expect (.sym .rightParen)
    return (.counting init test update, ← block d)

/-- A loop whose label, if any, is already passed; it starts at `start`. -/
def loop (d : Deeper) (label : Option Ident) (start : Span) : Parser Statement := do
  let first ← advance
  let id ← freshId
  let r ← headAndBody d first
  return ⟨id, .loop label r.1 r.2, ← look (·.spanFrom start)⟩

/-- A token that begins a loop. -/
def startsLoop : Token → Bool
  | .word .while | .word .do | .word .for => true
  | _ => false

def jump (kind : JumpKind) : Parser Statement := do
  let start ← look (·.span)
  let _ ← advance
  let id ← freshId
  let label ← ident?
  let _ ← expect (.sym .semicolon)
  return ⟨id, .jump kind label, ← look (·.spanFrom start)⟩

/-- A loop after its label. -/
def labelled (d : Deeper) : Parser Statement := do
  let start ← look (·.span)
  let label ← ident
  let _ ← expect (.sym .colon)
  if startsLoop (← look (·.token)) then
    loop d (some label) start
  else
    throw (.malformed ("label '" ++ label.name ++ "' must precede a loop") label.span)

/-- A simple statement and its semicolon. -/
def simpleLine (d : Deeper) : Parser Statement := do
  let start ← look (·.span)
  let s ← simple d true
  let _ ← expect (.sym .semicolon)
  return { s with span := ← look (·.spanFrom start) }

/-- Any statement, without going a level deeper for it. -/
def statement (d : Deeper) : Parser Statement := do
  let start ← look (·.span)
  match ← look (·.token) with
  | .word .function =>
    let id ← freshId
    let f ← function d true
    return ⟨id, .func f, f.span⟩
  | .word .if => branch d
  | .word .switch => switch d
  | .word .while | .word .do | .word .for => loop d none start
  | .ident _ =>
    if (← look (·.peek?)) == some (.sym .colon) then labelled d else simpleLine d
  | .word .break => jump .leave
  | .word .continue => jump .resume
  | .word .return =>
    let _ ← advance
    let id ← freshId
    let value ← unlessAt (.sym .semicolon) d.expression
    let _ ← expect (.sym .semicolon)
    return ⟨id, .ret value, ← look (·.spanFrom start)⟩
  | .word .wait =>
    let _ ← advance
    let id ← freshId
    let body ← block d
    return ⟨id, .wait body, ← look (·.spanFrom start)⟩
  | .sym .leftBrace =>
    let id ← freshId
    let body ← block d
    return ⟨id, .block body, body.span⟩
  | _ => simpleLine d

end Parser

/-! ## Nesting -/

namespace Deeper

/-- No room for another level. -/
def none : Deeper where
  expression := Parser.noRoom "expression"
  unary := Parser.noRoom "unary"
  statement := Parser.noRoom "statement"

/-- The parsers with room for `n` more levels. -/
def levels : Nat → Deeper
  | 0 => none
  | n + 1 =>
    let d := levels n
    { expression := Parser.nested "expression" (Parser.binary d)
      unary := Parser.unary d
      statement := Parser.nested "statement" (Parser.statement d) }

/-- The parsers for a text that is not nested in another. -/
def all : Deeper := levels Limit.nesting

end Deeper

namespace Parser

/-- An expression. -/
def expression : Parser Expr := Deeper.all.expression

/-- The functions of a text, to its end. An error is recorded and the reading goes on at the next
function; `n` bounds their number. -/
def functions : Nat → List Func → Parser (List Func)
  | 0, done => return done.reverse
  | n + 1, done => do
    if ← look (·.atEnd) then
      return done.reverse
    else
      match ← attempt (function Deeper.all true) with
      | .ok f => functions n (f :: done)
      | .error e =>
        move (·.record e)
        move (·.toFunction)
        functions n done

/-- A module, or all errors that were met. -/
def wholeModule (c : Cursor) : Except (List SyntaxError) Module :=
  match functions c.tokens.size [] c with
  | (.ok fs, d) =>
    match d.errors with
    | [] =>
      match fs.getLast? with
      | some last => .ok ⟨fs, c.span.through last.span⟩
      | none => .ok ⟨[], c.span⟩
    | errors => .error errors
  | (.error e, d) => .error (d.errors ++ [e])

end Parser

namespace Module

/-- The module a text stands for, or everything that is wrong with the text. -/
def parse (source : String) : Except (List SyntaxError) Module :=
  match Cursor.ofSource source with
  | .ok c => Parser.wholeModule c
  | .error errors => .error (errors.map .ofLexError)

end Module
end WaitDefer
