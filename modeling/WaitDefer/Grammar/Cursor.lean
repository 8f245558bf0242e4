import WaitDefer.Grammar.Error
import WaitDefer.Tree.Ids

/-! Reading a list of tokens: the place reached, the errors met on the way, the ids handed out and
how deep the reading is nested. The last token is never passed. -/
namespace WaitDefer

/-! ## Limits -/

namespace Limit

/-- Statements and expressions may nest this deep. -/
def nesting : Nat := 64

/-- A block or a switch may have this many entries. -/
def rounds : Nat := 100000

/-- The error of text that nests deeper than the limit. -/
def tooDeep (name : String) (span : Span) : SyntaxError :=
  .limitExceeded ("Maximum nesting depth (" ++ toString nesting ++ ") exceeded in " ++ name) span

/-- One more level of nesting, unless the limit is reached. -/
def enter (name : String) (span : Span) (depth : Nat) : Except SyntaxError Nat :=
  if nesting ≤ depth then .error (tooDeep name span) else .ok (depth + 1)

/-- The error of a list that goes on after `max` entries. -/
def tooManyRounds (name : String) (max : Nat) (span : Span) : SyntaxError :=
  .limitExceeded ("Loop '" ++ name ++ "' exceeded " ++ toString max ++ " iterations") span

/-- Takes one of the rounds that are left. -/
def spend (name : String) (max : Nat) (span : Span) : Nat → Except SyntaxError Nat
  | 0 => .error (tooManyRounds name max span)
  | left + 1 => .ok left

end Limit

/-- A place in a list of tokens, with what has been gathered up to it. -/
structure Cursor where
  tokens : Array Located
  pos : Nat
  inBounds : pos < tokens.size
  /-- Errors that did not stop the reading, latest first. -/
  recorded : List SyntaxError
  ids : IdSupply
  depth : Nat

namespace Cursor

/-- The first of some tokens and a last one. -/
def onTokens (words : List Located) (last : Located) : Cursor where
  tokens := (words ++ [last]).toArray
  pos := 0
  inBounds := by simp
  recorded := []
  ids := .fromZero
  depth := 0

/-- The first token of a text. -/
def ofSource (source : String) : Except (List LexError) Cursor :=
  (Lexer.words source).map (onTokens · (Lexer.endOf source.toList))

/-- The tokens that have not been passed. -/
def rest (c : Cursor) : List Located := c.tokens.toList.drop c.pos

def here (c : Cursor) : Located :=
  have := c.inBounds
  c.tokens[c.pos]

def token (c : Cursor) : Token := c.here.token

def span (c : Cursor) : Span := c.here.span

/-- The token after this one. -/
def peek? (c : Cursor) : Option Token := c.tokens[c.pos + 1]?.map Located.token

/-- The span of the token passed last; at the start that of the first one. -/
def previousSpan (c : Cursor) : Span :=
  match c.tokens[c.pos - 1]? with
  | some t => t.span
  | none => c.span

/-- From the start of a span to the token passed last. -/
def spanFrom (c : Cursor) (start : Span) : Span := start.through c.previousSpan

/-- The next token becomes the present one, if there is a next. -/
def advance (c : Cursor) : Cursor :=
  if h : c.pos + 1 < c.tokens.size then { c with pos := c.pos + 1, inBounds := h } else c

/-- The present token is of the kind of `t`. -/
def sees (c : Cursor) (t : Token) : Bool := c.token.sameKind t

def atEnd (c : Cursor) : Bool := c.token == .eof

/-- What was found is not what was expected. -/
def unexpected (c : Cursor) (expected : List Token) : SyntaxError :=
  if c.atEnd then ⟨.unexpectedEnd expected, c.span, none⟩
  else ⟨.unexpectedToken expected c.token, c.span, none⟩

def record (c : Cursor) (e : SyntaxError) : Cursor := { c with recorded := e :: c.recorded }

/-- The errors recorded, in the order they were met. -/
def errors (c : Cursor) : List SyntaxError := c.recorded.reverse

def leave (c : Cursor) : Cursor := { c with depth := c.depth - 1 }

/-! ## Going on after an error -/

/-- Passes tokens, at most `n` of them, as long as `skip` holds. -/
def skipWhile (skip : Token → Bool) : Nat → Cursor → Cursor
  | 0, c => c
  | n + 1, c => if skip c.token then skipWhile skip n c.advance else c

/-- A token inside a statement: it neither ends one nor begins one. -/
def isInsideStatement (t : Token) : Bool :=
  !(t == .eof || t.startsStatement || t == .sym .semicolon || t == .sym .rightBrace)

/-- To the next place where a statement may begin. -/
def toStatementBoundary (c : Cursor) : Cursor :=
  let c := c.skipWhile isInsideStatement c.tokens.size
  if c.token == .sym .semicolon then c.advance else c

/-- To the next `function`, past the present token. -/
def toFunction (c : Cursor) : Cursor :=
  c.advance.skipWhile (fun t => !(t == .eof || t == .word .function)) c.tokens.size

end Cursor
end WaitDefer
