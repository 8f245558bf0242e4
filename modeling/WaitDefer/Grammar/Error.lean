import WaitDefer.Token.Lexer

/-! What can be wrong with the form of a program. -/
namespace WaitDefer

/-- The cause of a syntax error. -/
inductive SyntaxFault
  | unexpectedToken (expected : List Token) (found : Token)
  | unexpectedEnd (expected : List Token)
  | malformed (reason : String)
  | badTarget
  | lexical (error : LexError)
  | limitExceeded (reason : String)
  deriving DecidableEq, Repr, Inhabited

/-- A syntax error: its cause, where it was met, and how it might be mended. -/
structure SyntaxError where
  fault : SyntaxFault
  span : Span
  suggestion : Option String
  deriving DecidableEq, Repr, Inhabited

namespace SyntaxFault

/-- The tokens that would have been right, in words. -/
def describe (expected : List Token) : String :=
  match expected.map fun t => "'" ++ t.text ++ "'" with
  | [] => "a token"
  | [t] => t
  | ts => "one of " ++ ", ".intercalate ts

def message : SyntaxFault → String
  | unexpectedToken expected found =>
    "Expected " ++ describe expected ++ ", found '" ++ found.text ++ "'"
  | unexpectedEnd expected => "Unexpected end of file, expected " ++ describe expected
  | malformed reason => "Invalid syntax: " ++ reason
  | badTarget => "Invalid assignment target"
  | lexical error => error.message
  | limitExceeded reason => "Parser limit exceeded: " ++ reason

end SyntaxFault

namespace SyntaxError

def message (e : SyntaxError) : String := e.fault.message

/-- The error as a line of text with its place, and a second line for the suggestion. -/
def display (e : SyntaxError) : String :=
  let line := "Parse error at " ++ e.span.place ++ ": " ++ e.message
  match e.suggestion with
  | some s => line ++ "\n  Suggestion: " ++ s
  | none => line

def suggest (e : SyntaxError) (suggestion : String) : SyntaxError :=
  { e with suggestion := some suggestion }

def malformed (reason : String) (span : Span) : SyntaxError :=
  ⟨.malformed reason, span, none⟩

def limitExceeded (reason : String) (span : Span) : SyntaxError :=
  ⟨.limitExceeded reason, span, none⟩

/-- The left side of an assignment is no place to assign to. -/
def badTarget (span : Span) : SyntaxError :=
  ⟨.badTarget, span, some "only identifiers and member accesses can be assigned"⟩

/-- A text that has no tokens has no form either. -/
def ofLexError (e : LexError) : SyntaxError := ⟨.lexical e, e.span, none⟩

end SyntaxError
end WaitDefer
