import WaitDefer.Token

/-! Splitting a text into words. A text is cut into lexemes from left to right; at each point the
longest lexeme that can stand there is taken. Blanks and comments are lexemes too, so the lexemes
of a text are all of it. -/
namespace WaitDefer

/-- Why a stretch of text is no word of the language. -/
inductive LexFault
  | unexpectedCharacter (c : Char)
  | unterminatedString
  | invalidNumber (text : String)
  deriving DecidableEq, Repr, Inhabited

/-- A stretch of text that is no word of the language. -/
structure LexError where
  fault : LexFault
  span : Span
  deriving DecidableEq, Repr, Inhabited

namespace LexError

def message (e : LexError) : String :=
  match e.fault with
  | .unexpectedCharacter c => "Unexpected character '" ++ c.toString ++ "' at " ++ e.span.place
  | .unterminatedString => "Unterminated string at " ++ e.span.place
  | .invalidNumber text => "Invalid number '" ++ text ++ "' at " ++ e.span.place

end LexError

/-- What one stretch of text is. -/
inductive Lexeme
  | trivia
  | token (t : Token)
  | fault (f : LexFault)
  deriving DecidableEq, Repr, Inhabited

namespace Lexer

/-! ## Character classes -/

def isBlank (c : Char) : Bool := c == ' ' || c == '\t' || c == '\r' || c == '\n'

def isIdentStart (c : Char) : Bool := c.isAlpha || c == '_' || c == '$'

def isIdentPart (c : Char) : Bool := isIdentStart c || c.isDigit

def isHexDigit (c : Char) : Bool :=
  c.isDigit || ('a' ≤ c && c ≤ 'f') || ('A' ≤ c && c ≤ 'F')

/-- A name is a letter, underscore or dollar sign, then these and digits. -/
def isIdentifier (s : String) : Bool :=
  match s.toList with
  | [] => false
  | c :: cs => isIdentStart c && cs.all isIdentPart

/-! ## How far a lexeme reaches

Each of these counts the characters after the part that is already known. -/

/-- Digits after a first digit. An underscore may stand between two digits. -/
def digitRun (isDigit : Char → Bool) : List Char → Nat
  | [] => 0
  | c :: cs =>
    if isDigit c then digitRun isDigit cs + 1
    else if c == '_' && (cs.head?.any isDigit) then digitRun isDigit cs + 1
    else 0

/-- The rest of a block comment, through its closing mark or to the end of the text. -/
def commentRun : List Char → Nat
  | [] => 0
  | c :: cs => if c == '*' && cs.head? == some '/' then 2 else commentRun cs + 1

/-- The rest of a string after its opening quote, and whether the closing quote was found. A
backslash takes the next character with it, unless that is a line feed. -/
def stringRun (quote : Char) : List Char → Nat × Bool
  | [] => (0, false)
  | '\\' :: d :: cs =>
    if d == '\n' then (0, false)
    else
      let r := stringRun quote cs
      (r.1 + 2, r.2)
  | c :: cs =>
    if c == quote then (1, true)
    else if c == '\\' then (0, false)
    else
      let r := stringRun quote cs
      (r.1 + 1, r.2)

/-! ## Values of literals -/

def digitValue (c : Char) : Nat :=
  if c.isDigit then c.toNat - '0'.toNat
  else if 'a' ≤ c && c ≤ 'f' then c.toNat - 'a'.toNat + 10
  else c.toNat - 'A'.toNat + 10

/-- Value of a run of digits; underscores do not count. -/
def numeral (base : Nat) (digits : List Char) : Nat :=
  (digits.filter (· != '_')).foldl (fun n c => n * base + digitValue c) 0

/-- Integer literals are below this bound. -/
def intBound : Nat := 0x8000000000000000

/-- The lexeme of a number with the given spelling and value. -/
def number (spelling : List Char) (value : Nat) : Lexeme :=
  if value < intBound then .token (.int value)
  else .fault (.invalidNumber (String.ofList spelling))

/-- The character a backslash and `c` stand for. -/
def escaped (c : Char) : Char :=
  match c with
  | 'n' => '\n'
  | 'r' => '\r'
  | 't' => '\t'
  | '0' => '\x00'
  | c => c

/-- The characters that the inside of a string literal stands for. -/
def unescape : List Char → List Char
  | [] => []
  | '\\' :: d :: cs => escaped d :: unescape cs
  | c :: cs => if c == '\\' then [] else c :: unescape cs

/-! ## The lexeme at the front of a text -/

/-- A number that starts with the digit `c`. -/
def frontNumber (c : Char) (cs : List Char) : Lexeme × Nat :=
  match c, cs with
  | '0', 'x' :: d :: ds =>
    if isHexDigit d then
      let n := digitRun isHexDigit ds
      let digits := d :: ds.take n
      (number (c :: 'x' :: digits) (numeral 16 digits), n + 2)
    else
      (number [c] 0, 0)
  | _, _ =>
    let n := digitRun Char.isDigit cs
    let digits := c :: cs.take n
    (number digits (numeral 10 digits), n)

/-- A string that starts with the quote `c`. -/
def frontString (c : Char) (cs : List Char) : Lexeme × Nat :=
  let r := stringRun c cs
  if r.2 then (.token (.str (String.ofList (unescape (cs.take (r.1 - 1))))), r.1)
  else (.fault .unterminatedString, r.1)

/-- An operator or punctuation that starts with `c`. -/
def frontSymbol (c : Char) (cs : List Char) : Lexeme × Nat :=
  match cs.head?.bind (Symbol.ofPair? c) with
  | some s => (.token (.sym s), 1)
  | none =>
    match Symbol.ofChar? c with
    | some s => (.token (.sym s), 0)
    | none => (.fault (.unexpectedCharacter c), 0)

/-- The lexeme at the front of the text `c :: cs`, and how many characters of `cs` it takes. -/
def front (c : Char) (cs : List Char) : Lexeme × Nat :=
  if isBlank c then (.trivia, (cs.takeWhile isBlank).length)
  else if c == '/' && cs.head? == some '/' then (.trivia, (cs.takeWhile (· != '\n')).length)
  else if c == '/' && cs.head? == some '*' then (.trivia, commentRun cs.tail + 1)
  else if isIdentStart c then
    let tail := cs.takeWhile isIdentPart
    (.token (.ofName (String.ofList (c :: tail))), tail.length)
  else if c.isDigit then frontNumber c cs
  else if c == '"' || c == '\'' then frontString c cs
  else frontSymbol c cs

/-! ## The whole text -/

/-- The lexemes of `text`, which starts at `p`, after those already found (latest first). -/
def scan (p : Position) (text : List Char) (found : List (Lexeme × Span)) :
    List (Lexeme × Span) :=
  match text with
  | [] => found.reverse
  | c :: cs =>
    let lexeme := front c cs
    let q := p.after (c :: cs.take lexeme.2)
    scan q (cs.drop lexeme.2) ((lexeme.1, Span.between p q) :: found)
termination_by text.length
decreasing_by exact Nat.lt_succ_of_le (by rw [List.length_drop]; exact Nat.sub_le ..)

/-- All lexemes of a text, in order. -/
def lexemes (text : List Char) : List (Lexeme × Span) := scan .start text []

/-- The end of a text, as a token. -/
def endOf (text : List Char) : Located :=
  let p := Position.start.after text
  ⟨.eof, .between p p⟩

def token? : Lexeme × Span → Option Located
  | (.token t, span) => some ⟨t, span⟩
  | _ => none

def error? : Lexeme × Span → Option LexError
  | (.fault f, span) => some ⟨f, span⟩
  | _ => none

/-- The tokens of a text without its end, or everything in it that is no token. -/
def words (source : String) : Except (List LexError) (List Located) :=
  let found := lexemes source.toList
  match found.filterMap error? with
  | [] => .ok (found.filterMap token?)
  | errors => .error errors

/-- The tokens of a text, its end last. -/
def tokenize (source : String) : Except (List LexError) (List Located) :=
  (words source).map (· ++ [endOf source.toList])

end Lexer
end WaitDefer
