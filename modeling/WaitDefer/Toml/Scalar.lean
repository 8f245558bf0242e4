import WaitDefer.Json.Reader

/-! Reading the scalars of TOML: strings, numbers, truth values, dates and times. -/
namespace WaitDefer.Toml

/-- Reads something at the front of a text and leaves the rest. -/
abbrev Reader := StateT (List Char) Option

namespace Reader

/-- The next character, which has to be of a class. -/
def one (p : Char → Bool) : Reader Char := fun
  | c :: cs => if p c then some (c, cs) else none
  | [] => none

def char (c : Char) : Reader Unit := do
  let _ ← one (· == c)

def word (w : String) : Reader Unit := w.toList.forM char

/-- All next characters of a class. -/
def run (p : Char → Bool) : Reader (List Char) := fun text =>
  some (text.takeWhile p, text.dropWhile p)

/-- So many characters of a class. -/
def exactly (n : Nat) (p : Char → Bool) : Reader (List Char) := (List.range n).mapM fun _ => one p

/-- What a reader gives when it is applied as often as it succeeds, but at most so many times. -/
def atMost (r : Reader (List α)) : Nat → Reader (List α)
  | 0 => pure []
  | n + 1 => (do
      let xs ← r
      let rest ← atMost r n
      return xs ++ rest) <|> pure []

/-- What a reader that takes at least one character gives when it is applied as often as it
succeeds. -/
def star (r : Reader (List α)) : Reader (List α) := fun text => atMost r text.length text

/-- The text that a reader takes. -/
def written (r : Reader α) : Reader String := fun text => do
  let (_, rest) ← r text
  some (String.ofList (text.take (text.length - rest.length)), rest)

def atEnd : Reader Unit := fun text => if text.isEmpty then some ((), text) else none

end Reader

open Reader

/-! ## Characters -/

def isBlank (c : Char) : Bool := c == ' ' || c == '\t'

/-- A character that is not for control; a tab may stand wherever one of these may. -/
def isPlain (c : Char) : Bool := c == '\t' || (0x20 ≤ c.toNat && c.toNat != 0x7F)

def isHexDigit (c : Char) : Bool := (Json.hexValue? c).isSome

def blanks : Reader Unit := do
  let _ ← run isBlank

def newline : Reader Unit := fun
  | '\n' :: cs | '\r' :: '\n' :: cs => some ((), cs)
  | _ => none

def comment : Reader Unit := do
  char '#'
  let _ ← run isPlain

/-- The number that digits of a base write. -/
def numeral (base : Nat) (digits : List Char) : Nat :=
  digits.foldl (fun n c => n * base + (Json.hexValue? c).getD 0) 0

/-! ## Strings -/

/-- A character given by the number of so many hexadecimal digits. -/
def codePoint (size : Nat) : Reader Char := do
  let n := numeral 16 (← exactly size isHexDigit)
  guard n.isValidChar
  return Char.ofNat n

/-- What a backslash starts. -/
def escape : Reader Char := do
  char '\\'
  match ← one fun _ => true with
  | 'b' => return '\x08'
  | 't' => return '\t'
  | 'n' => return '\n'
  | 'f' => return '\x0c'
  | 'r' => return '\r'
  | '"' => return '"'
  | '\\' => return '\\'
  | 'u' => codePoint 4
  | 'U' => codePoint 8
  | _ => failure

def basicString : Reader String := do
  char '"'
  let cs ← star do
    let c ← one (fun c => isPlain c && c != '"' && c != '\\') <|> escape
    return [c]
  char '"'
  return String.ofList cs

def literalString : Reader String := do
  char '\''
  let cs ← run fun c => isPlain c && c != '\''
  char '\''
  return String.ofList cs

/-- One or two quotes in a string of several lines: what follows them is no quote. -/
def innerQuotes (quote : Char) : Reader (List Char) := do
  let quotes ← run (· == quote)
  guard (0 < quotes.length ∧ quotes.length < 3)
  return quotes

/-- The end of a string of several lines: three quotes, and before them up to two that belong to
the string. -/
def closingQuotes (quote : Char) : Reader (List Char) := do
  let quotes ← run (· == quote)
  guard (3 ≤ quotes.length ∧ quotes.length ≤ 5)
  return quotes.drop 3

/-- A backslash at the end of a line: it takes away the blanks and newlines up to the next other
character. -/
def lineContinuation : Reader Unit := do
  char '\\'
  blanks
  newline
  let _ ← star do
    (do let _ ← one isBlank) <|> newline
    return [()]

/-- A string of several lines between three quotes; a newline right after the opening ones does not
belong to it. -/
def longString (quote : Char) (item : Reader (List Char)) : Reader String := do
  word (String.ofList [quote, quote, quote])
  let _ ← optional newline
  let cs ← star (item <|> (do newline; return ['\n']) <|> innerQuotes quote)
  return String.ofList (cs ++ (← closingQuotes quote))

def longBasicString : Reader String := longString '"' <|
  (do return [← one fun c => isPlain c && c != '"' && c != '\\'])
    <|> (do lineContinuation; return [])
    <|> (do return [← escape])

def longLiteralString : Reader String := longString '\'' do
  return [← one fun c => isPlain c && c != '\'']

def string : Reader String := fun
  | '"' :: '"' :: '"' :: cs => longBasicString ('"' :: '"' :: '"' :: cs)
  | '\'' :: '\'' :: '\'' :: cs => longLiteralString ('\'' :: '\'' :: '\'' :: cs)
  | '"' :: cs => basicString ('"' :: cs)
  | text => literalString text

/-! ## Numbers -/

/-- Digits of a base, with single underscores between them. -/
def digits (p : Char → Bool) : Reader (List Char) := do
  let d ← one p
  let ds ← star do
    let _ ← optional (char '_')
    return [← one p]
  return d :: ds

/-- Decimal digits that do not start with a zero, or a zero alone. -/
def wholeDigits : Reader (List Char) := fun
  | '0' :: cs => some (['0'], cs)
  | text => digits Char.isDigit text

/-- The sign of a number, if it has one: true for a minus. -/
def sign : Reader Bool := fun
  | '-' :: cs => some (true, cs)
  | '+' :: cs => some (false, cs)
  | text => some (false, text)

/-- A number that 64 bits can hold, with its sign. -/
def checked (n : Int) : Reader Json := do
  guard (-0x8000000000000000 ≤ n ∧ n < 0x8000000000000000)
  return .int n

def baseInteger (base : Nat) (p : Char → Bool) : Reader Json := do
  checked (numeral base (← digits p))

def decimalInteger : Reader Json := do
  let minus ← sign
  let n := numeral 10 (← wholeDigits)
  checked (if minus then -(n : Int) else n)

def integer : Reader Json := fun
  | '0' :: 'x' :: cs => baseInteger 16 isHexDigit cs
  | '0' :: 'o' :: cs => baseInteger 8 (fun c => '0' ≤ c && c ≤ '7') cs
  | '0' :: 'b' :: cs => baseInteger 2 (fun c => c == '0' || c == '1') cs
  | text => decimalInteger text

def exponent : Reader Int := do
  let _ ← one fun c => c == 'e' || c == 'E'
  let minus ← sign
  let n := numeral 10 (← digits Char.isDigit)
  return if minus then -(n : Int) else n

/-- The least number that is nearer to infinity than to any number of double precision. -/
def beyondDouble : Nat := Nat.pow 2 1024 - Nat.pow 2 970

/-- `n` times ten to the power of `scale` is too large for double precision. The number of digits
settles all but a few cases. -/
def isTooLarge (n : Nat) (scale : Int) : Bool :=
  let size : Int := (Nat.toDigits 10 n).length + scale
  if n = 0 || size ≤ 308 then false
  else if 310 ≤ size then true
  else beyondDouble * Nat.pow 10 (-scale).toNat ≤ n * Nat.pow 10 scale.toNat

/-- A number with a fraction or an exponent. A negative one may be of any size. -/
def float : Reader Unit := do
  let minus ← sign
  let whole ← wholeDigits
  let (frac, exp) ← (do return ([], ← exponent)) <|> (do
    char '.'
    let frac ← digits Char.isDigit
    return (frac, (← optional exponent).getD 0))
  guard (minus || !isTooLarge (numeral 10 (whole ++ frac)) (exp - frac.length))

def specialFloat : Reader Unit := do
  let _ ← sign
  word "inf" <|> word "nan"

/-! ## Dates and times -/

/-- A number of so many decimal digits. -/
def fixed (size least most : Nat) : Reader Nat := do
  let n := numeral 10 (← exactly size Char.isDigit)
  guard (least ≤ n ∧ n ≤ most)
  return n

def isLeap (year : Nat) : Bool := year % 4 == 0 && (year % 100 != 0 || year % 400 == 0)

def daysIn (year month : Nat) : Nat :=
  if month = 2 then if isLeap year then 29 else 28
  else if [4, 6, 9, 11].contains month then 30
  else 31

def date : Reader Unit := do
  let year ← fixed 4 0 9999
  char '-'
  let month ← fixed 2 1 12
  char '-'
  let _ ← fixed 2 1 (daysIn year month)

def time : Reader Unit := do
  let _ ← fixed 2 0 23
  char ':'
  let _ ← fixed 2 0 59
  char ':'
  let _ ← fixed 2 0 60
  let _ ← optional do
    char '.'
    let _ ← one Char.isDigit
    let _ ← run Char.isDigit

def zone : Reader Unit :=
  (do let _ ← one fun c => c == 'Z' || c == 'z') <|> do
    let _ ← one fun c => c == '+' || c == '-'
    let _ ← fixed 2 0 23
    char ':'
    let _ ← fixed 2 0 59

def dateTime : Reader Unit :=
  (do
    date
    let _ ← optional do
      let _ ← one fun c => c == 'T' || c == 't' || c == ' '
      time
      let _ ← optional zone) <|> time

/-! ## Scalars -/

/-- A value that is neither an array nor a table. A date or time is an object with one member. -/
def scalar : Reader Json :=
  (do return .str (← string))
    <|> (do return .obj [("datetime", .str (← written dateTime))])
    <|> (do return .real (← written (float <|> specialFloat)))
    <|> integer
    <|> (do word "true"; return .bool true)
    <|> (do word "false"; return .bool false)

end WaitDefer.Toml
