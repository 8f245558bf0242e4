import WaitDefer.Json

/-! Reading JSON text, strictly by its grammar: no comments, no trailing commas, nothing after the
value but blanks. Each reader returns what it read and the text after it. -/
namespace WaitDefer.Json

def isBlank (c : Char) : Bool := c == ' ' || c == '\t' || c == '\n' || c == '\r'

def skipBlanks (text : List Char) : List Char := text.dropWhile isBlank

/-! ## Strings -/

/-- A character of a string as it is written: itself, or the number of a UTF-16 unit. -/
inductive Unit16
  | char (c : Char)
  | unit (n : Nat)
  deriving DecidableEq, Repr, Inhabited

def hexValue? (c : Char) : Option Nat :=
  if c.isDigit then some (c.toNat - '0'.toNat)
  else if 'a' ≤ c && c ≤ 'f' then some (c.toNat - 'a'.toNat + 10)
  else if 'A' ≤ c && c ≤ 'F' then some (c.toNat - 'A'.toNat + 10)
  else none

/-- The number written by four hexadecimal digits. -/
def hex4? (a b c d : Char) : Option Nat := do
  let a ← hexValue? a
  let b ← hexValue? b
  let c ← hexValue? c
  let d ← hexValue? d
  return ((a * 16 + b) * 16 + c) * 16 + d

/-- The character a backslash and `c` stand for. -/
def unescape? : Char → Option Char
  | '"' => some '"'
  | '\\' => some '\\'
  | '/' => some '/'
  | 'b' => some '\x08'
  | 'f' => some '\x0c'
  | 'n' => some '\n'
  | 'r' => some '\r'
  | 't' => some '\t'
  | _ => none

/-- The rest of a string after its opening quote, with what was read before it (latest first). -/
def stringUnits : List Char → List Unit16 → Option (List Unit16 × List Char)
  | [], _ => none
  | '\\' :: 'u' :: a :: b :: c :: d :: cs, done =>
    match hex4? a b c d with
    | some n => stringUnits cs (.unit n :: done)
    | none => none
  | '\\' :: e :: cs, done =>
    match unescape? e with
    | some c => stringUnits cs (.char c :: done)
    | none => none
  | c :: cs, done =>
    if c == '"' then some (done.reverse, cs)
    else if c == '\\' || c.toNat < 0x20 then none
    else stringUnits cs (.char c :: done)

def isHighSurrogate (n : Nat) : Bool := 0xD800 ≤ n && n < 0xDC00

def isLowSurrogate (n : Nat) : Bool := 0xDC00 ≤ n && n < 0xE000

/-- The characters that some units stand for: two halves of a surrogate pair are one. -/
def assemble : List Unit16 → Option (List Char)
  | [] => some []
  | .char c :: us => (assemble us).map (c :: ·)
  | .unit n :: us =>
    if isHighSurrogate n then
      match us with
      | .unit m :: us =>
        if isLowSurrogate m then
          (assemble us).map (Char.ofNat (0x10000 + (n - 0xD800) * 0x400 + (m - 0xDC00)) :: ·)
        else none
      | _ => none
    else if isLowSurrogate n then none
    else (assemble us).map (Char.ofNat n :: ·)

/-- A string after its opening quote; nothing if it holds half of a surrogate pair. -/
def string (text : List Char) : Option (Option String × List Char) :=
  match stringUnits text [] with
  | some (units, rest) => some ((assemble units).map String.ofList, rest)
  | none => none

/-! ## Numbers -/

/-- One or more digits. -/
def digits (text : List Char) : Option (List Char × List Char) :=
  match text.takeWhile Char.isDigit with
  | [] => none
  | ds => some (ds, text.dropWhile Char.isDigit)

/-- The digits before a fraction: zero, or digits that do not start with zero. -/
def wholePart (text : List Char) : Option (List Char × List Char) := do
  let (ds, rest) ← digits text
  match ds with
  | '0' :: _ :: _ => none
  | _ => some (ds, rest)

/-- The fraction, if a point is next. -/
def fraction (text : List Char) : Option (List Char × List Char) :=
  match text with
  | '.' :: cs => do
    let (ds, rest) ← digits cs
    some ('.' :: ds, rest)
  | _ => some ([], text)

/-- The exponent, if its mark is next. -/
def exponent (text : List Char) : Option (List Char × List Char) :=
  match text with
  | e :: sign :: cs =>
    if e == 'e' || e == 'E' then
      if sign == '+' || sign == '-' then do
        let (ds, rest) ← digits cs
        some (e :: sign :: ds, rest)
      else do
        let (ds, rest) ← digits (sign :: cs)
        some (e :: ds, rest)
    else some ([], text)
  | [e] => if e == 'e' || e == 'E' then none else some ([], text)
  | [] => some ([], text)

def decimal (ds : List Char) : Nat :=
  ds.foldl (fun n c => n * 10 + (c.toNat - '0'.toNat)) 0

/-- A number. Minus zero is no whole number. -/
def number (text : List Char) : Option (Json × List Char) := do
  let (minus, cs) := match text with
    | '-' :: cs => (true, cs)
    | cs => (false, cs)
  let (whole, cs) ← wholePart cs
  let (frac, cs) ← fraction cs
  let (exp, cs) ← exponent cs
  let literal := String.ofList ((if minus then ['-'] else []) ++ whole ++ frac ++ exp)
  let value := decimal whole
  if frac.isEmpty && exp.isEmpty && !(minus && value == 0) then
    some (.int (if minus then -(value : Int) else value), cs)
  else
    some (.real literal, cs)

/-! ## Values -/

/-- An object with one more member at the front. -/
def addMember (name : Option String) (value : Json) (others : Json) : Json :=
  match name, others with
  | some name, obj members => obj ((name, value) :: members)
  | _, _ => illFormed

mutual

/-- A value; `n` bounds the characters of its text. -/
def value : Nat → List Char → Option (Json × List Char)
  | 0, _ => none
  | n + 1, text =>
    match skipBlanks text with
    | '\x7b' :: cs =>
      match skipBlanks cs with
      | '\x7d' :: rest => some (.obj [], rest)
      | cs => members n cs
    | '[' :: cs =>
      match skipBlanks cs with
      | ']' :: rest => some (.arr [], rest)
      | cs => do
        let (items, rest) ← elements n cs
        some (.arr items, rest)
    | '"' :: cs => do
      let (s, rest) ← string cs
      match s with
      | some s => some (.str s, rest)
      | none => some (.illFormed, rest)
    | 't' :: 'r' :: 'u' :: 'e' :: rest => some (.bool true, rest)
    | 'f' :: 'a' :: 'l' :: 's' :: 'e' :: rest => some (.bool false, rest)
    | 'n' :: 'u' :: 'l' :: 'l' :: rest => some (.null, rest)
    | cs => number cs

/-- One or more items and the bracket that closes their array. -/
def elements : Nat → List Char → Option (List Json × List Char)
  | 0, _ => none
  | n + 1, text => do
    let (item, rest) ← value n text
    match skipBlanks rest with
    | ',' :: cs =>
      let (items, rest) ← elements n cs
      some (item :: items, rest)
    | ']' :: rest => some ([item], rest)
    | _ => none

/-- One or more members and the brace that closes their object. -/
def members : Nat → List Char → Option (Json × List Char)
  | 0, _ => none
  | n + 1, text =>
    match skipBlanks text with
    | '"' :: cs => do
      let (name, rest) ← string cs
      match skipBlanks rest with
      | ':' :: cs =>
        let (item, rest) ← value n cs
        match skipBlanks rest with
        | ',' :: cs =>
          let (others, rest) ← members n cs
          some (addMember name item others, rest)
        | '\x7d' :: rest => some (addMember name item (.obj []), rest)
        | _ => none
      | _ => none
    | _ => none

end

/-- The value a text stands for. -/
def parse? (source : String) : Option Json :=
  let text := source.toList
  match value (text.length + 1) text with
  | some (j, rest) => if (skipBlanks rest).isEmpty then some j else none
  | none => none

end WaitDefer.Json
