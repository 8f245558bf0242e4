import WaitDefer.Json

/-! JSON values as text: on one line, or indented by two blanks a level. -/
namespace WaitDefer.Json

/-! ## Strings -/

def hexDigit (n : Nat) : Char :=
  if n < 10 then Char.ofNat ('0'.toNat + n) else Char.ofNat ('a'.toNat + (n - 10))

/-- How a character is written between quotes. Only quotes, backslashes and control characters
are escaped. -/
def escape (c : Char) : List Char :=
  match c with
  | '"' => ['\\', '"']
  | '\\' => ['\\', '\\']
  | '\x08' => ['\\', 'b']
  | '\t' => ['\\', 't']
  | '\n' => ['\\', 'n']
  | '\x0c' => ['\\', 'f']
  | '\r' => ['\\', 'r']
  | c =>
    if c.toNat < 0x20 then
      ['\\', 'u', '0', '0', hexDigit (c.toNat / 16), hexDigit (c.toNat % 16)]
    else [c]

/-- A string between quotes. -/
def quote (s : String) : String :=
  String.ofList ('"' :: (s.toList.flatMap escape ++ ['"']))

/-! ## Indented text -/

/-- A line break and the indentation of the next line. -/
def lineBreak (level : Nat) : String := "\n".pushn ' ' (2 * level)

mutual

/-- The text of a value whose first line is at nesting `level`, in pieces. -/
def pieces (level : Nat) : Json → List String
  | null => ["null"]
  | bool true => ["true"]
  | bool false => ["false"]
  | int n => [toString n]
  | real literal => [literal]
  | str s => [quote s]
  | arr [] => ["[]"]
  | arr (item :: items) =>
    "[" :: lineBreak (level + 1) :: (pieces (level + 1) item ++
      (itemPieces (level + 1) items ++ [lineBreak level, "]"]))
  | obj [] => ["\x7b\x7d"]
  | obj ((name, value) :: members) =>
    "\x7b" :: lineBreak (level + 1) :: quote name :: ": " :: (pieces (level + 1) value ++
      (memberPieces (level + 1) members ++ [lineBreak level, "\x7d"]))
  | illFormed => ["null"]

/-- The further items of an array, each after a comma on a line of its own. -/
def itemPieces (level : Nat) : List Json → List String
  | [] => []
  | item :: items => "," :: lineBreak level :: (pieces level item ++ itemPieces level items)

/-- The further members of an object, each after a comma on a line of its own. -/
def memberPieces (level : Nat) : List (String × Json) → List String
  | [] => []
  | (name, value) :: members =>
    "," :: lineBreak level :: quote name :: ": " ::
      (pieces level value ++ memberPieces level members)

end

/-- A value as indented text. -/
def pretty (j : Json) : String := String.join (j.pieces 0)

/-! ## One line -/

mutual

/-- Adds the text of a value to `out`. -/
def write (out : String) : Json → String
  | null => out ++ "null"
  | bool true => out ++ "true"
  | bool false => out ++ "false"
  | int n => out ++ toString n
  | real literal => out ++ literal
  | str s => out ++ quote s
  | arr [] => out ++ "[]"
  | arr (item :: items) => writeItems (write (out ++ "[") item) items
  | obj [] => out ++ "\x7b\x7d"
  | obj ((name, value) :: members) =>
    writeMembers (write (out ++ "\x7b" ++ quote name ++ ":") value) members
  | illFormed => out ++ "null"

def writeItems (out : String) : List Json → String
  | [] => out ++ "]"
  | item :: items => writeItems (write (out ++ ",") item) items

def writeMembers (out : String) : List (String × Json) → String
  | [] => out ++ "\x7d"
  | (name, value) :: members =>
    writeMembers (write (out ++ "," ++ quote name ++ ":") value) members

end

/-- A value as one line of text. -/
def compact (j : Json) : String := j.write ""

end WaitDefer.Json
