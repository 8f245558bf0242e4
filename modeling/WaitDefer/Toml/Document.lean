import WaitDefer.Toml.Scalar
import WaitDefer.Toml.Table

/-! Reading TOML documents. -/
namespace WaitDefer.Toml

open Reader

/-! ## Keys -/

def simpleKey : Reader String :=
  basicString <|> literalString <|> do
    let c ← one fun c => c.isAlphanum || c == '-' || c == '_'
    return String.ofList (c :: (← run fun c => c.isAlphanum || c == '-' || c == '_'))

def paddedKey : Reader String := do
  blanks
  let key ← simpleKey
  blanks
  return key

/-- The parts of a key that may be dotted, of which there are less than eighty: the last one, and
those before it. -/
def dottedKey : Reader (List String × String) := do
  let first ← paddedKey
  let others ← star do
    char '.'
    return [← paddedKey]
  guard (others.length + 1 < 80)
  return ((first :: others).dropLast, others.getLastD first)

/-! ## Values -/

/-- What may stand between the items of an array. -/
def filler : Reader Unit := do
  let _ ← star do
    (do let _ ← one isBlank) <|> newline <|> (do comment; newline)
    return [()]

mutual

/-- A value in which at most `room` arrays and tables are nested; `n` bounds the steps to read it,
of which each character takes three at most. -/
def value : Nat → Nat → Reader Json
  | 0, _ => failure
  | n + 1, room => fun
    | '[' :: cs => if room = 0 then none else items n (room - 1) cs
    | '\x7b' :: cs => if room = 0 then none else members n (room - 1) cs
    | text => scalar text

/-- The items of an array after its opening bracket. -/
def items : Nat → Nat → Reader Json
  | 0, _ => failure
  | n + 1, room => do
    filler
    (do char ']'; return .arr []) <|> moreItems n room []

/-- One or more items of an array after those before them, latest first, and its closing bracket. -/
def moreItems : Nat → Nat → List Json → Reader Json
  | 0, _, _ => failure
  | n + 1, room, done => do
    let item ← value n room
    filler
    let hasComma := (← optional (char ',')).isSome
    filler
    match ← optional (char ']') with
    | some _ => return .arr (item :: done).reverse
    | none => if hasComma then moreItems n room (item :: done) else failure

/-- The members of a table in braces after its opening brace. -/
def members : Nat → Nat → Reader Json
  | 0, _ => failure
  | n + 1, room => (do blanks; char '\x7d'; return .obj []) <|> moreMembers n room .new

/-- One or more members of a table in braces, and its closing brace. -/
def moreMembers : Nat → Nat → Table → Reader Json
  | 0, _, _ => failure
  | n + 1, room, t => do
    let (path, key) ← dottedKey
    char '='
    blanks
    let v ← value n room
    blanks
    let t ← t.insert path key v
    match ← optional (char ',') with
    | some _ => moreMembers n room t
    | none => do
      char '\x7d'
      return t.toJson

end

/-! ## Documents -/

/-- The end of a line after its value or header. -/
def lineRest : Reader Unit := do
  blanks
  let _ ← optional comment
  newline <|> atEnd

/-- Arrays and tables in braces nest at most this deep. -/
def nestingLimit : Nat := 79

/-- A value of any length. -/
def wholeValue : Reader Json := fun text => value (3 * text.length + 1) nestingLimit text

/-- A line with a key and its value. -/
def assignment (d : Document) : Reader Document := do
  let (path, key) ← dottedKey
  char '='
  blanks
  let v ← wholeValue
  lineRest
  d.insert path key v

/-- A line with the header of a table, after its opening bracket. -/
def tableHeader (d : Document) : Reader Document := do
  let (path, key) ← dottedKey
  char ']'
  lineRest
  d.openTable (path ++ [key])

/-- A line with the header of an element of an array of tables, after its opening brackets. -/
def elementHeader (d : Document) : Reader Document := do
  let (path, key) ← dottedKey
  word "]]"
  lineRest
  d.openElement (path ++ [key])

def commentLine (d : Document) : Reader Document := do
  comment
  newline <|> atEnd
  return d

def line (d : Document) : Reader Document := fun
  | '#' :: cs => commentLine d ('#' :: cs)
  | '[' :: '[' :: cs => elementHeader d cs
  | '[' :: cs => tableHeader d cs
  | '\n' :: cs => some (d, cs)
  | '\r' :: '\n' :: cs => some (d, cs)
  | text => assignment d text

/-- The lines of a document; `n` bounds their number. -/
def lines : Nat → Document → Reader Document
  | 0, _ => failure
  | n + 1, d => do
    blanks
    (do atEnd; return d) <|> (do lines n (← line d))

/-- The value of a document, which may begin with a byte order mark. -/
def parse? (source : String) : Option Json := do
  let text := match source.toList with
    | '\ufeff' :: cs => cs
    | cs => cs
  let (d, _) ← lines (text.length + 1) .empty text
  let root ← d.close
  return root.toJson

end WaitDefer.Toml
