/-! Places in a source text. Offsets count bytes of the UTF-8 form; lines and columns start at 1
and columns count characters. -/
namespace WaitDefer

/-- A point between two characters of a text. -/
structure Position where
  offset : Nat
  line : Nat
  column : Nat
  deriving DecidableEq, Repr, Inhabited

namespace Position

/-- Where every text begins. -/
def start : Position := ⟨0, 1, 1⟩

/-- The point after one more character; a line feed opens the next line. -/
def step (p : Position) (c : Char) : Position :=
  if c = '\n' then ⟨p.offset + c.utf8Size, p.line + 1, 1⟩
  else ⟨p.offset + c.utf8Size, p.line, p.column + 1⟩

/-- The point after a run of characters. -/
def after (p : Position) (text : List Char) : Position :=
  text.foldl step p

theorem after_append (p : Position) (a b : List Char) :
    p.after (a ++ b) = (p.after a).after b := by
  simp [after, List.foldl_append]

end Position

/-- A stretch of text from byte `start` up to byte `stop`; `line` and `column` place its start. -/
structure Span where
  start : Nat
  stop : Nat
  line : Nat
  column : Nat
  deriving DecidableEq, Repr, Inhabited

namespace Span

/-- The stretch between two points. -/
def between (a b : Position) : Span := ⟨a.offset, b.offset, a.line, a.column⟩

def length (s : Span) : Nat := s.stop - s.start

def isEmpty (s : Span) : Bool := s.start == s.stop

/-- How messages name a place: line and column of the start. -/
def place (s : Span) : String := toString s.line ++ ":" ++ toString s.column

/-- From the start of the first to the end of the second. -/
def through (a b : Span) : Span := ⟨a.start, b.stop, a.line, a.column⟩

/-- The least stretch that holds both; it is placed where the earlier one starts. -/
def cover (a b : Span) : Span :=
  let first := if a.start ≤ b.start then a else b
  ⟨min a.start b.start, max a.stop b.stop, first.line, first.column⟩

/-- What is left of a text after its first `n` bytes, if they are whole characters. -/
def dropBytes? : Nat → List Char → Option (List Char)
  | 0, text => some text
  | _ + 1, [] => none
  | n + 1, c :: cs => if c.utf8Size ≤ n + 1 then dropBytes? (n + 1 - c.utf8Size) cs else none

/-- The first `n` bytes of a text, if they are whole characters. -/
def takeBytes? : Nat → List Char → Option (List Char)
  | 0, _ => some []
  | _ + 1, [] => none
  | n + 1, c :: cs =>
    if c.utf8Size ≤ n + 1 then (takeBytes? (n + 1 - c.utf8Size) cs).map (c :: ·) else none

/-- The text inside a span, if its ends are in order and fall between characters. -/
def slice? (s : Span) (text : String) : Option String :=
  if s.start ≤ s.stop then do
    let tail ← dropBytes? s.start text.toList
    let inside ← takeBytes? (s.stop - s.start) tail
    return String.ofList inside
  else
    none

end Span
end WaitDefer
