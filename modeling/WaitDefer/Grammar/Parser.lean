import WaitDefer.Grammar.Cursor

/-! The small steps of reading. A parser moves a cursor; when it fails, the cursor stays where the
failure was met, so that the reading can go on from there. -/
namespace WaitDefer

/-- Reads a value off a cursor, or fails with an error; both ways the cursor moves. -/
abbrev Parser := ExceptT SyntaxError (StateM Cursor)

namespace Parser

/-- Asks the cursor. -/
def look (f : Cursor → α) : Parser α := fun c => (.ok (f c), c)

/-- Moves the cursor. -/
def move (f : Cursor → Cursor) : Parser Unit := fun c => (.ok (), f c)

/-- Passes the present token and returns it. -/
def advance : Parser Token := fun c => (.ok c.token, c.advance)

/-- Fails because none of some tokens is present. -/
def unexpected (expected : List Token) : Parser α := fun c => (.error (c.unexpected expected), c)

/-- Passes a token of the kind of `t`, if it is present, and says whether it was. -/
def eat (t : Token) : Parser Bool := fun c =>
  if c.sees t then (.ok true, c.advance) else (.ok false, c)

/-- Passes a token of the kind of `t`, which has to be present. -/
def expect (t : Token) : Parser Token := fun c =>
  if c.sees t then (.ok c.token, c.advance) else (.error (c.unexpected [t]), c)

/-- Any name, where one is expected. -/
def anyName : Token := .ident ""

def ident : Parser Ident := fun c =>
  match c.token with
  | .ident name => (.ok ⟨name, c.span⟩, c.advance)
  | _ => (.error (c.unexpected [anyName]), c)

/-- The name after a dot, which may also be a reserved word. -/
def property : Parser Ident := fun c =>
  match c.token with
  | .word k => (.ok ⟨k.text, c.span⟩, c.advance)
  | _ => ident c

/-- A name, if one is present. -/
def ident? : Parser (Option Ident) := fun c =>
  match c.token with
  | .ident name => (.ok (some ⟨name, c.span⟩), c.advance)
  | _ => (.ok none, c)

def freshId : Parser NodeId := fun c =>
  let r := c.ids.fresh
  (.ok r.1, { c with ids := r.2 })

/-- Goes one level deeper. -/
def enter (name : String) : Parser Unit := fun c =>
  match Limit.enter name c.span c.depth with
  | .ok depth => (.ok (), { c with depth })
  | .error e => (.error e, c)

/-- Reads one level deeper, and comes back up even if that fails. -/
def nested (name : String) (p : Parser α) : Parser α := fun c =>
  match enter name c with
  | (.ok (), c) =>
    let r := p c
    (r.1, r.2.leave)
  | (.error e, c) => (.error e, c)

/-- Fails because the text nests too deep. -/
def noRoom (name : String) : Parser α := fun c => (.error (Limit.tooDeep name c.span), c)

/-- Failure as a value. -/
def attempt (p : Parser α) : Parser (Except SyntaxError α) := fun c =>
  let r := p c
  (.ok r.1, r.2)

/-- Adds a suggestion to a failure. -/
def suggesting (suggestion : String) (p : Parser α) : Parser α := fun c =>
  match p c with
  | (.error e, c) => (.error (e.suggest suggestion), c)
  | r => r

/-- One or more items with commas between them; `n` bounds the number of commas. -/
def commaList (item : Parser α) : Nat → Parser (List α)
  | 0 => do
    let x ← item
    return [x]
  | n + 1 => do
    let x ← item
    if ← eat (.sym .comma) then
      let xs ← commaList item n
      return x :: xs
    else
      return [x]

/-- Items between parentheses, the opening one already passed. -/
def untilParen (item : Parser α) : Parser (List α) := do
  let items ←
    if ← look (·.sees (.sym .rightParen)) then pure []
    else commaList item (← look (·.tokens.size))
  let _ ← expect (.sym .rightParen)
  return items

end Parser
end WaitDefer
