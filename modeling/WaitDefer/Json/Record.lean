import WaitDefer.Json

/-! Reading records and forms out of JSON values. A record is an object that has each field at most
once, and may have others, or an array of all its fields in order. One of several forms is an
object with exactly one member; a form without content may also be its name alone.

A decoder is given the number of arrays and objects that may still be opened; opening one takes
one of them. -/
namespace WaitDefer.Json

/-- Reads a value in which at most so many arrays and objects are nested. -/
abbrev Decoder (α : Type) := Nat → Json → Option α

/-- The value of a field that an object may have; more than one is an error. -/
def field? (name : String) (members : List (String × Json)) : Option (Option Json) :=
  match members.filter (·.1 == name) with
  | [] => some none
  | [m] => some (some m.2)
  | _ => none

/-- The values of the named fields. An array holds exactly those fields. -/
def fields (names : List String) : Json → Option (List (Option Json))
  | obj members => names.mapM (field? · members)
  | arr items => if items.length == names.length then some (items.map some) else none
  | _ => none

/-- A field that has to be there. -/
def required (decode : Json → Option α) : Option Json → Option α
  | some j => decode j
  | none => none

/-- A field that may be missing or null. -/
def maybe (decode : Json → Option α) : Option Json → Option (Option α)
  | none | some null => some none
  | some j => (decode j).map some

/-- The name and content of a form. -/
def form? : Json → Option (String × Json)
  | obj [m] => some m
  | _ => none

/-- The name of a form without content. -/
def bareForm? (room : Nat) : Json → Option String
  | str name => some name
  | obj [(name, null)] => if room = 0 then none else some name
  | _ => none

/-- An array of values. -/
def items (decode : Decoder α) : Decoder (List α)
  | room + 1, arr xs => xs.mapM (decode room)
  | _, _ => none

/-- A whole number from zero to `last`. -/
def upTo (last : Nat) : Decoder Nat
  | _, int n => if 0 ≤ n && n ≤ last then some n.toNat else none
  | _, _ => none

/-- A whole number of 64 bits with sign. -/
def signed64 : Decoder Int
  | _, int n => if -0x8000000000000000 ≤ n && n < 0x8000000000000000 then some n else none
  | _, _ => none

def text : Decoder String
  | _, str s => some s
  | _, _ => none

def truth : Decoder Bool
  | _, bool b => some b
  | _, _ => none

end WaitDefer.Json
