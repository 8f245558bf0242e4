/-! JSON values. Members of an object keep their order, and a name may occur more than once. -/
namespace WaitDefer

/-- A JSON value. Whole numbers without a fraction or exponent are kept apart from all others,
which are kept as they were written. -/
inductive Json where
  | null
  | bool (value : Bool)
  | int (value : Int)
  | real (literal : String)
  | str (value : String)
  | arr (items : List Json)
  | obj (members : List (String × Json))
  /-- A text with half of a surrogate pair, which no string can hold, or an object with such a
  name in it. -/
  | illFormed

namespace Json

instance : Inhabited Json := ⟨null⟩

/-- The first member with a name. -/
def get? (j : Json) (name : String) : Option Json :=
  match j with
  | obj members => members.lookup name
  | _ => none

def nat (n : Nat) : Json := int n

def optional (f : α → Json) : Option α → Json
  | some a => f a
  | none => null

def list (f : α → Json) (xs : List α) : Json := arr (xs.map f)

end Json
end WaitDefer
