import WaitDefer.Tree.Rewrite
import WaitDefer.Tree.Walk

/-! Fresh ids. Ids are handed out in increasing order up to a largest one; after that the supply
repeats the largest id and says that it ran out. -/
namespace WaitDefer

/-- The largest id a node can carry. -/
def NodeId.last : NodeId := 0xFFFFFFFF

/-- A source of fresh ids: the next one, if any is left, and whether one was asked for after
that. -/
structure IdSupply where
  next : Option NodeId
  exhausted : Bool
  deriving DecidableEq, Repr, Inhabited

namespace IdSupply

/-- The id after `n`, if there is one. -/
def successor (n : NodeId) : Option NodeId :=
  if n < NodeId.last then some (n + 1) else none

/-- Ids from zero on. -/
def fromZero : IdSupply := ⟨some 0, false⟩

/-- Ids above `n`. -/
def above (n : NodeId) : IdSupply := ⟨successor n, false⟩

/-- The next id and the supply after it. -/
def fresh (s : IdSupply) : NodeId × IdSupply :=
  match s.next with
  | some n => (n, { s with next := successor n })
  | none => (NodeId.last, { s with exhausted := true })

end IdSupply

/-! ## Renumbering -/

/-- Gives new ids, in the order of the walk, to every function, block and statement. -/
def Rewriting.renumberAll : Rewriting IdSupply where
  func f body := do return { f with id := ← IdSupply.fresh, body := ← body }
  block b statements := do return { b with id := ← IdSupply.fresh, statements := ← statements }
  statement s kind := do return { s with id := ← IdSupply.fresh, kind := ← kind }

/-- Gives new ids, in the order of the walk, to the statements alone. -/
def Rewriting.renumberStatements : Rewriting IdSupply where
  statement s kind := do return { s with id := ← IdSupply.fresh, kind := ← kind }

end WaitDefer
