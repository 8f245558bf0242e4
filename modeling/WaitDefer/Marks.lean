import Std.Data.TreeMap
import WaitDefer.Tree

/-! Marks on nodes. They are kept beside the tree, by id, so that the tree can be rebuilt while the
marks stay. Marks are only ever added. -/
namespace WaitDefer

/-- The marks of one node: it is or holds a wait-block; it is a loop that waits; it lies on the
path from a jump to a loop that waits. -/
structure Marks where
  awaits : Bool
  loops : Bool
  propagates : Bool
  deriving DecidableEq, Repr, Inhabited

namespace Marks

def none : Marks := ⟨false, false, false⟩

def await : Marks := ⟨true, false, false⟩

def loop : Marks := ⟨false, true, false⟩

def propagate : Marks := ⟨false, false, true⟩

def union (a b : Marks) : Marks :=
  ⟨a.awaits || b.awaits, a.loops || b.loops, a.propagates || b.propagates⟩

def isNone (m : Marks) : Bool := m == none

/-- All marks of `b` are among those of `a`. -/
def contains (a b : Marks) : Bool :=
  (a.awaits || !b.awaits) && (a.loops || !b.loops) && (a.propagates || !b.propagates)

/-- Some mark is in both. -/
def meets (a b : Marks) : Bool :=
  (a.awaits && b.awaits) || (a.loops && b.loops) || (a.propagates && b.propagates)

/-- The marks by name, with bars between them. -/
def text (m : Marks) : String :=
  match (if m.awaits then ["AWAIT"] else []) ++ (if m.loops then ["LOOP"] else []) ++
      (if m.propagates then ["PROPAGATE"] else []) with
  | [] => "NONE"
  | names => "|".intercalate names

/-- The marks as one number, a bit for each. -/
def bits (m : Marks) : Nat := m.awaits.toNat + 2 * m.loops.toNat + 4 * m.propagates.toNat

/-- The marks of statements at which a block is split. -/
def split : Marks := await.union propagate

end Marks

/-- The marks of all nodes, by id. -/
structure MarkTable where
  entries : Std.TreeMap NodeId Marks

namespace MarkTable

def empty : MarkTable := ⟨∅⟩

instance : Inhabited MarkTable := ⟨empty⟩

/-- The marks of a node; a node that was never marked has none. -/
def get (t : MarkTable) (id : NodeId) : Marks := t.entries.getD id .none

/-- Adds marks to those of a node. -/
def mark (t : MarkTable) (id : NodeId) (m : Marks) : MarkTable :=
  if m.isNone then t else ⟨t.entries.insert id ((t.get id).union m)⟩

/-- Adding marks to a node changes the table. -/
def wouldChange (t : MarkTable) (id : NodeId) (m : Marks) : Bool :=
  !m.isNone && (t.get id).union m != t.get id

/-- Adds the same marks to several nodes. -/
def markAll (t : MarkTable) (ids : List NodeId) (m : Marks) : MarkTable :=
  ids.foldl (fun t id => t.mark id m) t

/-- A node carries all of some marks. -/
def has (t : MarkTable) (id : NodeId) (m : Marks) : Bool := (t.get id).contains m

/-- A node carries one of some marks. -/
def hasAny (t : MarkTable) (id : NodeId) (m : Marks) : Bool := (t.get id).meets m

/-- The marked nodes and their marks, by increasing id. -/
def toList (t : MarkTable) : List (NodeId × Marks) := t.entries.toList

/-- The nodes that carry all of some marks, by increasing id. -/
def idsWith (t : MarkTable) (m : Marks) : List NodeId :=
  (t.toList.filter (·.2.contains m)).map (·.1)

def size (t : MarkTable) : Nat := t.entries.size

end MarkTable
end WaitDefer
