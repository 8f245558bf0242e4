import WaitDefer.Json

/-! Tables of a TOML document while it is read. A table is made by its header, on the way to
another table, or by a dotted key; how it was made decides whether it may be added to. -/
namespace WaitDefer.Toml

mutual

/-- What stands under a key: a value, a table, or an array of tables. -/
inductive Item where
  | value (j : Json)
  | table (t : Table)
  | tables (ts : List Table)

/-- A table. It is implicit if no header named it, and dotted if a dotted key made it. -/
structure Table where
  implicit : Bool
  dotted : Bool
  entries : List (String × Item)

end

namespace Table

/-- An empty table named by its header. -/
def new : Table := ⟨false, false, []⟩

instance : Inhabited Table := ⟨new⟩

def get? (t : Table) (key : String) : Option Item := t.entries.lookup key

def erase (t : Table) (key : String) : Table :=
  { t with entries := t.entries.filter (·.1 != key) }

def set (t : Table) (key : String) (item : Item) : Table :=
  match t.get? key with
  | none => { t with entries := t.entries ++ [(key, item)] }
  | some _ =>
    { t with entries := t.entries.map fun e => if e.1 == key then (key, item) else e }

/-- Changes the table at the end of a path; tables on the way are made if they are missing. Through
an array of tables the path leads into the last one. A value is never added to, nor by a dotted key
a table that a header named. -/
def descend (dotted : Bool) (change : Table → Option Table) : List String → Table → Option Table
  | [], t => change t
  | key :: path, t =>
    match t.get? key with
    | none => do
      let child ← descend dotted change path ⟨true, dotted, []⟩
      return t.set key (.table child)
    | some (.table child) =>
      if dotted && !child.implicit then none
      else do
        let child ← descend dotted change path child
        return t.set key (.table child)
    | some (.tables ts) =>
      match ts.getLast? with
      | some last => do
        let last ← descend dotted change path last
        return t.set key (.tables (ts.dropLast ++ [last]))
      | none => none
    | some (.value _) => none

/-- Adds a value under a key that no entry has yet. The table must have been made by a dotted key
exactly if the key is dotted. -/
def addValue (dotted : Bool) (key : String) (value : Json) (t : Table) : Option Table :=
  if t.dotted != dotted || (t.get? key).isSome then none
  else some (t.set key (.value value))

/-- Adds a value under a key that may be dotted: `path` leads to the table that has the key. -/
def insert (path : List String) (key : String) (value : Json) (t : Table) : Option Table :=
  t.descend true (addValue (!path.isEmpty) key value) path

/-- Puts a table under a key: in place of one that was made only on the way to others, or, as an
element, at the end of an array of tables. -/
def addTable (isElement : Bool) (key : String) (child t : Table) : Option Table :=
  match t.get? key, isElement with
  | none, true => some (t.set key (.tables [child]))
  | some (.tables ts), true => some (t.set key (.tables (ts ++ [child])))
  | none, false => some (t.set key (.table child))
  | some (.table old), false => if old.implicit then some (t.set key (.table child)) else none
  | _, _ => none

/-- Makes sure that an array of tables can stand under a key. -/
def reserveTables (key : String) (t : Table) : Option Table :=
  match t.get? key with
  | none | some (.tables _) => some t
  | some _ => none

/-- What stands at the end of a path. -/
def find? : List String → Table → Option Item
  | [], _ => none
  | [key], t => t.get? key
  | key :: path, t =>
    match t.get? key with
    | some (.table child) => find? path child
    | some (.tables ts) =>
      match ts.getLast? with
      | some last => find? path last
      | none => none
    | _ => none

end Table

mutual

def Item.toJson : Item → Json
  | .value j => j
  | .table t => t.toJson
  | .tables ts => .arr (Table.listToJson ts)

def Table.toJson : Table → Json
  | ⟨_, _, entries⟩ => .obj (Table.entriesToJson entries)

def Table.entriesToJson : List (String × Item) → List (String × Json)
  | [] => []
  | (key, item) :: entries => (key, item.toJson) :: Table.entriesToJson entries

def Table.listToJson : List Table → List Json
  | [] => []
  | t :: ts => t.toJson :: Table.listToJson ts

end

/-! ## Documents -/

/-- A document so far: the tables that are done, and the one whose header came last. -/
structure Document where
  root : Table
  /-- Where the present table goes; empty before the first header. -/
  path : List String
  /-- The present table is an element of an array of tables. -/
  isElement : Bool
  present : Table

namespace Document

def empty : Document := ⟨.new, [], false, .new⟩

/-- Puts the present table in its place. -/
def close (d : Document) : Option Table :=
  match d.path.getLast? with
  | none => some d.present
  | some key => d.root.descend false (Table.addTable d.isElement key d.present) d.path.dropLast

/-- The header of a table, which must be missing or have been made only on the way to others. -/
def openTable (path : List String) (d : Document) : Option Document := do
  let root ← d.close
  let key ← path.getLast?
  let root ← root.descend false some path.dropLast
  match Table.find? path root with
  | none => some ⟨root, path, false, .new⟩
  | some (.table t) =>
    if t.implicit && !t.dotted then do
      let root ← root.descend false (fun parent => some (parent.erase key)) path.dropLast
      return ⟨root, path, false, { t with implicit := false }⟩
    else none
  | some _ => none

/-- The header of an element of an array of tables. -/
def openElement (path : List String) (d : Document) : Option Document := do
  let root ← d.close
  let key ← path.getLast?
  let root ← root.descend false (Table.reserveTables key) path.dropLast
  return ⟨root, path, true, .new⟩

/-- A key and its value. -/
def insert (path : List String) (key : String) (value : Json) (d : Document) : Option Document := do
  let present ← d.present.insert path key value
  return { d with present }

end Document
end WaitDefer.Toml
