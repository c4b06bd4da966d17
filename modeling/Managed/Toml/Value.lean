/-!
# TOML values and tables

A document is a table. Tables come about in several ways, and these decide what may still be added
to them: each pair may be given once, a table may have one header only, and an inline table is
complete where it stands.
-/

namespace Managed.Toml

/-- How a table that is not an inline one came about. -/
inductive TableKind where
  /-- It was passed through by the header of a table inside it. -/
  | implied
  /-- It was made by a dotted key. -/
  | dotted
  /-- It has a header, or is the document itself. -/
  | declared
deriving DecidableEq, Repr

/-- Floating-point numbers and points in time are not kept, since nothing here asks for them. -/
inductive Value where
  | string (text : String)
  | integer (value : Int)
  | float
  | boolean (value : Bool)
  | moment
  | array (elements : List Value)
  | inline (entries : List (String × Value))
  | table (kind : TableKind) (entries : List (String × Value))
  /-- Tables that share a header in double brackets. -/
  | tables (elements : List (List (String × Value)))

structure Table where
  kind : TableKind := .declared
  entries : List (String × Value) := []

/-- A key with the keys of the tables it is in, and its value. -/
structure Pair where
  path : List String
  key : String
  value : Value

/-- The header of a table, or of one of several tables of that name. -/
structure Header where
  path : List String
  key : String
  repeated : Bool

namespace Table

def find? (t : Table) (key : String) : Option Value :=
  List.lookup key t.entries

/-- Replaces or adds an entry. -/
def set (t : Table) (key : String) (value : Value) : Table :=
  { t with
    entries :=
      if (t.find? key).isSome then
        t.entries.map fun (k, v) => if k = key then (k, value) else (k, v)
      else t.entries ++ [(key, value)] }

/-- Changes the table that a path leads to. Tables missing on the way are made, by a dotted key or
by a header. A dotted key does not lead through a table that has a header of its own. -/
def within (dotted : Bool) (change : Table → Option Table) : List String → Table → Option Table
  | [], t => change t
  | key :: path, t =>
    match t.find? key with
    | none => do
      let child ← within dotted change path { kind := if dotted then .dotted else .implied }
      return t.set key (.table child.kind child.entries)
    | some (.table kind entries) =>
      if dotted && kind == .declared then none
      else do
        let child ← within dotted change path { kind, entries }
        return t.set key (.table child.kind child.entries)
    | some (.tables elements) => do
      let child ← within dotted change path { entries := ← elements.getLast? }
      return t.set key (.tables (elements.dropLast ++ [child.entries]))
    | some _ => none

/-- Adds a pair. The table it goes to has to be one made by dotted keys exactly if its key is
dotted. -/
def addPair (t : Table) (pair : Pair) : Option Table :=
  let insert (target : Table) : Option Table :=
    if (target.kind == .dotted) == pair.path.isEmpty then none
    else if (target.find? pair.key).isSome then none
    else some (target.set pair.key pair.value)
  t.within true insert pair.path

def addPairs (t : Table) (pairs : List Pair) : Option Table :=
  pairs.foldlM addPair t

/-- Adds the table under a header, with its pairs. -/
def addSection (root : Table) (header : Header) (pairs : List Pair) : Option Table :=
  let insert (parent : Table) : Option Table := do
    match header.repeated, parent.find? header.key with
    | false, none =>
      let t ← addPairs {} pairs
      return parent.set header.key (.table .declared t.entries)
    | false, some (.table .implied entries) =>
      let t ← addPairs { entries } pairs
      return parent.set header.key (.table .declared t.entries)
    | true, none =>
      let t ← addPairs {} pairs
      return parent.set header.key (.tables [t.entries])
    | true, some (.tables elements) =>
      let t ← addPairs {} pairs
      return parent.set header.key (.tables (elements ++ [t.entries]))
    | _, _ => none
  root.within false insert header.path

end Table

end Managed.Toml
