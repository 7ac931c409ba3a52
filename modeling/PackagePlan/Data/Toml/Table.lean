import PackagePlan.Data.Datum

/-! # Building TOML tables

What a TOML document says about its tables, put together into one value. A
table that only dotted keys or the headers of its subtables mention is
implicit, and a header may still define it; nothing else can be defined twice.
-/

namespace PackagePlan.Toml

inductive Node
  | value (d : Datum)
  /-- `dotted` holds of tables that dotted keys have made. -/
  | table (implicit dotted : Bool) (entries : List (String × Node))
  /-- Tables that headers in double brackets have added, the last one open. -/
  | tables (elements : List (List (String × Node)))

abbrev Entries := List (String × Node)

namespace Node

mutual

def toDatum : Node → Datum
  | value d => d
  | table _ _ entries => .table (entriesToData entries)
  | tables elements => .array (elementsToData elements)

def entriesToData : List (String × Node) → List (String × Datum)
  | [] => []
  | (k, n) :: entries => (k, n.toDatum) :: entriesToData entries

def elementsToData : List (List (String × Node)) → List Datum
  | [] => []
  | entries :: elements => .table (entriesToData entries) :: elementsToData elements

end

end Node

namespace Entries

def get? (key : String) : Entries → Option Node
  | [] => none
  | (k, n) :: entries => if k = key then some n else get? key entries

def set (key : String) (n : Node) : Entries → Entries
  | [] => [(key, n)]
  | (k, m) :: entries => if k = key then (k, n) :: entries else (k, m) :: set key n entries

/-- Changes the table that a path leads to. Tables on the way are made where they are missing,
and in an array of tables the way leads into the last one. A dotted path does not enter a table
that a header has defined. `change` is told whether dotted keys made the table. -/
def changeAt (dottedPath : Bool) (change : Bool → Entries → Option Entries) :
    List String → Bool → Entries → Option Entries
  | [], dotted, entries => change dotted entries
  | key :: path, _, entries =>
    match get? key entries with
    | none => do
      let inner ← changeAt dottedPath change path dottedPath []
      some (set key (.table true dottedPath inner) entries)
    | some (.value _) => none
    | some (.table implicit dotted inner) =>
      if dottedPath && !implicit then none
      else do
        let inner ← changeAt dottedPath change path dotted inner
        some (set key (.table implicit dotted inner) entries)
    | some (.tables elements) => do
      let last ← elements.getLast?
      let inner ← changeAt dottedPath change path false last
      some (set key (.tables (elements.dropLast ++ [inner])) entries)

def addValue (path : List String) (d : Datum) (entries : Entries) : Option Entries := do
  let key ← path.getLast?
  let path := path.dropLast
  changeAt true (fun dotted entries =>
    if dotted == path.isEmpty || (get? key entries).isSome then none
    else some (set key (.value d) entries)) path false entries

def addValues (entries : Entries) (values : List (List String × Datum)) : Option Entries :=
  values.foldlM (fun entries (path, d) => addValue path d entries) entries

end Entries

structure Section where
  path : List String
  isElement : Bool
  values : List (List String × Datum)

def Section.addTo (s : Section) (key : String) (entries : Entries) : Option Entries :=
  if s.isElement then do
    let elements ←
      match Entries.get? key entries with
      | none => some []
      | some (.tables elements) => some elements
      | some _ => none
    let element ← Entries.addValues [] s.values
    some (Entries.set key (.tables (elements ++ [element])) entries)
  else do
    let start ←
      match Entries.get? key entries with
      | none => some []
      | some (.table true false start) => some start
      | some _ => none
    let inner ← Entries.addValues start s.values
    some (Entries.set key (.table false false inner) entries)

def Section.build (s : Section) (entries : Entries) : Option Entries := do
  let key ← s.path.getLast?
  Entries.changeAt false (fun _ => s.addTo key) s.path.dropLast false entries

def buildDocument (top : List (List String × Datum)) (sections : List Section) :
    Option (List (String × Datum)) := do
  let entries ← Entries.addValues [] top
  let entries ← sections.foldlM (fun entries s => s.build entries) entries
  some (Node.entriesToData entries)

def buildInline (values : List (List String × Datum)) : Option Datum :=
  (Entries.addValues [] values).map fun entries => .table (Node.entriesToData entries)

end PackagePlan.Toml
