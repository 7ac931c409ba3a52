import PackagePlan.Dependency.Tree
import PackagePlan.Ordered.Sorting

/-! # Package databases

A database knows ids, installed ones included, the dependencies of each and
named sets of requirements. Ids are found by a source, kept by a filter and
cut down by a selection.
-/

namespace PackagePlan

structure Database where
  /-- For each package its distinct ids, in the order in which they came. -/
  ids : OrderedMap PackageName (List PackageId)
  trees : OrderedMap PackageId DependencyTree
  sets : OrderedMap SetName (List Requirement)
  deriving Inhabited

inductive IdSource
  | package (name : PackageName)
  | accepted (r : Requirement)
  | installed (root : InstallRoot)

inductive IdFilter
  | all
  | installable
  | unmasked
  | installedAt (root : InstallRoot)
  /-- Ids in this slot; `none` asks for unslotted ids. -/
  | slot (slot : Option SlotName)
  | origin (origin : Origin)
  | not (f : IdFilter)
  | and (f g : IdFilter)

def IdFilter.keeps : IdFilter → PackageId → Bool
  | all, _ => true
  | installable, id => id.isInstallable
  | unmasked, id => !id.masked
  | installedAt root, id => id.installedRoot? == some root
  | slot s, id => id.slot == s
  | origin o, id => id.origin == o
  | not f, id => !f.keeps id
  | and f g, id => f.keeps id && g.keeps id

inductive IdSelection
  /-- Every id, worst first. -/
  | sorted
  | best
  /-- The best id of each slot, in the order of the slots. -/
  | bestInEachSlot
  deriving DecidableEq

namespace IdSelection

def sortIds (ids : List PackageId) : List PackageId :=
  dropRepeats (sortBy PackageId.comparePreference ids)

def bestOf (ids : List PackageId) : Option PackageId := (sortIds ids).getLast?

def bestPerSlot (ids : List PackageId) : List PackageId :=
  (OrderedMap.ofList ((sortIds ids).map fun id => (id.slot, id))).values

def apply : IdSelection → List PackageId → List PackageId
  | sorted, ids => sortIds ids
  | best, ids => (bestOf ids).toList
  | bestInEachSlot, ids => bestPerSlot ids

end IdSelection

namespace Database

def empty : Database := ⟨∅, ∅, ∅⟩

/-- Adding an id again changes its dependencies. -/
def insert (db : Database) (id : PackageId) (tree : DependencyTree) : Database :=
  { db with
    ids := db.ids.alter id.name fun known =>
      let known := known.getD []
      if known.contains id then known else known ++ [id]
    trees := db.trees.insert id tree }

def insertSet (db : Database) (name : SetName) (rs : List Requirement) : Database :=
  { db with sets := db.sets.insert name rs }

def size (db : Database) : Nat := db.trees.size

def isEmpty (db : Database) : Bool := db.trees.isEmpty

def packageNames (db : Database) : List PackageName := db.ids.keys

def setNames (db : Database) : List SetName := db.sets.keys

def allIds (db : Database) : List PackageId := db.trees.keys

def idsOf (db : Database) (name : PackageName) : List PackageId := db.ids.getD name []

def installedIds (db : Database) (root : InstallRoot) : List PackageId :=
  db.allIds.filter (·.installedRoot? == some root)

def treeOf (db : Database) (id : PackageId) : DependencyTree := db.trees.getD id .nothing

def set? (db : Database) (name : SetName) : Option (List Requirement) := db.sets.get? name

def dangling (db : Database) : List (PackageId × PackageName) :=
  db.trees.entries.flatMap fun (id, tree) =>
    ((OrderedSet.ofList tree.packageNames).toList.filter (!db.ids.contains ·)).map (id, ·)

def idsFrom (db : Database) : IdSource → List PackageId
  | .package name => db.idsOf name
  | .accepted r => (db.idsOf r.name).filter r.accepts
  | .installed root => db.installedIds root

def find (db : Database) (source : IdSource) (filter : IdFilter) : List PackageId :=
  (db.idsFrom source).filter filter.keeps

def installed? (db : Database) (r : Resolvent) : Option PackageId := do
  let root ← r.destination.installRoot?
  IdSelection.bestOf (db.find (.package r.package) (.and (.installedAt root) (.slot r.slot)))

def hasInstalled (db : Database) (r : Requirement) : Bool :=
  !(db.find (.accepted r) (.installedAt .slash)).isEmpty

end Database

end PackagePlan
