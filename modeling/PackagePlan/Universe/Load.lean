import PackagePlan.Dependency.Parser
import PackagePlan.Package.Database
import PackagePlan.Universe.File

/-! # Loading universes

The database of a universe: its entries in order, offered packages first, with
their versions, dependencies and sets read. The first fault found is reported.
-/

namespace PackagePlan

inductive UniverseFault
  | version (e : InvalidVersion)
  | requirement (e : InvalidRequirement)

def UniverseFault.message : UniverseFault → String
  | version e => e.message
  | requirement e => e.message

def PackageEntry.id (e : PackageEntry) (version : Version) : PackageId where
  name := e.name
  version := version
  slot := e.slot
  repository := e.repository
  origin := e.origin.origin
  masked := e.masked
  transient := e.transient
  choices := e.choices

def InstalledEntry.id (e : InstalledEntry) (version : Version) : PackageId where
  name := e.name
  version := version
  slot := e.slot
  repository := installedRepository
  origin := .installed e.root
  masked := false
  transient := e.transient
  choices := e.choices

namespace Universe

def readDependencies (id : PackageId) (text : String) :
    Except UniverseFault DependencyTree :=
  (DependencyTree.parse text).mapError fun e =>
    .requirement { e with fault := .dependenciesOf id.render e.fault }

def readVersion (text : String) : Except UniverseFault Version :=
  (Version.parse text).mapError .version

def readRequirement (text : String) : Except UniverseFault Requirement :=
  (Requirement.parse text).mapError .requirement

def addEntry (db : Database) (version : String) (id : Version → PackageId)
    (dependencies : String) : Except UniverseFault Database := do
  let id := id (← readVersion version)
  .ok (db.insert id (← readDependencies id dependencies))

def addSet (db : Database) (set : String × List String) : Except UniverseFault Database := do
  .ok (db.insertSet set.1 (← set.2.mapM readRequirement))

def load (u : Universe) : Except UniverseFault Database := do
  let db ← u.packages.foldlM (fun db e => addEntry db e.version e.id e.dependencies) .empty
  let db ← u.installed.foldlM (fun db e => addEntry db e.version e.id e.dependencies) db
  u.sets.entries.foldlM addSet db

end Universe

end PackagePlan
