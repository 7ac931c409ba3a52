import PackagePlan.Data.Decode
import PackagePlan.Data.Toml.Reader
import PackagePlan.Data.Toml.Writer
import PackagePlan.Package.Id

/-! # Universe files

A universe lists the packages that repositories offer, those that are
installed and named sets of requirements, all as they are written in a file.
-/

namespace PackagePlan

def defaultSlot : Option SlotName := some "0"

def defaultRepository : RepositoryName := "repo"

def installedRepository : RepositoryName := "installed"

inductive EntryOrigin
  | source
  | binary
  deriving DecidableEq

namespace EntryOrigin

def name : EntryOrigin → String
  | source => "source"
  | binary => "binary"

def ofName? (s : String) : Option EntryOrigin := [source, binary].find? (·.name == s)

def origin : EntryOrigin → Origin
  | source => .source
  | binary => .binary

end EntryOrigin

namespace InstallRoot

def name : InstallRoot → String
  | slash => "slash"
  | chroot => "chroot"

def ofName? (s : String) : Option InstallRoot := [slash, chroot].find? (·.name == s)

end InstallRoot

structure PackageEntry where
  name : String
  version : String
  slot : Option String := defaultSlot
  repository : String := defaultRepository
  origin : EntryOrigin := .source
  masked : Bool := false
  transient : Bool := false
  choices : Choices := ∅
  dependencies : String := ""
  deriving DecidableEq

structure InstalledEntry where
  name : String
  version : String
  slot : Option String := defaultSlot
  root : InstallRoot := .slash
  transient : Bool := false
  choices : Choices := ∅
  dependencies : String := ""
  deriving DecidableEq

structure Universe where
  packages : List PackageEntry := []
  installed : List InstalledEntry := []
  sets : OrderedMap String (List String) := ∅
  deriving DecidableEq

open Datum

def PackageEntry.decode (fmt : Format) : Decoder PackageEntry := fun d => do
  let f ← asRecord fmt ["name", "version", "slot", "repository", "origin", "masked", "transient",
    "choices", "dependencies"] d
  some
    { name := ← f.required "name" asString
      version := ← f.required "version" asString
      slot := ← f.withDefault "slot" (asOption asString) defaultSlot
      repository := ← f.withDefault "repository" asString defaultRepository
      origin := ← f.withDefault "origin" (asName fmt EntryOrigin.ofName?) .source
      masked := ← f.withDefault "masked" asBool false
      transient := ← f.withDefault "transient" asBool false
      choices := ← f.withDefault "choices" (asMap asBool) ∅
      dependencies := ← f.withDefault "dependencies" asString "" }

def InstalledEntry.decode (fmt : Format) : Decoder InstalledEntry := fun d => do
  let f ← asRecord fmt ["name", "version", "slot", "root", "transient", "choices",
    "dependencies"] d
  some
    { name := ← f.required "name" asString
      version := ← f.required "version" asString
      slot := ← f.withDefault "slot" (asOption asString) defaultSlot
      root := ← f.withDefault "root" (asName fmt InstallRoot.ofName?) .slash
      transient := ← f.withDefault "transient" asBool false
      choices := ← f.withDefault "choices" (asMap asBool) ∅
      dependencies := ← f.withDefault "dependencies" asString "" }

namespace Universe

def decode (fmt : Format) : Decoder Universe := fun d => do
  let f ← asRecord fmt ["package", "installed", "sets"] d
  some
    { packages := ← f.withDefault "package" (asList (PackageEntry.decode fmt)) []
      installed := ← f.withDefault "installed" (asList (InstalledEntry.decode fmt)) []
      sets := ← f.withDefault "sets" (asMap asStrings) ∅ }

def parse? (s : String) : Option Universe := do decode .toml (.table (← Toml.read s))

end Universe

def slotDatum : Option String → Datum
  | some s => .string s
  | none => .null

def choicesDatum (choices : Choices) : Datum :=
  .table (choices.entries.map fun (flag, on) => (flag, .bool on))

def PackageEntry.toDatum (e : PackageEntry) : Datum :=
  .table [("name", .string e.name), ("version", .string e.version), ("slot", slotDatum e.slot),
    ("repository", .string e.repository), ("origin", .string e.origin.name),
    ("masked", .bool e.masked), ("transient", .bool e.transient),
    ("choices", choicesDatum e.choices), ("dependencies", .string e.dependencies)]

def InstalledEntry.toDatum (e : InstalledEntry) : Datum :=
  .table [("name", .string e.name), ("version", .string e.version), ("slot", slotDatum e.slot),
    ("root", .string e.root.name), ("transient", .bool e.transient),
    ("choices", choicesDatum e.choices), ("dependencies", .string e.dependencies)]

namespace Universe

def setsDatum (sets : OrderedMap String (List String)) : Datum :=
  .table (sets.entries.map fun (name, specs) => (name, .array (specs.map .string)))

def fields (u : Universe) : List (String × Datum) :=
  [("package", .array (u.packages.map PackageEntry.toDatum)),
    ("installed", .array (u.installed.map InstalledEntry.toDatum)), ("sets", setsDatum u.sets)]

def toDatum (u : Universe) : Datum := .table u.fields

/-- A slot that is missing is left out, since TOML has no word for it. -/
def toToml (u : Universe) : String := Toml.write (entriesWithoutNulls u.fields)

end Universe

end PackagePlan
