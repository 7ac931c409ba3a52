import PackagePlan.Ordered.Map
import PackagePlan.Version.Basic

/-! # Packages

A package id is one version of one package from one place: a repository that
offers it, or a root where it is installed. Ids are compared field by field,
versions by their value.
-/

namespace PackagePlan

open Std

abbrev PackageName := String

abbrev SlotName := String

abbrev RepositoryName := String

abbrev SetName := String

abbrev Choices := OrderedMap String Bool

/-- A choice that is not listed is off. -/
def Choices.enabled (choices : Choices) (flag : String) : Bool := OrderedMap.getD choices flag false

inductive InstallRoot
  | slash
  | chroot
  deriving DecidableEq, Inhabited

inductive Origin
  | source
  | binary
  | installed (root : InstallRoot)
  deriving DecidableEq, Inhabited

namespace Origin

def rank : Origin → Nat
  | source => 0
  | binary => 1
  | installed .slash => 2
  | installed .chroot => 3

instance : Ord Origin := ⟨compareOn rank⟩

instance : TransOrd Origin := inferInstanceAs (TransCmp (compareOn rank))

def installedRoot? : Origin → Option InstallRoot
  | installed root => some root
  | _ => none

end Origin

structure PackageId where
  name : PackageName
  version : Version
  slot : Option SlotName
  repository : RepositoryName
  origin : Origin
  /-- Masked ids are never installed. -/
  masked : Bool
  /-- Transient ids may be replaced freely. -/
  transient : Bool
  choices : Choices
  deriving Inhabited

namespace PackageId

def compareFields : PackageId → PackageId → Ordering :=
  compareLex (compareOn name) <| compareLex (compareOn version) <|
  compareLex (compareOn slot) <| compareLex (compareOn repository) <|
  compareLex (compareOn origin) <| compareLex (compareOn masked) <|
  compareLex (compareOn transient) (compareOn choices)

instance : Ord PackageId := ⟨compareFields⟩

instance : TransOrd PackageId := by
  change TransCmp compareFields
  unfold compareFields; infer_instance

instance : BEq PackageId where
  beq a b :=
    a.name == b.name && a.version == b.version && a.slot == b.slot &&
      a.repository == b.repository && a.origin == b.origin && a.masked == b.masked &&
      a.transient == b.transient && a.choices == b.choices

def ofSource (name : PackageName) (version : Version) (repository : RepositoryName)
    (origin : Origin) : PackageId :=
  { name, version, slot := none, repository, origin, masked := false, transient := false,
    choices := ∅ }

def render (id : PackageId) : String :=
  id.name ++ "-" ++ id.version.text ++ (id.slot.map (":" ++ ·)).getD "" ++ "::" ++ id.repository

instance : ToString PackageId := ⟨render⟩

def installedRoot? (id : PackageId) : Option InstallRoot := id.origin.installedRoot?

def isInstalled (id : PackageId) : Bool := id.installedRoot?.isSome

def isInstallable (id : PackageId) : Bool := !id.isInstalled

/-- The same version of the package with the same choices, wherever it is from. -/
def isSameAs (a b : PackageId) : Bool :=
  a.name == b.name && a.version == b.version && a.slot == b.slot && a.choices == b.choices

/-- By version, then origin, then repository with the first name best. -/
def comparePreference (a b : PackageId) : Ordering :=
  (compare a.version b.version).then <|
    (compare a.origin b.origin).then (compare b.repository a.repository)

end PackageId

end PackagePlan
