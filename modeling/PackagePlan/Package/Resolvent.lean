import PackagePlan.Package.Id

/-! # Resolvents

A resolvent is one thing to be decided: which version of a package, in one of
its slots, goes to one destination.
-/

namespace PackagePlan

open Std

inductive Destination
  | slash
  | chroot
  /-- A binary package is made, and nothing is installed. -/
  | binary
  deriving DecidableEq, Inhabited

namespace Destination

def all : List Destination := [slash, chroot, binary]

def rank : Destination → Nat
  | slash => 0
  | chroot => 1
  | binary => 2

instance : Ord Destination := ⟨compareOn rank⟩

instance : TransOrd Destination := inferInstanceAs (TransCmp (compareOn rank))

/-- The root whose installed ids count as present at this destination. -/
def installRoot? : Destination → Option InstallRoot
  | slash => some .slash
  | chroot => some .chroot
  | binary => none

def name : Destination → String
  | slash => "install-to-slash"
  | chroot => "install-to-chroot"
  | binary => "create-binary"

def targetName : Destination → String
  | slash => "slash"
  | chroot => "chroot"
  | binary => "binary"

def sign : Destination → String
  | slash => "/"
  | chroot => "chroot"
  | binary => "binary"

def ofName? (s : String) : Option Destination := all.find? (·.name == s)

def ofTargetName? (s : String) : Option Destination := all.find? (·.targetName == s)

end Destination

structure Resolvent where
  package : PackageName
  slot : Option SlotName
  destination : Destination
  deriving DecidableEq, Inhabited

namespace Resolvent

def compareFields : Resolvent → Resolvent → Ordering :=
  compareLex (compareOn package) <| compareLex (compareOn slot) (compareOn destination)

instance : Ord Resolvent := ⟨compareFields⟩

instance : TransOrd Resolvent := by
  change TransCmp compareFields
  unfold compareFields; infer_instance

def ofId (id : PackageId) (destination : Destination) : Resolvent :=
  ⟨id.name, id.slot, destination⟩

/-- An unslotted resolvent covers every slot of its package. -/
def covers (r : Resolvent) (id : PackageId) : Bool :=
  id.name == r.package && (r.slot.isNone || id.slot == r.slot)

def render (r : Resolvent) : String :=
  r.package ++ (r.slot.map (":" ++ ·)).getD "" ++ " -> " ++ r.destination.sign

instance : ToString Resolvent := ⟨render⟩

end Resolvent

end PackagePlan
