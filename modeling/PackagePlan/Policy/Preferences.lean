import PackagePlan.Policy.Basic

/-! # Preferences

Lists of requirements and switches from which a policy is made.
-/

namespace PackagePlan

structure Permits where
  downgrade : Bool := false
  oldVersion : Bool := false
  uninstall : Bool := false
  breakage : Bool := false
  removeProtected : Bool := false
  deriving DecidableEq

def Permits.grants (p : Permits) : Confirmation → Bool
  | .downgrade => p.downgrade
  | .notBestVersion => p.oldVersion
  | .uninstall => p.uninstall
  | .breakage => p.breakage
  | .removeProtected => p.removeProtected

/-- How freely installed ids are kept, by the kind of reason. -/
structure KeepModes where
  targets : KeepMode := .onlyIfTransient
  setTargets : KeepMode := .ifSame
  dependencies : KeepMode := .ifPossible
  deriving DecidableEq

structure Preferences where
  targetDestination : Destination
  promoteBinaries : Bool
  keep : KeepModes
  permits : Permits
  rules : InterestRules
  repositories : OrderedMap Destination RepositoryName
  /-- Keep what is installed of these where possible. -/
  keepInstalled : List Requirement
  reinstall : List Requirement
  presumed : List Requirement
  hidden : List Requirement
  notUsable : List Requirement
  protectedIds : List Requirement
  removeIfDependent : List Requirement
  noRestartsFor : List Requirement
  early : List Requirement
  late : List Requirement
  viaBinary : List Requirement

namespace Preferences

def named (rs : List Requirement) (r : Resolvent) : Bool := rs.any (·.names r)

def listed (rs : List Requirement) (id : PackageId) : Bool := rs.any (·.accepts id)

def keepMode (p : Preferences) (r : Resolvent) (reason : Reason) : KeepMode :=
  if named p.reinstall r then .never
  else if named p.keepInstalled r then .ifPossible
  else
    match reason with
    | .target => p.keep.targets
    | .set .. => p.keep.setTargets
    | .dependency _ => p.keep.dependencies
    | _ => .ifPossible

def policy (p : Preferences) : Policy where
  targetDestination := p.targetDestination
  keep r _ reason := p.keepMode r reason
  confirms _ c := p.permits.grants c
  mayRestart r := !named p.noRestartsFor r
  urgency r :=
    if named p.early r then some .early
    else if named p.late r then some .late
    else none
  repositoryFor r _ := p.repositories.get? r.destination
  removesDependent := listed p.removeIfDependent
  hides _ := listed p.hidden
  allows id := !listed p.notUsable id
  promoteBinaries := p.promoteBinaries
  interest := p.rules.interest
  viaBinary := listed p.viaBinary
  protects := listed p.protectedIds
  presumes r := p.presumed.any (·.name == r.name)

end Preferences

end PackagePlan
