import PackagePlan.Decision.Registry
import PackagePlan.Policy.Basic
import PackagePlan.Policy.Seeds

/-! # Candidates

The ids that may be kept or installed for a resolvent, worst first, and the
resolvents that a requirement leads to.
-/

namespace PackagePlan

/-- What decisions depend on besides the constraints. -/
structure Setting where
  db : Database
  policy : Policy
  seeds : Seeds

def Origin.preference (promoteBinaries : Bool) : Origin → Nat
  | binary => if promoteBinaries then 1 else 0
  | source => if promoteBinaries then 0 else 1
  | installed _ => 2

/-- Of the same version and origin, the id of the repository with the first name is best. -/
def PackageId.compareCandidates (promoteBinaries : Bool) (a b : PackageId) : Ordering :=
  (compare a.version b.version).then <|
    (compare (a.origin.preference promoteBinaries) (b.origin.preference promoteBinaries)).then
      (compare b.repository a.repository)

/-- The ids that are present at a destination. A binary is present where binaries are kept. -/
def Destination.presence (d : Destination) : IdFilter :=
  match d.installRoot? with
  | some root => .installedAt root
  | none => .origin .binary

namespace Setting

variable (σ : Setting)

def sortCandidates (ids : List PackageId) : List PackageId :=
  sortBy (PackageId.compareCandidates σ.policy.promoteBinaries) ids

def present (r : Resolvent) : List PackageId :=
  σ.sortCandidates (σ.db.find (.package r.package) (.and r.destination.presence (.slot r.slot)))

/-- What can be installed at the destination; a binary is not made from a binary. -/
def installableFilter (r : Resolvent) : IdFilter :=
  let f : IdFilter := .and .installable (.slot r.slot)
  match r.destination with
  | .binary => .and f (.not (.origin .binary))
  | _ => f

/-- Every id that could be installed in the slot, whether or not it may be. -/
def offered (r : Resolvent) : List PackageId :=
  dropRepeats (σ.sortCandidates (σ.db.find (.package r.package) (installableFilter r)))

def isUsable (r : Resolvent) (id : PackageId) : Bool :=
  !id.masked && !σ.policy.hides r id && σ.policy.allows id

def candidates (r : Resolvent) : List PackageId :=
  dropRepeats (σ.sortCandidates
    ((σ.db.find (.package r.package) (installableFilter r)).filter (σ.isUsable r)))

def destinationsFor : Reason → List Destination
  | .target => [σ.policy.targetDestination]
  | .set _ inner => destinationsFor inner
  | .dependency _ =>
    match σ.policy.targetDestination with
    | .slash => [.slash]
    | d => [.slash, d]
  | .dependent .. | .presumed => [.slash]
  | .viaBinary _ | .preset _ | .presetFor .. | .blocker _ => []

def bestFor? (r : Requirement) : Option PackageId :=
  let f : IdFilter := .and .installable .unmasked
  IdSelection.bestOf <| σ.db.find (.accepted r.withoutChoices) <|
    match r.slot with
    | some slot => .and f (.slot (some slot))
    | none => f

def installedFor (r : Requirement) : List PackageId :=
  IdSelection.bestPerSlot <| σ.db.find (.accepted r) <|
    .installedAt (σ.policy.targetDestination.installRoot?.getD .slash)

def resolventsMeeting (r : Requirement) (reason : Reason) : List Resolvent :=
  (((σ.bestFor? r).toList ++ σ.installedFor r).flatMap fun id =>
    (σ.destinationsFor reason).map (Resolvent.ofId id)).eraseDups

/-- Where nothing meets the requirement, the resolvents at which this is to be reported. -/
def resolventsMissing (r : Requirement) (reason : Reason) : List Resolvent :=
  let slot := r.slot <|> ((IdSelection.bestOf (σ.db.find (.package r.name) .all)).bind (·.slot))
  (σ.destinationsFor reason).map (Resolvent.mk r.name slot)

def resolventsFor (r : Requirement) (reason : Reason) : List Resolvent :=
  match σ.resolventsMeeting r reason with
  | [] => σ.resolventsMissing r reason
  | rs => rs

/-- A blocker concerns its slot, or each slot of its package if it names none. -/
def resolventsBlocked (b : Blocker) : List Resolvent :=
  match b.blocked.slot with
  | some slot => [⟨b.blocked.name, some slot, .slash⟩]
  | none =>
    (IdSelection.bestPerSlot (σ.db.find (.package b.blocked.name) .all)).map
      (Resolvent.ofId · .slash)

end Setting

end PackagePlan
