import PackagePlan.Deciding.Finder

/-! # Scores of alternatives

How well a demand suits as the alternative of a choice: best what is met
already, then what is being decided, then what could be installed.
-/

namespace PackagePlan

/-- Requirements that leave newer versions open are liked better. -/
def VersionRange.openness : VersionRange → Int
  | any | newerThan _ | atLeast _ => 9
  | exact _ | sameIgnoringRevision _ | startsWith _ => 2
  | olderThan _ | atMost _ | notEqual _ => 1
  | both r s => min r.openness s.openness

namespace Setting

variable (σ : Setting)

def couldInstall (r : Requirement) (reason : Reason) (place : Resolvent) : Bool :=
  (σ.findDecision place (σ.seeds.constraintsFor σ.db place ++
    [{ demand := r, reason, keep := σ.policy.keep place r reason,
       destination := place.destination }])).isSome

def scoreMissing (reg : Registry) (holder : Resolvent) (holderId : PackageId) (r : Requirement)
    (labels : List Label) : Int :=
  let reason := Reason.dependency
    { holder, holderId, demand := r, labels, alreadyMet := false }
  let places := σ.resolventsMeeting r reason
  if places.any reg.contains then 30 + r.version.openness
  else if places.any (σ.couldInstall r reason) then 20 + r.version.openness
  else if !(σ.db.find (.accepted r.withoutChoices) .all).isEmpty then 10 + r.version.openness
  else 0

def score (reg : Registry) (holder : Resolvent) (d : Dependency) : Int :=
  match d.demand with
  | .blocker b => if σ.db.hasInstalled b.blocked then 0 else 59
  | .package r =>
    if σ.db.hasInstalled r then 50 + r.version.openness
    else if !r.choices.isEmpty && σ.db.hasInstalled r.withoutChoices then 40 + r.version.openness
    else
      match (reg.decision? holder).bind (·.chosen?) with
      | none => 0
      | some id => σ.scoreMissing reg holder id r d.labels

def dependenciesOf (reg : Registry) (holder : Resolvent) (id : PackageId) : List Dependency :=
  (σ.db.treeOf id).dependencies id.choices (σ.score reg holder)

def alreadyMet : Demand → Bool
  | .package r => σ.db.hasInstalled r
  | .blocker b => !σ.db.hasInstalled b.blocked

end Setting

end PackagePlan
