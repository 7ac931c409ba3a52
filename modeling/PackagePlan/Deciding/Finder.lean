import PackagePlan.Deciding.Candidates

/-! # Finding a decision

The decision that meets all constraints on a resolvent, if there is one, and
the test whether a decision meets a constraint.
-/

namespace PackagePlan

/-- The last id that every constraint accepts. The flag is false when a better id was passed over
for something other than the dependency of a package. -/
def pickFrom (cs : List Constraint) : List PackageId → Bool → Option PackageId × Bool
  | [], _ => (none, false)
  | id :: worse, isBest =>
    match Constraints.unmetBy cs id with
    | [] => (some id, isBest)
    | unmet => pickFrom cs worse (isBest && unmet.all (·.reason.isDependency))

def pick (cs : List Constraint) (ids : List PackageId) : Option PackageId × Bool :=
  pickFrom cs ids.reverse true

def PackageId.sharesChoices (a b : PackageId) : Bool :=
  a.choices.entries.all fun (flag, on) => (b.choices.get? flag).all (· == on)

def Decision.meets (d : Decision) (c : Constraint) : Bool :=
  (match d with
    | .remove _ => c.isBlocker || c.nothingIsFine
    | d => (d.chosen?.map c.accepts).getD c.nothingIsFine) &&
  (match d with
    | .existing k => c.keep.permits k.isSame k.isSameVersion k.isTransient
    | _ => true) &&
  (c.untaken || d.taken)

namespace Setting

variable (σ : Setting)

/-- Removing what is present, if no constraint needs it and the policy or a blocker agrees. -/
def tryRemoval (r : Resolvent) (cs : List Constraint) (ids : List PackageId) : Option Decision :=
  if cs.all (fun c => c.isBlocker || c.nothingIsFine || c.untaken) &&
      (Constraints.requestRemoval cs || σ.policy.mayRemove r ids) then
    some (.remove { ids, taken := !Constraints.allUntaken cs })
  else none

/-- What to do when an installed id meets the constraints: keep it, or put `installable` in its
place. -/
def keepOrReplace (cs : List Constraint) (existing : PackageId) (installable : Option PackageId)
    (isBest : Bool) : Option Decision :=
  let taken := !Constraints.allUntaken cs
  let mode := Constraints.strictest cs
  let isTransient := existing.transient
  match installable with
  | none =>
    if mode.permits isTransient isTransient isTransient then
      some (.existing
        { id := existing, isSame := true, isSameVersion := true, isTransient, taken })
    else none
  | some id =>
    let isSameVersion := existing.version == id.version
    let isSame := isSameVersion && existing.sharesChoices id
    if mode.permits isSame isSameVersion isTransient then
      some (.existing { id := existing, isSame, isSameVersion, isTransient, taken })
    else some (.change { id, isBest, taken })

def findDecision (r : Resolvent) (cs : List Constraint) : Option Decision :=
  let taken := !Constraints.allUntaken cs
  let (installable, isBest) := pick cs (σ.candidates r)
  match (pick cs (σ.present r)).1 with
  | some existing => keepOrReplace cs existing installable isBest
  | none =>
    let present := σ.present r
    if !present.isEmpty && (Constraints.nothingIsFine cs || installable.isNone) then
      σ.tryRemoval r cs present
    else if Constraints.nothingIsFine cs then some (.nothing taken)
    else installable.map fun id => .change { id, isBest, taken }

def reject (cs : List Constraint) (id : PackageId) : Rejection :=
  ⟨id, Constraints.unmetBy cs id⟩

def cannotDecide (r : Resolvent) (cs : List Constraint) : Decision :=
  .unable (((σ.present r).getLast?.toList ++ σ.offered r).map (reject cs))
    (!Constraints.allUntaken cs)

def decisionFor (r : Resolvent) (cs : List Constraint) : Decision :=
  (σ.findDecision r cs).getD (σ.cannotDecide r cs)

end Setting

end PackagePlan
