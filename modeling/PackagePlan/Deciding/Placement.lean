import PackagePlan.Deciding.Rounds

/-! # Placement and confirmation

Once everything is decided, changes are given the repository they go to and
the ids they replace, and decisions the confirmations that the policy has not
given.
-/

namespace PackagePlan

structure NoDestination where
  resolvent : Resolvent
  id : PackageId

namespace Setting

variable (σ : Setting)

/-- What is present at the destination and has the version or the slot of the new id. -/
def replacedBy (r : Resolvent) (id : PackageId) (repository : RepositoryName) : List PackageId :=
  (IdSelection.sortIds (σ.db.find (.package id.name) r.destination.presence)).filter fun old =>
    (r.destination.installRoot?.isSome || old.repository == repository) &&
      (old.version == id.version || old.slot == id.slot)

def place (r : Resolvent) : Decision → Except NoDestination Decision
  | .change c =>
    match c.placement with
    | some _ => .ok (.change c)
    | none =>
      match σ.policy.repositoryFor r c.id with
      | none => .error ⟨r, c.id⟩
      | some repository =>
        .ok (.change
          { c with placement := some ⟨repository, σ.replacedBy r c.id repository⟩ })
  | d => .ok d

/-- Places the changes in the order of their resolvents, up to the first that has nowhere to go. -/
def placeAll (s : DecidingState) : DecidingState × Option NoDestination :=
  s.registry.decisions.foldl (fun (s, failure) (r, d) =>
    match failure with
    | some _ => (s, failure)
    | none =>
      match σ.place r d with
      | .ok d => (setDecision s r d, none)
      | .error e => (s, some e)) (s, none)

def neededConfirmations (cs : List Constraint) : Decision → List Confirmation
  | .change c =>
    let older := (c.placement.map (·.replacing)).getD []
    (if older.any fun id => compare id.version c.id.version == .gt then [.downgrade] else []) ++
      if c.isBest then [] else [.notBestVersion]
  | .remove rem =>
    (if rem.ids.any σ.policy.protects then [.removeProtected] else []) ++
      if Constraints.requestRemoval cs then [] else [.uninstall]
  | .broken _ => [.breakage]
  | _ => []

def confirm (r : Resolvent) (cs : List Constraint) (d : Decision) : Decision :=
  match (σ.neededConfirmations cs d).filter (!σ.policy.confirms r ·) with
  | [] => d
  | unconfirmed => d.withConfirmations unconfirmed

def confirmAll (s : DecidingState) : DecidingState :=
  s.registry.decisions.foldl
    (fun s (r, d) => setDecision s r (σ.confirm r (constraintsOf s r) d)) s

end Setting

end PackagePlan
