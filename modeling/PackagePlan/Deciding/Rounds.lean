import PackagePlan.Deciding.State

/-! # Deciding everything

Resolvents are decided in order, each with its dependencies, until none is
left; suggestions wait until everything else is decided. Then installed
packages that depend on something removed are removed or broken, which may
leave more to decide. How often this can go on is bounded by the resolvents
that the database and the registry can give rise to.
-/

namespace PackagePlan

inductive Pass
  /-- Those that are not suggestions only. -/
  | required
  | suggested
  deriving DecidableEq

namespace Setting

variable (σ : Setting)

def knownIds (db : Database) : List PackageId := db.ids.values.flatten ++ db.trees.keys

def knownRequirements (db : Database) : List Requirement :=
  db.trees.values.flatMap (·.requirements)

/-- The packages that resolvents can be about, repetitions included. -/
def reachableNames (s : DecidingState) : List PackageName :=
  s.registry.keys.map (·.package) ++ (knownIds σ.db).map (·.name) ++
    (knownRequirements σ.db).map (·.name)

def reachableSlots (s : DecidingState) : List (Option SlotName) :=
  none :: (s.registry.keys.map (·.slot) ++ (knownIds σ.db).map (·.slot) ++
    (knownRequirements σ.db).map (·.slot))

/-- No more resolvents than this can come up. -/
def resolventBound (s : DecidingState) : Nat :=
  (σ.reachableNames s).length * (σ.reachableSlots s).length * Destination.all.length

/-- A bound on how often dependencies are added: a resolvent goes from undecided through nothing,
untaken or taken, to something, and each time its dependencies may be added anew. -/
def budget (s : DecidingState) : Nat := 8 * σ.resolventBound s + 8

/-- Adds the dependencies of the resolvents whose decision has been replaced, at most `fuel`
times. -/
def addPending : Nat → DecidingState → Except Stop (DecidingState × Bool)
  | 0, s => if s.pending.isEmpty then .ok (s, false) else .error .endless
  | fuel + 1, s =>
    match s.pending.toList with
    | [] => .ok (s, false)
    | r :: _ => do
      let s ← σ.addDependencies { s with pending := s.pending.erase r } r
      let (s, _) ← addPending fuel s
      .ok (s, true)

def isDue (pass : Pass) (s : DecidingState) (r : Resolvent) : Bool :=
  match s.registry.get? r with
  | none => false
  | some res =>
    !res.isDecided && (pass == .suggested || !Constraints.allUntaken res.constraints)

def decideOne (s : DecidingState) (r : Resolvent) : Attempt :=
  let s := setDecision s r (σ.decisionFor r (constraintsOf s r))
  σ.addDependencies { s with pending := s.pending.erase r } r

def decideDue (pass : Pass) (s : DecidingState) (rs : List Resolvent) :
    Except Stop (DecidingState × Bool) :=
  rs.foldlM (fun (s, changed) r =>
    if isDue pass s r then (·, true) <$> σ.decideOne s r else .ok (s, changed)) (s, false)

def round (fuel : Nat) (pass : Pass) (s : DecidingState) : Except Stop (DecidingState × Bool) := do
  let (s, added) ← σ.addPending fuel s
  let (s, decided) ← σ.decideDue pass s s.registry.keys
  .ok (s, added || decided)

def settleFrom (fuel : Nat) : Nat → Pass → DecidingState → Attempt
  | 0, _, _ => .error .endless
  | rounds + 1, pass, s => do
    let (s, changed) ← σ.round fuel pass s
    if changed then settleFrom fuel rounds pass s
    else
      match pass with
      | .required => settleFrom fuel rounds .suggested s
      | .suggested => .ok s

def settle (fuel : Nat) (s : DecidingState) : Attempt := σ.settleFrom fuel (fuel + 2) .required s

def removedIds (reg : Registry) : List (Resolvent × PackageId) :=
  reg.decisions.flatMap fun (r, d) =>
    match d with
    | .remove rem => if rem.taken then rem.ids.map (r, ·) else []
    | _ => []

def arrivingIds (reg : Registry) : List PackageId :=
  reg.decisions.filterMap fun (r, d) =>
    match d with
    | .change c => if c.taken && r.destination == .slash then some c.id else none
    | _ => none

def staysInstalled (removed : List (Resolvent × PackageId)) (id : PackageId) : Bool :=
  !removed.any (·.2 == id)

/-- The removal that a dependency of an installed id depends on and that nothing makes up for. -/
def lostDependency? (removed : List (Resolvent × PackageId))
    (installed arriving : List PackageId) (dep : Dependency) : Option (Resolvent × PackageId) :=
  match dep.demand with
  | .blocker _ => none
  | .package r =>
    if dep.isSuggestion then none
    else
      match removed.find? fun (_, id) => r.accepts id with
      | none => none
      | some loss =>
        if (installed.filter (staysInstalled removed)).any r.accepts || arriving.any r.accepts then
          none
        else some loss

/-- A resolvent at `/` that is changed, removed or broken already is left as it is. -/
def isSettledAt (reg : Registry) (r : Resolvent) : Bool :=
  match reg.decision? r with
  | some (.change _) | some (.remove _) | some (.broken _) => true
  | _ => false

def breakConstraint (id : PackageId) (reason : Reason) : Constraint where
  demand := Requirement.ofId id
  reason := reason
  destination := .slash
  nothingIsFine := true

def removeConstraint (id : PackageId) (reason : Reason) : Constraint where
  demand := .blocker { blocked := .ofId id, strong := true }
  reason := reason
  destination := .slash
  nothingIsFine := true

/-- Leaves an installed id in place although its dependencies break. -/
def breakId (s : DecidingState) (r : Resolvent) (id : PackageId) (reason : Reason) :
    DecidingState :=
  setDecision (addConstraint (σ.ensure s r) r (breakConstraint id reason)) r
    (.broken { id, taken := true })

def followRemoval (removed : List (Resolvent × PackageId)) (installed arriving : List PackageId)
    (s : DecidingState) (id : PackageId) : Except Stop (DecidingState × Bool) :=
  let r := Resolvent.ofId id .slash
  if !staysInstalled removed id || isSettledAt s.registry r then .ok (s, false)
  else
    match (σ.dependenciesOf s.registry r id).findSome?
        (lostDependency? removed installed arriving) with
    | none => .ok (s, false)
    | some (holder, removing) =>
      let reason := Reason.dependent removing holder
      if σ.policy.removesDependent id then
        (·, true) <$> σ.applyConstraint s r (removeConstraint id reason)
      else .ok (σ.breakId s r id reason, true)

def followRemovals (s : DecidingState) : Except Stop (DecidingState × Bool) :=
  let removed := removedIds s.registry
  let arriving := arrivingIds s.registry
  let installed := IdSelection.sortIds (σ.db.installedIds .slash)
  if removed.isEmpty then .ok (s, false)
  else
    installed.foldlM (fun (s, changed) id => do
      let (s, followed) ← σ.followRemoval removed installed arriving s id
      .ok (s, changed || followed)) (s, false)

def resolveFrom (fuel : Nat) : Nat → DecidingState → Attempt
  | 0, _ => .error .endless
  | rounds + 1, s => do
    let s ← σ.settle fuel s
    let (s, changed) ← σ.followRemovals s
    if changed then resolveFrom fuel rounds s else .ok s

/-- Decides every resolvent, together with all that follows from the decisions. -/
def resolve (s : DecidingState) : Attempt :=
  let fuel := σ.budget s
  σ.resolveFrom fuel ((fuel + 1) * (fuel + 1)) s

end Setting

end PackagePlan
