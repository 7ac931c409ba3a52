import PackagePlan.Deciding.Restart
import PackagePlan.Deciding.Score

/-! # Applying constraints

The state of an attempt is a registry and the resolvents whose dependencies
have yet to be added. A constraint on a resolvent that is decided already is
checked against the decision: nothing may be replaced by something, but any
other decision that has to be replaced starts everything over.
-/

namespace PackagePlan

structure DecidingState where
  registry : Registry := ∅
  /-- Resolvents whose decision has been replaced. -/
  pending : OrderedSet Resolvent := ∅
  deriving Inhabited

inductive Stop
  /-- Everything has to start over; `state` is how far the attempt got. -/
  | restart (r : Restart) (state : DecidingState)
  /-- The attempt would go on for ever, adding the same constraint again and again. -/
  | endless

abbrev Attempt := Except Stop DecidingState

namespace Setting

variable (σ : Setting)

def ensure (s : DecidingState) (r : Resolvent) : DecidingState :=
  { s with registry := s.registry.ensure r (σ.seeds.constraintsFor σ.db) }

def setDecision (s : DecidingState) (r : Resolvent) (d : Decision) : DecidingState :=
  { s with registry := s.registry.decide r (some d) }

def addConstraint (s : DecidingState) (r : Resolvent) (c : Constraint) : DecidingState :=
  { s with registry := s.registry.addConstraint r c }

def constraintsOf (s : DecidingState) (r : Resolvent) : List Constraint :=
  ((s.registry.get? r).map (·.constraints)).getD []

/-- A new decision for a resolvent whose decision `previous` fails the constraint. -/
def reconsider (s : DecidingState) (r : Resolvent) (c : Constraint) (previous : Decision) :
    Attempt :=
  let cs := constraintsOf s r ++ [c]
  match σ.findDecision r cs with
  | none => .ok (setDecision s r (σ.cannotDecide r cs))
  | some d =>
    match previous with
    | .nothing _ => .ok { setDecision s r d with pending := s.pending.insert r }
    | _ =>
      if σ.policy.mayRestart r then
        .error (.restart
          { resolvent := r, previous, problem := c, proposed := d, carried := c.forRestart } s)
      else .ok (setDecision s r (σ.cannotDecide r cs))

def applyConstraint (s : DecidingState) (r : Resolvent) (c : Constraint) : Attempt := do
  let s := σ.ensure s r
  let s ←
    match s.registry.decision? r with
    | some d => if d.meets c then .ok s else σ.reconsider s r c d
    | none => .ok s
  .ok (addConstraint s r c)

def applyAll (s : DecidingState) (cs : List (Resolvent × Constraint)) : Attempt :=
  cs.foldlM (fun s (r, c) => σ.applyConstraint s r c) s

def targetConstraints (r : Requirement) (reason : Reason) : List (Resolvent × Constraint) :=
  (σ.resolventsFor r reason).map fun place =>
    (place, { demand := r, reason, keep := σ.policy.keep place r reason,
              destination := place.destination })

def addTarget (s : DecidingState) (r : Requirement) (reason : Reason) : Attempt :=
  σ.applyAll s (σ.targetConstraints r reason)

/-- The constraints that ask for what is installed and meets the requirement to go. -/
def removalConstraints (r : Requirement) : List (Resolvent × Constraint) :=
  (IdSelection.bestPerSlot (σ.db.find (.accepted r) (.installedAt .slash))).map fun id =>
    (.ofId id .slash,
      { demand := .blocker { blocked := r, strong := true }, reason := .target,
        destination := .slash, nothingIsFine := true })

def addRemoval (s : DecidingState) (r : Requirement) : Attempt :=
  σ.applyAll s (σ.removalConstraints r)

/-- An id that is installed from source may have to be built as a binary first. -/
def viaBinaryConstraints (r : Resolvent) (id : PackageId) : List (Resolvent × Constraint) :=
  if r.destination = .slash ∧ id.origin = .source ∧ σ.policy.viaBinary id then
    [(.ofId id .binary,
      { demand := Requirement.ofId id, reason := .viaBinary r, destination := .binary })]
  else []

def dependencyConstraints (holder : Resolvent) (d : Decision) (id : PackageId)
    (dep : Dependency) : List (Resolvent × Constraint) :=
  let alreadyInstalled :=
    match dep.demand with
    | .package r => σ.db.hasInstalled r
    | .blocker _ => false
  let interest := σ.policy.interest
    { resolvent := holder, decision := d, id, dependency := dep, alreadyInstalled }
  let alreadyMet := σ.alreadyMet dep.demand
  if interest = .ignore then []
  else
    match dep.demand with
    | .package r =>
      let presumed := σ.policy.presumes r
      let reason : Reason :=
        if presumed then .presumed
        else .dependency { holder, holderId := id, demand := r, labels := dep.labels, alreadyMet }
      (σ.resolventsFor r reason).map fun place =>
        (place, { demand := r, reason, keep := σ.policy.keep place r reason,
                  destination := place.destination, untaken := interest = .untaken,
                  nothingIsFine := presumed })
    | .blocker b =>
      let reason : Reason :=
        .blocker { holder, holderId := id, demand := b, labels := dep.labels, alreadyMet }
      (σ.resolventsBlocked b).map fun place =>
        (place, { demand := b, reason, destination := place.destination,
                  nothingIsFine := !σ.db.hasInstalled b.blocked })

/-- The id whose dependencies a decision brings in. -/
def followed? : Decision → Option PackageId
  | .change c => if c.taken then some c.id else none
  | .existing k => if k.taken then some k.id else none
  | _ => none

def addDependencies (s : DecidingState) (r : Resolvent) : Attempt :=
  match s.registry.decision? r with
  | none => .ok s
  | some d =>
    match followed? d with
    | none => .ok s
    | some id => do
      let s ← σ.applyAll s (match d with
        | .change _ => σ.viaBinaryConstraints r id
        | _ => [])
      σ.applyAll s
        ((σ.dependenciesOf s.registry r id).flatMap (σ.dependencyConstraints r d id))

end Setting

end PackagePlan
