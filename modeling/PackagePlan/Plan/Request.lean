import PackagePlan.Deciding.Placement
import PackagePlan.Plan.Basic

/-! # Requests

What the user asks for, and the plan that answers it. Attempts are repeated
with what each of them has learnt until one comes to its end or there have
been too many.
-/

namespace PackagePlan

inductive PlanError
  | noSuchSet (name : SetName)
  | noDestination (e : NoDestination)
  | restartLimit (count : Nat) (cycle : List String)
  | unresolved (rs : List Resolvent)
  | unconfirmed (rs : List Resolvent)
  | endless

def PlanError.message : PlanError → String
  | noSuchSet name => s!"No such set '{name}'"
  | noDestination e =>
    s!"No destination repository for {e.resolvent.render}: nowhere to put {e.id.render}"
  | restartLimit count cycle =>
    s!"Gave up after {count} restarts; conflicting constraints: " ++ Text.join ", " cycle
  | unresolved rs => "Could not find a suitable candidate for: " ++ Notes.renderNames rs
  | unconfirmed rs => "Changes need confirmation: " ++ Notes.renderNames rs
  | endless => "Removals never come to an end"

structure Request where
  targets : List (Requirement × Reason) := []
  removals : List Requirement := []

namespace Request

def addTarget (q : Request) (r : Requirement) : Request :=
  { q with targets := q.targets ++ [(r, .target)] }

def addSet (q : Request) (db : Database) (name : SetName) : Except PlanError Request :=
  match db.set? name with
  | none => .error (.noSuchSet name)
  | some rs => .ok { q with targets := q.targets ++ rs.map fun r => (r, .set name .target) }

def addRemoval (q : Request) (r : Requirement) : Request :=
  { q with removals := q.removals ++ [r] }

def attempt (q : Request) (σ : Setting) : Attempt := do
  let s ← q.targets.foldlM (fun s (r, reason) => σ.addTarget s r reason) {}
  let s ← q.removals.foldlM σ.addRemoval s
  σ.resolve s

end Request

def Restarts.limitError (restarts : List Restart) : PlanError :=
  .restartLimit restarts.length (cycle restarts)

/-- The restarts so far, and what the next attempt starts with. -/
structure RestartLog where
  limit : Nat
  seeds : Seeds
  restarts : List Restart := []

namespace RestartLog

def add (log : RestartLog) (R : Restart) : RestartLog :=
  { log with
    seeds := log.seeds.learn R.resolvent R.carried
    restarts := log.restarts ++ [R] }

/-- Adds a restart to the log. It is an error if there are too many of them. -/
def record (log : RestartLog) (R : Restart) : RestartLog × Option PlanError :=
  let log := log.add R
  (log, if log.restarts.length ≤ log.limit then none else some (Restarts.limitError log.restarts))

variable {log log' : RestartLog} {R : Restart} {e : PlanError}

theorem length_add : (log.add R).restarts.length = log.restarts.length + 1 :=
  List.length_append

theorem length_add_le_iff :
    (log.add R).restarts.length ≤ (log.add R).limit ↔ log.restarts.length < log.limit := by
  rw [length_add]
  exact Iff.rfl

theorem record_eq_none_iff :
    log.record R = (log', none) ↔ log.restarts.length < log.limit ∧ log.add R = log' := by
  rw [← length_add_le_iff (R := R)]
  by_cases hle : (log.add R).restarts.length ≤ (log.add R).limit
  · simp [record, hle]
  · simp [record, hle]

theorem record_eq_some_iff : log.record R = (log', some e) ↔
    log.limit ≤ log.restarts.length ∧ log.add R = log' ∧
      Restarts.limitError (log.add R).restarts = e := by
  rw [← Nat.not_lt, ← length_add_le_iff (R := R)]
  by_cases hle : (log.add R).restarts.length ≤ (log.add R).limit
  · simp [record, hle]
  · simp [record, hle]

theorem left_lt_of_record (h : log.record R = (log', none)) :
    log'.limit - log'.restarts.length < log.limit - log.restarts.length := by
  obtain ⟨hlt, rfl⟩ := record_eq_none_iff.1 h
  rw [length_add]
  exact Nat.sub_succ_lt_self _ _ hlt

end RestartLog

structure Decided where
  registry : Registry
  restarts : List Restart

namespace Request

variable (q : Request) (db : Database) (policy : Policy)

/-- Gives the decisions of an attempt their places and confirmations. -/
def finish (σ : Setting) (s : DecidingState) : Except PlanError Registry :=
  match σ.placeAll s with
  | (_, some e) => .error (.noDestination e)
  | (s, none) => .ok (σ.confirmAll s).registry

/-- Attempts until one comes to its end or there have been too many restarts. -/
def decideFrom (log : RestartLog) : Except PlanError Decided :=
  let σ : Setting := { db, policy, seeds := log.seeds }
  match q.attempt σ with
  | .ok s => (finish σ s).map fun registry => { registry, restarts := log.restarts }
  | .error .endless => .error .endless
  | .error (.restart R _) =>
    match _h : log.record R with
    | (_, some e) => .error e
    | (log, none) => decideFrom log
termination_by log.limit - log.restarts.length
decreasing_by exact RestartLog.left_lt_of_record _h

section

variable {q db policy} {log : RestartLog} {R : Restart} {s : DecidingState}

theorem decideFrom_of_ok (ha : q.attempt ⟨db, policy, log.seeds⟩ = .ok s) :
    q.decideFrom db policy log =
      (finish ⟨db, policy, log.seeds⟩ s).map fun registry =>
        { registry, restarts := log.restarts } := by
  rw [decideFrom]
  simp only [ha]

theorem decideFrom_of_endless (ha : q.attempt ⟨db, policy, log.seeds⟩ = .error .endless) :
    q.decideFrom db policy log = .error .endless := by
  rw [decideFrom]
  simp only [ha]

theorem decideFrom_of_lt (hlt : log.restarts.length < log.limit)
    (ha : q.attempt ⟨db, policy, log.seeds⟩ = .error (.restart R s)) :
    q.decideFrom db policy log = q.decideFrom db policy (log.add R) := by
  rw [decideFrom]
  simp only [ha]
  split
  · next h => exact absurd hlt (Nat.not_lt_of_le (RestartLog.record_eq_some_iff.1 h).1)
  · next h => rw [(RestartLog.record_eq_none_iff.1 h).2]

theorem decideFrom_of_ge (hge : log.limit ≤ log.restarts.length)
    (ha : q.attempt ⟨db, policy, log.seeds⟩ = .error (.restart R s)) :
    q.decideFrom db policy log = .error (Restarts.limitError (log.add R).restarts) := by
  rw [decideFrom]
  simp only [ha]
  split
  · next h => rw [(RestartLog.record_eq_some_iff.1 h).2.2]
  · next h => exact absurd (RestartLog.record_eq_none_iff.1 h).1 (Nat.not_lt_of_le hge)

end

def decide (seeds : Seeds) (maxRestarts : Nat) : Except PlanError Decided :=
  decideFrom q db policy { limit := maxRestarts, seeds }

end Request

def Decided.graph (d : Decided) : PlanGraph := .ofRegistry d.registry

def Decided.schedule (d : Decided) (policy : Policy) : Schedule :=
  Schedule.ofGraph d.graph policy.urgency d.registry.jobNodes.contains

def Decided.plan (d : Decided) (policy : Policy) : Plan :=
  .ofSchedule d.registry d.graph (d.schedule policy) d.restarts

/-- Decides and orders everything that was asked for. -/
def Request.plan (q : Request) (db : Database) (policy : Policy) (seeds : Seeds)
    (maxRestarts : Nat) : Except PlanError Plan :=
  (q.decide db policy seeds maxRestarts).map (·.plan policy)

def Plan.checkExecutable (p : Plan) : Except PlanError Unit :=
  if !p.takenUnable.isEmpty then .error (.unresolved p.takenUnable)
  else if !p.unconfirmed.isEmpty then .error (.unconfirmed p.unconfirmed)
  else .ok ()

end PackagePlan
