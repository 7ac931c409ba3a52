import PackagePlan.Deciding.Restart
import PackagePlan.Plan.Job

/-! # Plans

The jobs to carry out, in order, with what stands in their way. Problems with
single resolvents are recorded in the plan, so that all of them can be
reported together.
-/

namespace PackagePlan

structure Plan where
  registry : Registry := ∅
  execute : List Job := []
  /-- Suggestions that are not taken. -/
  untaken : List Job := []
  takenUnable : List Resolvent := []
  untakenUnable : List Resolvent := []
  unconfirmed : List Resolvent := []
  brokenCycles : List (List Resolvent) := []
  unresolvedCycles : List (List Resolvent) := []
  restarts : List Restart := []

namespace Plan

/-- The requirements of the `i`-th job, in the order of the jobs required. -/
def requirementsAt (jobs : List Job) (i : Nat) (arrows : OrderedMap Resolvent Edge) :
    List JobRequirement :=
  let found := arrows.entries.filterMap fun (r, e) =>
    match jobs.findIdx? (·.resolvent == r) with
    | some j => if j < i then some ⟨j, RequirementKinds.ofEdge e⟩ else none
    | none => none
  sortBy (fun a b => compare a.index b.index) found

def errorsOf (before : List Job) (j : Job) (requirements : List JobRequirement)
    (unable : List Resolvent) : List JobError :=
  unable.map .dependsOnUnable ++
    (if j.decision.confirmations.isEmpty then [] else [.unconfirmed j.decision.confirmations]) ++
    (requirements.filter (·.isHard)).filterMap fun req =>
      (before[req.index]?).bind fun required =>
        if required.isError then some (.dependsOnFailedJob required.id) else none

/-- Gives a job its requirements and errors, and puts it after those that have theirs. -/
def completeJob (g : PlanGraph) (jobs : List Job) (done : List Job) (j : Job) : List Job :=
  let found := ArrowSearch.start g (fun r => jobs.any (·.resolvent == r)) j.resolvent
  let requirements := requirementsAt jobs done.length found.arrows
  done ++ [{ j with
    requirements, errors := errorsOf done j requirements found.unable.toList }]

def executeJobs (reg : Registry) (g : PlanGraph) (s : Schedule) : List Job :=
  let jobs := s.order.filterMap (Job.ofNode? reg s)
  jobs.foldl (completeJob g jobs) []

def isUntakenChange : Decision → Bool
  | .change c => !c.taken
  | _ => false

def deciding (reg : Registry) (p : Decision → Bool) : List (Resolvent × Decision) :=
  reg.decisions.filter fun (_, d) => p d

def ofSchedule (reg : Registry) (g : PlanGraph) (s : Schedule) (restarts : List Restart) :
    Plan where
  registry := reg
  execute := executeJobs reg g s
  untaken := (deciding reg isUntakenChange).map fun (r, d) =>
    { kind := .untakenInstall, resolvent := r, decision := d }
  takenUnable := (deciding reg fun d => d.isUnable && d.taken).map (·.1)
  untakenUnable := (deciding reg fun d => d.isUnable && !d.taken).map (·.1)
  unconfirmed := (deciding reg fun d => d.taken && !d.confirmations.isEmpty).map (·.1)
  brokenCycles := s.brokenCycles
  unresolvedCycles := s.unresolvedCycles
  restarts := restarts

def jobs (p : Plan) : List Job := p.execute ++ p.untaken

def job? (p : Plan) (id : String) : Option Job := p.jobs.find? (·.id == id)

def readyIds (p : Plan) : List String := (p.execute.filter (!·.isError)).map Job.id

def failingIds (p : Plan) : List String := (p.execute.filter (·.isError)).map Job.id

def installingIds (p : Plan) : List String := (p.execute.filter (·.kind.installs)).map Job.id

/-- Every requirement: the index of a job, that of the one it requires, and when it counts. -/
def requirements (p : Plan) : List (Nat × Nat × RequirementKinds) :=
  (p.execute.zipIdx).flatMap fun (j, i) => j.requirements.map fun r => (i, r.index, r.kinds)

/-- One bit each for undecided resolvents, missing confirmations and unresolved cycles. -/
def exitStatus (p : Plan) : Nat :=
  (if p.takenUnable.isEmpty then 0 else 1) + (if p.unconfirmed.isEmpty then 0 else 2) +
    if p.unresolvedCycles.isEmpty then 0 else 4

def isClean (p : Plan) : Bool := p.exitStatus == 0

end Plan

end PackagePlan
