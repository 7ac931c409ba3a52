import PackagePlan.Plan.Schedule

/-! # Jobs

The steps of a plan. The requirements of a job are earlier jobs that the graph
leads to from it, directly or through resolvents that nothing is done for.
-/

namespace PackagePlan

inductive JobKind
  | install
  | createBinary
  | uninstall
  /-- A suggestion that is not taken, and is never carried out. -/
  | untakenInstall
  deriving DecidableEq

namespace JobKind

def name : JobKind → String
  | install => "install"
  | createBinary => "create-binary"
  | uninstall => "uninstall"
  | untakenInstall => "untaken-install"

def installs : JobKind → Bool
  | install | createBinary => true
  | uninstall | untakenInstall => false

def ofDecision? (r : Resolvent) : Decision → Option JobKind
  | .change _ => some (if r.destination = .binary then createBinary else install)
  | .remove _ => some uninstall
  | _ => none

end JobKind

/-- When a requirement on an earlier job counts. -/
structure RequirementKinds where
  forSatisfied : Bool
  /-- For the order, even when jobs are carried out on their own. -/
  forIndependent : Bool
  always : Bool
  fetching : Bool
  deriving DecidableEq

namespace RequirementKinds

def ofEdge (e : Edge) : RequirementKinds :=
  let unmetBuild := e.build && !e.buildAllMet
  let unmetRun := e.run && !e.runAllMet
  { forSatisfied := unmetBuild || unmetRun, forIndependent := true,
    always := unmetBuild || !e.hazards.isEmpty, fetching := e.fetch }

def names (k : RequirementKinds) : List String :=
  (if k.forSatisfied then ["require-for-satisfied"] else []) ++
    (if k.forIndependent then ["require-for-independent"] else []) ++
    (if k.always then ["require-always"] else []) ++
    if k.fetching then ["fetching"] else []

end RequirementKinds

structure JobRequirement where
  index : Nat
  kinds : RequirementKinds
  deriving DecidableEq

/-- If the required job fails, so does the one that requires it. -/
def JobRequirement.isHard (r : JobRequirement) : Bool := r.kinds.always || r.kinds.forSatisfied

inductive JobError
  | dependsOnUnable (r : Resolvent)
  | unconfirmed (cs : List Confirmation)
  | dependsOnFailedJob (id : String)

def JobError.render : JobError → String
  | dependsOnUnable r => "depends on " ++ r.render ++ ", which cannot be resolved"
  | unconfirmed cs => "needs confirmation: " ++ Confirmation.renderList cs
  | dependsOnFailedJob id => "depends on failing job " ++ id

structure Job where
  kind : JobKind
  resolvent : Resolvent
  decision : Decision
  requirements : List JobRequirement := []
  notes : List String := []
  /-- The cycles in which the place of the job is arbitrary. -/
  cycles : List (List Resolvent) := []
  errors : List JobError := []

namespace Job

def id (j : Job) : String := j.kind.name ++ ":" ++ j.resolvent.render

def isError (j : Job) : Bool := !j.errors.isEmpty

def render (j : Job) : String := j.id ++ " (" ++ j.decision.render ++ ")"

instance : ToString Job := ⟨render⟩

def ofNode? (reg : Registry) (s : Schedule) (n : ScheduledNode) : Option Job := do
  let decision ← reg.decision? n.resolvent
  let kind ← JobKind.ofDecision? n.resolvent decision
  some
    { kind, resolvent := n.resolvent, decision, notes := n.notes,
      cycles :=
        if n.inUnresolvedCycle then
          [(s.unresolvedCycles.find? (·.contains n.resolvent)).getD []]
        else [] }

end Job

/-- A search from one job along the edges of the graph. -/
structure ArrowSearch where
  /-- The jobs reached, with what the first edges of the ways to them carry. -/
  arrows : OrderedMap Resolvent Edge := ∅
  unable : OrderedSet Resolvent := ∅
  visited : OrderedSet Resolvent
  stack : List (Resolvent × Option Edge)

namespace ArrowSearch

variable (g : PlanGraph) (isJob : Resolvent → Bool)

/-- Follows one edge: a way ends at a job, and goes through any other node only once. -/
def follow (first : Option Edge) (s : ArrowSearch) (arrow : Resolvent × Edge) : ArrowSearch :=
  let e := first.getD arrow.2
  let r := arrow.1
  if isJob r then { s with arrows := s.arrows.alter r fun old => (old.map (·.merge e)).getD e }
  else if s.visited.contains r then s
  else { s with visited := s.visited.insert r, stack := (r, some e) :: s.stack }

def expand (s : ArrowSearch) (node : Resolvent) (first : Option Edge) : ArrowSearch :=
  let s := { s with unable := s.unable.union ((g.unable.get? node).getD ∅) }
  (g.edgesFrom node).foldl (follow isJob first) s

def run : Nat → ArrowSearch → ArrowSearch
  | 0, s => s
  | fuel + 1, s =>
    match s.stack with
    | [] => s
    | (node, first) :: stack => run fuel (expand g isJob { s with stack } node first)

/-- Every node is gone on from at most once. -/
def start (r : Resolvent) : ArrowSearch :=
  run g isJob (g.nodes.size + 1) { visited := .ofList [r], stack := [(r, none)] }

end ArrowSearch

end PackagePlan
