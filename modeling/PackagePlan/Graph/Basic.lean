import PackagePlan.Decision.Registry
import PackagePlan.Graph.Components
import PackagePlan.Graph.Edge

/-! # Plan graphs

The graph of the final decisions: a node for every decision that is taken and
can be carried out, and an edge from a node to each that it needs first.
-/

namespace PackagePlan

structure PlanGraph where
  nodes : OrderedSet Resolvent := ∅
  edges : OrderedMap Resolvent (OrderedMap Resolvent Edge) := ∅
  /-- The nodes that need something for which no decision was found, with what they need. -/
  unable : OrderedMap Resolvent (OrderedSet Resolvent) := ∅
  deriving Inhabited

namespace PlanGraph

def addNode (g : PlanGraph) (r : Resolvent) : PlanGraph :=
  { g with nodes := g.nodes.insert r }

def addEdge (g : PlanGraph) (a b : Resolvent) (e : Edge) : PlanGraph :=
  if a ≠ b ∧ g.nodes.contains a ∧ g.nodes.contains b ∧ e.isRelevant then
    { g with
      edges := g.edges.alter a fun known =>
        (known.getD ∅).alter b fun old => (old.map (·.merge e)).getD e }
  else g

def addUnable (g : PlanGraph) (a b : Resolvent) : PlanGraph :=
  if g.nodes.contains a then
    { g with unable := g.unable.alter a fun known => (known.getD ∅).insert b }
  else g

def edgeFor? (c : Constraint) : Option (Resolvent × Edge) :=
  match c.reason with
  | .dependency l => some (l.holder, .ofDependency l.labels l.alreadyMet)
  | .blocker l => if l.demand.strong then some (l.holder, .ofHazard .mustNotCoexist) else none
  | .dependent _ holder => some (holder, .ofHazard .removeDependentsFirst)
  | .viaBinary other => some (other, .ofHazard .viaBinary)
  | .target | .set .. | .preset _ | .presetFor .. | .presumed => none

def addEdgesTo (g : PlanGraph) (r : Resolvent) (cs : List Constraint) : PlanGraph :=
  (cs.filterMap edgeFor?).foldl (fun g (a, e) => g.addEdge a r e) g

def noteUnable (g : PlanGraph) (r : Resolvent) (cs : List Constraint) : PlanGraph :=
  ((cs.filter (!·.untaken)).filterMap (·.reason.holder?)).foldl (·.addUnable · r) g

def addResolution (g : PlanGraph) (r : Resolvent) (res : Resolution) : PlanGraph :=
  match res.decision with
  | none => g
  | some d =>
    if d.isScheduled then g.addEdgesTo r res.constraints
    else if d.isUnable && d.taken then g.noteUnable r res.constraints
    else g

def takenAtSlash (p : Decision → Bool) (reg : Registry) : List Resolvent :=
  (reg.decisions.filter fun (r, d) => r.destination == .slash && d.taken && p d).map (·.1)

def isRemoval : Decision → Bool
  | .remove _ => true
  | _ => false

def isInstall : Decision → Bool
  | .change _ => true
  | _ => false

/-- A slot that is removed waits for other slots of its package to be installed. -/
def addReplacements (g : PlanGraph) (reg : Registry) : PlanGraph :=
  (takenAtSlash isRemoval reg).foldl (fun g old =>
    ((takenAtSlash isInstall reg).filter fun new =>
      new.package == old.package && new.slot != old.slot).foldl
      (fun g new => g.addEdge old new (.ofHazard .removeAfterReplacement)) g) g

def ofNodes (rs : List Resolvent) : PlanGraph := { nodes := .ofList rs }

def ofRegistry (reg : Registry) : PlanGraph :=
  let nodes := (reg.decisions.filter (·.2.isScheduled)).map (·.1)
  (reg.entries.foldl (fun g (r, res) => g.addResolution r res) (ofNodes nodes)).addReplacements reg

def edgesFrom (g : PlanGraph) (a : Resolvent) : List (Resolvent × Edge) :=
  (g.edges.getD a ∅).entries

def edge? (g : PlanGraph) (a b : Resolvent) : Option Edge := (g.edges.get? a).bind (·.get? b)

def edgeList (g : PlanGraph) : List (Resolvent × Resolvent × Edge) :=
  g.edges.entries.flatMap fun (a, arrows) => arrows.entries.map fun (b, e) => (a, b, e)

def edgeCount (g : PlanGraph) : Nat := g.edgeList.length

/-- The members to which kept edges lead from `a`, last first. -/
def successors (g : PlanGraph) (members : OrderedSet Resolvent) (keep : Edge → Bool)
    (a : Resolvent) : List Resolvent :=
  (((g.edgesFrom a).filter fun (b, e) => members.contains b && keep e).map (·.1)).reverse

/-- The strong components of the part of the graph with these members and the edges that are kept,
each in order and after those it needs. -/
def componentsOf (g : PlanGraph) (members : OrderedSet Resolvent) (keep : Edge → Bool) :
    List (List Resolvent) :=
  (Components.components (g.successors members keep) members.toList).map fun component =>
    (OrderedSet.ofList component).toList

def components (g : PlanGraph) : List (List Resolvent) := g.componentsOf g.nodes fun _ => true

end PlanGraph

end PackagePlan
