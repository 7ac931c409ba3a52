import PackagePlan.Graph.Basic
import PackagePlan.Policy.Basic

/-! # Schedules

The order of the changes. Components of the graph come after those they need;
a component with several changes is a cycle, which is taken apart step by
step, each step ignoring more of the edges that can be ignored safely. First
of all the changes wanted early or late are split off. What no step takes
apart is reported as unresolved.
-/

namespace PackagePlan

/-- How far a cycle is relaxed: each step ignores what the steps before it ignore. -/
inductive Relaxation
  | noRunOnly
  | noAlreadyMet
  | noFetchOrRun
  deriving DecidableEq

namespace Relaxation

def steps : List Relaxation := [noRunOnly, noAlreadyMet, noFetchOrRun]

def keeps : Relaxation → Edge → Bool
  | noRunOnly, e => !e.isRunOnly
  | noAlreadyMet, e => !e.isRunOnly && !e.isAllMet
  | noFetchOrRun, e => !e.isRunOnly && !e.isAllMet && !e.isFetchOrRunOnly

def note : Relaxation → String
  | noRunOnly => "In run dependency cycle with"
  | noAlreadyMet => "In dependency cycle with already met dependencies"
  | noFetchOrRun => "In fetch dependency cycle with"

end Relaxation

structure ScheduledNode where
  resolvent : Resolvent
  notes : List String
  inUnresolvedCycle : Bool

structure Schedule where
  order : List ScheduledNode := []
  /-- The cycles in which edges had to be ignored. -/
  brokenCycles : List (List Resolvent) := []
  unresolvedCycles : List (List Resolvent) := []
  deriving Inhabited

abbrev Notes := Resolvent → List String

namespace Notes

def none : Notes := fun _ => []

def renderNames (rs : List Resolvent) : String := Text.join ", " (rs.map Resolvent.render)

def tell (notes : Notes) (text : String) (members : List Resolvent) : Notes := fun r =>
  notes r ++ [text ++ ": " ++ renderNames (members.filter (· != r))]

end Notes

namespace Schedule

def append (s t : Schedule) : Schedule where
  order := s.order ++ t.order
  brokenCycles := s.brokenCycles ++ t.brokenCycles
  unresolvedCycles := s.unresolvedCycles ++ t.unresolvedCycles

def concat (l : List Schedule) : Schedule := l.foldr append {}

def single (notes : Notes) (r : Resolvent) : Schedule :=
  { order := [⟨r, notes r, false⟩] }

/-- A cycle that no step takes apart is scheduled as it is. -/
def unresolved (notes : Notes) (cycle : List Resolvent) : Schedule :=
  { order := cycle.map fun r => ⟨r, notes r, true⟩, unresolvedCycles := [cycle] }

def position? (s : Schedule) (r : Resolvent) : Option Nat :=
  s.order.findIdx? (·.resolvent == r)

section

variable (g : PlanGraph) (urgency : Resolvent → Option Urgency)

def relax : List Relaxation → Notes → List Resolvent → Schedule
  | [], notes, members => unresolved notes members
  | step :: steps, notes, members =>
    let parts := g.componentsOf (.ofList members) step.keeps
    let notes := if parts.length > 1 then notes.tell step.note members else notes
    concat (parts.map fun part =>
      match part with
      | [r] => single notes r
      | _ => relax steps notes part)

/-- Orders a part of a cycle that has been split off. -/
def orderPart (notes : Notes) (members : List Resolvent) : Schedule :=
  concat ((g.componentsOf (.ofList members) fun _ => true).map fun part =>
    match part with
    | [r] => single notes r
    | _ => relax g Relaxation.steps notes part)

/-- The members wanted early, those wanted neither early nor late, and those wanted late. -/
def splitByUrgency (members : List Resolvent) : List (List Resolvent) :=
  [some .early, none, some .late].map fun u => members.filter (urgency · == u)

def breakCycle (members : List Resolvent) : Schedule :=
  match (splitByUrgency urgency members).filter (!·.isEmpty) with
  | [] | [_] => relax g Relaxation.steps .none members
  | parts =>
    let notes := Notes.none.tell "In dependency cycle split by early/late ordering with" members
    concat (parts.map (orderPart g notes))

def orderComponent (isJob : Resolvent → Bool) (component : List Resolvent) : Schedule :=
  match component.filter isJob, component.filter (!isJob ·) with
  | [], _ => {}
  | [r], [] => single .none r
  | [r], others =>
    single (fun _ =>
      ["In dependency cycle with existing packages: " ++ Notes.renderNames others]) r
  | jobs, _ => { breakCycle g urgency jobs with brokenCycles := [jobs] }

def ofGraph (isJob : Resolvent → Bool) : Schedule :=
  let s := concat (g.components.map (orderComponent g urgency isJob))
  { s with brokenCycles := s.brokenCycles.filter (!s.unresolvedCycles.contains ·) }

end

end Schedule

end PackagePlan
