import PackagePlan.Decision.Registry
import PackagePlan.Policy.Seeds

/-! # Restarts

When a decision turns out wrong after others were built on it, everything
starts over with the constraint that it failed known from the beginning. The
log of restarts bounds their number.
-/

namespace PackagePlan

structure Restart where
  resolvent : Resolvent
  previous : Decision
  problem : Constraint
  proposed : Decision
  /-- The constraint that the next attempt starts with. -/
  carried : Constraint
  deriving Inhabited

def Restart.render (r : Restart) : String :=
  r.resolvent.render ++ ": " ++ r.problem.render ++ " conflicts with " ++ r.previous.render ++
    ", now " ++ r.proposed.render

instance : ToString Restart := ⟨Restart.render⟩

namespace Restarts

def conflict (r : Restart) : String := r.resolvent.render ++ ": " ++ r.problem.demand.render

def distinctFrom (seen : OrderedSet String) : List String → List String
  | [] => []
  | x :: l => if seen.contains x then distinctFrom seen l else x :: distinctFrom (seen.insert x) l

def cycle (restarts : List Restart) : List String := distinctFrom ∅ (restarts.map conflict)

end Restarts

end PackagePlan
