import PackagePlan.Decision.Basic

/-! # Registries

The constraints and the decision of every resolvent met so far, in the order
of the resolvents.
-/

namespace PackagePlan

structure Resolution where
  constraints : List Constraint
  decision : Option Decision := none
  deriving Inhabited

namespace Resolution

def add (r : Resolution) (c : Constraint) : Resolution :=
  { r with constraints := r.constraints ++ [c] }

def isDecided (r : Resolution) : Bool := r.decision.isSome

end Resolution

abbrev Registry := OrderedMap Resolvent Resolution

namespace Registry

/-- A resolvent that is new starts with the constraints `seed`. -/
def ensure (reg : Registry) (r : Resolvent) (seed : Resolvent → List Constraint) : Registry :=
  reg.alter r fun known => known.getD { constraints := seed r }

def update (reg : Registry) (r : Resolvent) (f : Resolution → Resolution) : Registry :=
  if reg.contains r then reg.alter r fun known => f (known.getD default) else reg

def addConstraint (reg : Registry) (r : Resolvent) (c : Constraint) : Registry :=
  update reg r (·.add c)

def decide (reg : Registry) (r : Resolvent) (d : Option Decision) : Registry :=
  update reg r fun res => { res with decision := d }

def decision? (reg : Registry) (r : Resolvent) : Option Decision :=
  (OrderedMap.get? reg r).bind (·.decision)

def decisions (reg : Registry) : List (Resolvent × Decision) :=
  (OrderedMap.entries reg).filterMap fun (r, res) => res.decision.map (r, ·)

def jobNodes (reg : Registry) : List Resolvent :=
  ((decisions reg).filter fun (_, d) => d.isJob).map (·.1)

end Registry

end PackagePlan
