import PackagePlan.Dependency.Tree

/-! # Reasons

Why a constraint exists. A reason that comes from a dependency names the
resolvent that has it, so that the order of changes can be worked out from
the reasons alone.
-/

namespace PackagePlan

/-- A demand in the dependencies of the id chosen for a resolvent. -/
structure Link (δ : Type) where
  holder : Resolvent
  holderId : PackageId
  demand : δ
  labels : List Label
  alreadyMet : Bool

inductive Reason
  | target
  | set (name : SetName) (inner : Reason)
  | dependency (link : Link Requirement)
  | blocker (link : Link Blocker)
  /-- An installed package depends on an id that `holder` removes. -/
  | dependent (removing : PackageId) (holder : Resolvent)
  /-- A binary is built first, from which `other` is installed. -/
  | viaBinary (other : Resolvent)
  | preset (explanation : String)
  | presetFor (explanation : String) (inner : Reason)
  | presumed
  deriving Inhabited

namespace Reason

/-- The resolvent that a change waits for, or that waits for it. -/
def holder? : Reason → Option Resolvent
  | dependency link => some link.holder
  | blocker link => some link.holder
  | dependent _ holder => some holder
  | viaBinary other => some other
  | set _ inner => inner.holder?
  | preset _ | presetFor .. | target | presumed => none

def isTarget : Reason → Bool
  | target | set .. => true
  | _ => false

def isSet : Reason → Bool
  | set .. => true
  | _ => false

def isDependency : Reason → Bool
  | dependency _ => true
  | _ => false

def isPresumed : Reason → Bool
  | presumed => true
  | _ => false

def labels : Reason → List Label
  | dependency link => link.labels
  | blocker link => link.labels
  | _ => []

def alreadyMet : Reason → Bool
  | dependency link => link.alreadyMet
  | blocker link => link.alreadyMet
  | _ => false

def requestsRemoval : Reason → Bool
  | target | dependent .. => true
  | set _ inner | presetFor _ inner => inner.requestsRemoval
  | _ => false

def renderMet (alreadyMet : Bool) : String := if alreadyMet then " (already met)" else ""

def render : Reason → String
  | target => "target"
  | set name _ => "from set " ++ name
  | dependency l =>
    "dependency " ++ l.demand.render ++ " from " ++ l.holderId.render ++ renderMet l.alreadyMet
  | blocker l =>
    "blocker " ++ l.demand.render ++ " from " ++ l.holderId.render ++ renderMet l.alreadyMet
  | dependent removing _ => "dependent upon " ++ removing.render
  | viaBinary other => "via binary for " ++ other.render
  | preset explanation => explanation
  | presetFor explanation inner => explanation ++ " (" ++ inner.render ++ ")"
  | presumed => "presumed"

instance : ToString Reason := ⟨render⟩

end Reason

end PackagePlan
