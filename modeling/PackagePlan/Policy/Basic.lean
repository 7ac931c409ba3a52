import PackagePlan.Policy.Interest

/-! # Policies

What the user prefers wherever there is a choice: a policy is a record of
functions, and those that it leaves out answer as given here.
-/

namespace PackagePlan

/-- Where in a broken cycle a change is wanted. -/
inductive Urgency
  | early
  | late
  deriving DecidableEq

structure Policy where
  targetDestination : Destination := .slash
  /-- When an installed id may be kept for a constraint. -/
  keep : Resolvent → Requirement → Reason → KeepMode
  confirms : Resolvent → Confirmation → Bool
  /-- A wrong decision for the resolvent may start everything over. -/
  mayRestart : Resolvent → Bool := fun _ => true
  urgency : Resolvent → Option Urgency := fun _ => none
  repositoryFor : Resolvent → PackageId → Option RepositoryName
  /-- Remove, and do not break, what depends on something removed. -/
  removesDependent : PackageId → Bool := fun _ => false
  hides : Resolvent → PackageId → Bool := fun _ _ => false
  allows : PackageId → Bool := fun _ => true
  promoteBinaries : Bool := false
  interest : InterestQuery → Interest := InterestRules.interest {}
  mayRemove : Resolvent → List PackageId → Bool := fun _ _ => true
  /-- Build a binary first, then install from it. -/
  viaBinary : PackageId → Bool := fun _ => false
  protects : PackageId → Bool := fun _ => false
  presumes : Requirement → Bool := fun _ => false

end PackagePlan
