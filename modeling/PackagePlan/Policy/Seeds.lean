import PackagePlan.Decision.Constraint
import PackagePlan.Package.Database

/-! # Seeds

The constraints that a resolvent starts with: presets of the user for its
package, and constraints that earlier attempts have found necessary.
-/

namespace PackagePlan

structure Seeds where
  presets : List Requirement := []
  learnt : OrderedMap Resolvent (List Constraint) := ∅
  deriving Inhabited

namespace Seeds

def addPreset (s : Seeds) (r : Requirement) : Seeds := { s with presets := s.presets ++ [r] }

def learn (s : Seeds) (r : Resolvent) (c : Constraint) : Seeds :=
  { s with learnt := s.learnt.alter r fun cs => cs.getD [] ++ [c] }

def learntFor (s : Seeds) (r : Resolvent) : List Constraint := s.learnt.getD r []

/-- A preset applies in the slots of the best ids that it accepts. -/
def presetApplies (db : Database) (r : Resolvent) (preset : Requirement) : Bool :=
  preset.name == r.package &&
    (IdSelection.bestPerSlot (db.find (.accepted preset) .all)).any (·.slot == r.slot)

def ofPreset (r : Resolvent) (preset : Requirement) : Constraint where
  demand := preset
  reason := .preset "preset"
  destination := r.destination
  nothingIsFine := true

def constraintsFor (s : Seeds) (db : Database) (r : Resolvent) : List Constraint :=
  (s.presets.filter (presetApplies db r)).map (ofPreset r) ++ s.learntFor r

end Seeds

end PackagePlan
