import PackagePlan.Decision.Constraint

/-! # Decisions

What is to happen for one resolvent: nothing, keeping what is installed, a
change, a removal, leaving a package broken, or none of these because no id
meets the constraints.
-/

namespace PackagePlan

inductive Confirmation
  | downgrade
  /-- A newer candidate was passed over. -/
  | notBestVersion
  | breakage
  | removeProtected
  /-- Nobody asked for the removal. -/
  | uninstall
  deriving DecidableEq, Inhabited

namespace Confirmation

def all : List Confirmation := [downgrade, notBestVersion, breakage, removeProtected, uninstall]

def name : Confirmation → String
  | downgrade => "downgrade"
  | notBestVersion => "not-best-version"
  | breakage => "break"
  | removeProtected => "remove-protected"
  | uninstall => "uninstall"

def ofName? (s : String) : Option Confirmation := all.find? (·.name == s)

def renderList (cs : List Confirmation) : String := Text.join ", " (cs.map name)

end Confirmation

structure Placement where
  repository : RepositoryName
  replacing : List PackageId

structure Rejection where
  id : PackageId
  unmet : List Constraint

structure Change where
  id : PackageId
  isBest : Bool
  taken : Bool
  placement : Option Placement := none
  confirmations : List Confirmation := []

structure Kept where
  id : PackageId
  /-- How the id compares with what would be installed instead. -/
  isSame : Bool
  isSameVersion : Bool
  isTransient : Bool
  taken : Bool

structure Removal where
  ids : List PackageId
  taken : Bool
  confirmations : List Confirmation := []

structure Breakage where
  id : PackageId
  taken : Bool
  confirmations : List Confirmation := []

inductive Decision
  /-- Nothing is installed, and nothing needs to be. -/
  | nothing (taken : Bool)
  | existing (kept : Kept)
  | change (c : Change)
  | remove (r : Removal)
  | unable (rejections : List Rejection) (taken : Bool)
  | broken (b : Breakage)
  deriving Inhabited

namespace Decision

def taken : Decision → Bool
  | nothing taken => taken
  | existing k => k.taken
  | change c => c.taken
  | remove r => r.taken
  | unable _ taken => taken
  | broken b => b.taken

def chosen? : Decision → Option PackageId
  | existing k => some k.id
  | change c => some c.id
  | broken b => some b.id
  | nothing _ | remove _ | unable .. => none

def isChange : Decision → Bool
  | change _ | remove _ => true
  | _ => false

def isUnable : Decision → Bool
  | unable .. => true
  | _ => false

def confirmations : Decision → List Confirmation
  | change c => c.confirmations
  | remove r => r.confirmations
  | broken b => b.confirmations
  | _ => []

def withConfirmations (cs : List Confirmation) : Decision → Decision
  | change c => change { c with confirmations := cs }
  | remove r => remove { r with confirmations := cs }
  | broken b => broken { b with confirmations := cs }
  | d => d

def kind : Decision → String
  | nothing _ => "nothing"
  | existing _ => "existing"
  | change _ => "change"
  | remove _ => "remove"
  | unable .. => "unable"
  | broken _ => "break"

def renderPlacement (p : Placement) : String :=
  " to ::" ++ p.repository ++
    String.join (p.replacing.map fun id => " replacing " ++ id.version.text)

def render : Decision → String
  | nothing _ => "nothing"
  | existing k => "keep " ++ k.id.render
  | change c => "install " ++ c.id.render ++ (c.placement.map renderPlacement).getD ""
  | remove r => "remove " ++ Text.join ", " (r.ids.map PackageId.render)
  | unable rejections _ => "unable (" ++ toString rejections.length ++ " unsuitable candidates)"
  | broken b => "break " ++ b.id.render

instance : ToString Decision := ⟨render⟩

def isScheduled (d : Decision) : Bool := d.taken && !d.isUnable

def isJob (d : Decision) : Bool := d.taken && d.isChange

end Decision

end PackagePlan
