import PackagePlan.Package.Resolvent
import PackagePlan.Version.Range

/-! # Requirements

A requirement names a package and may restrict its version, slot, repository
and choices. A blocker asks that nothing it names be installed; a demand is
either of the two.
-/

namespace PackagePlan

structure Requirement where
  name : PackageName
  version : VersionRange
  slot : Option SlotName
  repository : Option RepositoryName
  choices : Choices
  deriving Inhabited

namespace Requirement

def named (name : PackageName) : Requirement :=
  { name, version := .any, slot := none, repository := none, choices := ∅ }

def ofId (id : PackageId) : Requirement :=
  { name := id.name, version := .exact id.version, slot := id.slot, repository := none,
    choices := ∅ }

def accepts (r : Requirement) (id : PackageId) : Bool :=
  id.name == r.name && r.version.accepts id.version && (r.slot.isNone || r.slot == id.slot) &&
    r.repository.all (· == id.repository) &&
    r.choices.entries.all fun (flag, on) => id.choices.enabled flag == on

def withoutChoices (r : Requirement) : Requirement := { r with choices := ∅ }

def names (r : Requirement) (resolvent : Resolvent) : Bool :=
  r.name == resolvent.package && (r.slot.isNone || r.slot == resolvent.slot)

def renderChoice (flag : String) (on : Bool) : String := if on then flag else "-" ++ flag

def renderChoices (choices : Choices) : String :=
  if choices.isEmpty then ""
  else "[" ++ Text.join "," (choices.entries.map fun (flag, on) => renderChoice flag on) ++ "]"

def renderNameAndVersion (name : PackageName) : VersionRange → String
  | .any | .both .. => name
  | .exact v => "=" ++ name ++ "-" ++ v.text
  | .newerThan v => ">" ++ name ++ "-" ++ v.text
  | .atLeast v => ">=" ++ name ++ "-" ++ v.text
  | .olderThan v => "<" ++ name ++ "-" ++ v.text
  | .atMost v => "<=" ++ name ++ "-" ++ v.text
  | .notEqual v => "!=" ++ name ++ "-" ++ v.text
  | .sameIgnoringRevision v => "~" ++ name ++ "-" ++ v.text
  | .startsWith v => "=" ++ name ++ "-" ++ v.text ++ "*"

/-- A conjunction cannot be written before the name and follows at the end. -/
def renderConjunction : VersionRange → String
  | r@(.both ..) => " (" ++ r.render ++ ")"
  | _ => ""

def render (r : Requirement) : String :=
  renderNameAndVersion r.name r.version ++ (r.slot.map (":" ++ ·)).getD "" ++
    (r.repository.map ("::" ++ ·)).getD "" ++ renderChoices r.choices ++
    renderConjunction r.version

instance : ToString Requirement := ⟨render⟩

end Requirement

structure Blocker where
  blocked : Requirement
  /-- A strong blocker is resolved before what holds it is installed. -/
  strong : Bool
  deriving Inhabited

namespace Blocker

def render (b : Blocker) : String := (if b.strong then "!!" else "!") ++ b.blocked.render

instance : ToString Blocker := ⟨render⟩

end Blocker

inductive Demand
  | package (r : Requirement)
  | blocker (b : Blocker)
  deriving Inhabited

namespace Demand

def requirement : Demand → Requirement
  | package r => r
  | blocker b => b.blocked

def packageName (d : Demand) : PackageName := d.requirement.name

def slot (d : Demand) : Option SlotName := d.requirement.slot

def isBlocker : Demand → Bool
  | package _ => false
  | blocker _ => true

/-- A blocker accepts what it does not block. -/
def accepts : Demand → PackageId → Bool
  | package r, id => r.accepts id
  | blocker b, id => !b.blocked.accepts id

def withoutChoices : Demand → Demand
  | package r => package r.withoutChoices
  | blocker b => blocker { b with blocked := b.blocked.withoutChoices }

def render : Demand → String
  | package r => r.render
  | blocker b => b.render

instance : ToString Demand := ⟨render⟩

instance : Coe Requirement Demand := ⟨package⟩

instance : Coe Blocker Demand := ⟨blocker⟩

end Demand

end PackagePlan
