import PackagePlan.Requirement.Basic

/-! # Reading requirements

A requirement is written `[op]name[-version][:slot][::repository][[choices]]`
and read from its end; a blocker is a requirement after one or two exclamation
marks.
-/

namespace PackagePlan

open Text

inductive RequirementFault
  | empty
  | unbalancedBracket
  | emptyRepository
  | emptySlot
  | missingVersion
  | version (e : InvalidVersion)
  | badName
  | notBlocker
  | unexpectedClose
  | missingClose
  | missingOpen
  | emptyCondition
  | unknownLabel (label : String)
  | dependenciesOf (id : String) (fault : RequirementFault)
  deriving DecidableEq

def RequirementFault.message : RequirementFault → String
  | empty => "empty spec"
  | unbalancedBracket => "unbalanced '['"
  | emptyRepository => "empty repository name"
  | emptySlot => "empty slot name"
  | missingVersion => "operator without a version"
  | version e => e.message
  | badName => "bad package name"
  | notBlocker => "blockers start with '!'"
  | unexpectedClose => "unexpected ')'"
  | missingClose => "missing ')'"
  | missingOpen => "expected '('"
  | emptyCondition => "empty condition"
  | unknownLabel label => s!"unknown label '{label}'"
  | dependenciesOf id fault => s!"{fault.message} (dependencies of {id})"

structure InvalidRequirement where
  text : String
  fault : RequirementFault
  deriving DecidableEq

def InvalidRequirement.message (e : InvalidRequirement) : String :=
  s!"Invalid dependency spec '{e.text}': {e.fault.message}"

namespace Requirement

def readChoice : List Char → String × Bool
  | '-' :: flag => (String.ofList flag, false)
  | flag => (String.ofList flag, true)

def readChoices (s : List Char) : Choices :=
  .ofList ((((pieces (· == ',') s).map trim).filter (!·.isEmpty)).map readChoice)

def cutChoices (s : List Char) : Except RequirementFault (List Char × Choices) :=
  match beforeEnd? [']'] s with
  | none => .ok (s, ∅)
  | some inner =>
    match cutLast? ['['] inner with
    | none => .error .unbalancedBracket
    | some (before, flags) => .ok (before, readChoices flags)

def cutRepository (s : List Char) : Except RequirementFault (List Char × Option RepositoryName) :=
  match cutFirst? [':', ':'] s with
  | none => .ok (s, none)
  | some (_, []) => .error .emptyRepository
  | some (before, repository) => .ok (before, some (String.ofList repository))

def cutSlot (s : List Char) : Except RequirementFault (List Char × Option SlotName) :=
  match cutLast? [':'] s with
  | none => .ok (s, none)
  | some (_, []) => .error .emptySlot
  | some (before, slot) => .ok (before, some (String.ofList slot))

def isVersionText (s : List Char) : Bool :=
  match Version.read ((beforeEnd? ['*'] s).getD s) with
  | .ok _ => true
  | .error _ => false

/-- Splits at the first dash that has a digit and altogether a version after it. -/
def cutVersion? : List Char → Option (List Char × List Char)
  | [] => none
  | c :: s =>
    if c == '-' && s.head?.any Char.isDigit && isVersionText s then some ([], s)
    else (cutVersion? s).map fun (name, version) => (c :: name, version)

def operators : List String := [">=", "<=", ">", "<", "~", "="]

def readNameAndVersion (s : List Char) : Except RequirementFault (List Char × VersionRange) :=
  match VersionRange.cutOperator? operators s with
  | none => .ok (s, .any)
  | some (op, body) =>
    match cutVersion? body with
    | none => .error .missingVersion
    | some (name, version) =>
      match VersionRange.ofOperator op version with
      | .ok range => .ok (name, range)
      | .error e => .error (.version e)

def isName (s : List Char) : Bool := !s.isEmpty && !s.any isBlank && s.head? != some '!'

def read (s : List Char) : Except RequirementFault Requirement := do
  if s.isEmpty then .error .empty
  let (s, choices) ← cutChoices s
  let (s, repository) ← cutRepository s
  let (s, slot) ← cutSlot s
  let (name, version) ← readNameAndVersion s
  if isName name then
    .ok { name := String.ofList name, version, slot, repository, choices }
  else .error .badName

def parse (s : String) : Except InvalidRequirement Requirement :=
  (read (trim s.toList)).mapError (.mk s)

end Requirement

def Blocker.parse (s : String) : Except InvalidRequirement Blocker :=
  match trim s.toList with
  | '!' :: '!' :: rest =>
    (fun blocked => { blocked, strong := true }) <$> Requirement.parse (String.ofList rest)
  | '!' :: rest =>
    (fun blocked => { blocked, strong := false }) <$> Requirement.parse (String.ofList rest)
  | _ => .error ⟨s, .notBlocker⟩

def Demand.parse (s : String) : Except InvalidRequirement Demand :=
  if (trimStart s.toList).head? = some '!' then Demand.blocker <$> Blocker.parse s
  else Demand.package <$> Requirement.parse s

end PackagePlan
