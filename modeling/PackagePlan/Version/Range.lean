import PackagePlan.Version.Parser

/-! # Version ranges

What a requirement asks of a version, written as comparisons with commas
between them. Reading takes the commas from left to right, so the conjunction
of three comparisons nests to the right.
-/

namespace PackagePlan

open Text

inductive VersionRange
  | any
  | exact (v : Version)
  | newerThan (v : Version)
  | atLeast (v : Version)
  | olderThan (v : Version)
  | atMost (v : Version)
  | notEqual (v : Version)
  | sameIgnoringRevision (v : Version)
  | startsWith (v : Version)
  | both (r s : VersionRange)
  deriving Inhabited

namespace VersionRange

def accepts : VersionRange → Version → Bool
  | any, _ => true
  | exact v, w => w == v
  | newerThan v, w => compare w v == .gt
  | atLeast v, w => compare w v != .lt
  | olderThan v, w => compare w v == .lt
  | atMost v, w => compare w v != .gt
  | notEqual v, w => w != v
  | sameIgnoringRevision v, w => Version.compareIgnoringRevision w v == .eq
  | startsWith v, w => w.startsWith v
  | both r s, w => r.accepts w && s.accepts w

def operator? : VersionRange → Option String
  | any | both .. => none
  | exact _ | startsWith _ => some "="
  | newerThan _ => some ">"
  | atLeast _ => some ">="
  | olderThan _ => some "<"
  | atMost _ => some "<="
  | notEqual _ => some "!="
  | sameIgnoringRevision _ => some "~"

def render : VersionRange → String
  | any => "*"
  | exact v => "= " ++ v.text
  | newerThan v => "> " ++ v.text
  | atLeast v => ">= " ++ v.text
  | olderThan v => "< " ++ v.text
  | atMost v => "<= " ++ v.text
  | notEqual v => "!= " ++ v.text
  | sameIgnoringRevision v => "~ " ++ v.text
  | startsWith v => "= " ++ v.text ++ "*"
  | both r s => r.render ++ ", " ++ s.render

instance : ToString VersionRange := ⟨render⟩

def comparison? : String → Option (Version → VersionRange)
  | ">=" => some atLeast
  | "<=" => some atMost
  | "!=" => some notEqual
  | ">" => some newerThan
  | "<" => some olderThan
  | "~" => some sameIgnoringRevision
  | "=" => some exact
  | _ => none

/-- A star after the version of an equality asks for a common beginning only. -/
def ofOperator (op : String) (s : List Char) : Except InvalidVersion VersionRange := do
  match if op = "=" then beforeEnd? ['*'] s else none with
  | some start => startsWith <$> Version.parse (String.ofList start)
  | none =>
    let v ← Version.parse (String.ofList s)
    match comparison? op with
    | some range => .ok (range v)
    | none => .error ⟨String.ofList s, .operator op⟩

def operators : List String := [">=", "<=", "!=", ">", "<", "~", "="]

def cutOperator? (ops : List String) (s : List Char) : Option (String × List Char) :=
  ops.findSome? fun op => (afterStart? op.toList s).map fun rest => (op, rest)

/-- A version without an operator stands for equality. -/
def readComparison (s : List Char) : Except InvalidVersion VersionRange :=
  let s := trim s
  if s = [] ∨ s = ['*'] then .ok any
  else
    match cutOperator? operators s with
    | some (op, rest) => ofOperator op (trim rest)
    | none => ofOperator "=" s

def readAll : List (List Char) → Except InvalidVersion VersionRange
  | [] => .ok any
  | [s] => readComparison s
  | s :: rest => do
    let r ← readComparison s
    both r <$> readAll rest

def parse (s : String) : Except InvalidVersion VersionRange :=
  readAll (pieces (· == ',') s.toList)

end VersionRange

end PackagePlan
