import PackagePlan.Text.Blank
import PackagePlan.Text.Numeral
import PackagePlan.Version.Basic

/-! # Reading versions

A version is `1.2.3`, then at most one letter, then suffixes such as `_rc2`,
then perhaps a revision `-r4`. A text that is none fails with the first thing
found wrong in it.
-/

namespace PackagePlan

open Text

inductive VersionFault
  | empty
  | component
  | componentRange
  | suffix
  | suffixNumber
  | revisionRange
  | operator (op : String)
  deriving DecidableEq

def VersionFault.message : VersionFault → String
  | empty => "empty version"
  | component => "components must be dot-separated numbers"
  | componentRange => "component out of range"
  | suffix => "unknown suffix"
  | suffixNumber => "suffix number must be numeric"
  | revisionRange => "revision out of range"
  | operator op => s!"unknown operator '{op}'"

structure InvalidVersion where
  version : String
  fault : VersionFault
  deriving DecidableEq

def InvalidVersion.message (e : InvalidVersion) : String :=
  s!"Invalid version '{e.version}': {e.fault.message}"

namespace SuffixKind

def name : SuffixKind → String
  | alpha => "alpha"
  | beta => "beta"
  | pre => "pre"
  | rc => "rc"
  | p => "p"

/-- In the order in which names are tried, so that `pre` is not taken for `p`. -/
def all : List SuffixKind := [alpha, beta, pre, rc, p]

def read? (s : List Char) : Option (SuffixKind × List Char) :=
  all.findSome? fun k => (afterStart? k.name.toList s).map fun rest => (k, rest)

end SuffixKind

namespace Version

def isLetter (c : Char) : Bool := 'a' ≤ c && c ≤ 'z'

def cutRevision (s : List Char) : Except VersionFault (List Char × Nat) :=
  match cutLast? ['-', 'r'] s with
  | some (body, rev) =>
    if isNumeral rev then
      match word? rev with
      | some n => .ok (body, n)
      | none => .error .revisionRange
    else .ok (s, 0)
  | none => .ok (s, 0)

def cutLetter (s : List Char) : List Char × Option Char :=
  match s.getLast? with
  | some c => if isLetter c then (s.dropLast, some c) else (s, none)
  | none => (s, none)

def readComponent (s : List Char) : Except VersionFault Nat :=
  if isNumeral s then
    match word? s with
    | some n => .ok n
    | none => .error .componentRange
  else .error .component

def readSuffix (s : List Char) : Except VersionFault (SuffixKind × Nat) :=
  match SuffixKind.read? s with
  | none => .error .suffix
  | some (k, []) => .ok (k, 0)
  | some (k, number) =>
    match signedWord? number with
    | some n => .ok (k, n)
    | none => .error .suffixNumber

def read (s : List Char) : Except VersionFault Version := do
  let (body, revision) ← cutRevision s
  match pieces (· == '_') body with
  | [] => .error .empty
  | [] :: _ => .error .empty
  | numeric :: suffixes =>
    let (numeric, letter) := cutLetter numeric
    let components ← (pieces (· == '.') numeric).mapM readComponent
    let suffixes ← suffixes.mapM readSuffix
    .ok { text := String.ofList s, components, letter, suffixes, revision }

def parse (s : String) : Except InvalidVersion Version :=
  (read s.toList).mapError (InvalidVersion.mk s)

end Version

end PackagePlan
