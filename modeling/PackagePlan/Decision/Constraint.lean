import PackagePlan.Decision.Reason

/-! # Constraints

A constraint is a demand on one resolvent, with the reason for it and with
what it asks besides: how freely an installed id may be kept, and whether it
is only a suggestion or is met by choosing nothing at all.
-/

namespace PackagePlan

/-- When an installed id may be kept, from the most permissive mode to the strictest. -/
inductive KeepMode
  | ifPossible
  | onlyIfTransient
  | ifSame
  | ifSameVersion
  | never
  deriving DecidableEq, Inhabited

namespace KeepMode

def all : List KeepMode := [ifPossible, onlyIfTransient, ifSame, ifSameVersion, never]

def rank : KeepMode → Nat
  | ifPossible => 0
  | onlyIfTransient => 1
  | ifSame => 2
  | ifSameVersion => 3
  | never => 4

def stricter (a b : KeepMode) : KeepMode := if a.rank < b.rank then b else a

def name : KeepMode → String
  | ifPossible => "if-possible"
  | onlyIfTransient => "only-if-transient"
  | ifSame => "if-same"
  | ifSameVersion => "if-same-version"
  | never => "never"

def ofName? (s : String) : Option KeepMode := all.find? (·.name == s)

def permits (mode : KeepMode) (isSame isSameVersion isTransient : Bool) : Bool :=
  match mode with
  | ifPossible => true
  | onlyIfTransient => isTransient
  | ifSame => isSame
  | ifSameVersion => isSameVersion
  | never => false

end KeepMode

structure Constraint where
  demand : Demand
  reason : Reason
  keep : KeepMode := .ifPossible
  destination : Destination
  /-- A suggestion, which does not force a decision. -/
  untaken : Bool := false
  /-- Choosing nothing meets the constraint too. -/
  nothingIsFine : Bool := false
  deriving Inhabited

namespace Constraint

def accepts (c : Constraint) (id : PackageId) : Bool := c.demand.accepts id

def isBlocker (c : Constraint) : Bool := c.demand.isBlocker

def requestsRemoval (c : Constraint) : Bool := c.isBlocker && c.reason.requestsRemoval

def render (c : Constraint) : String :=
  c.demand.render ++ " (" ++ c.reason.render ++ ")" ++ if c.untaken then " [untaken]" else ""

instance : ToString Constraint := ⟨render⟩

/-- The constraint as the next attempt starts with it: any choices will do. -/
def forRestart (c : Constraint) : Constraint :=
  { c with demand := c.demand.withoutChoices, reason := .presetFor "restart" c.reason }

end Constraint

namespace Constraints

def allUntaken (cs : List Constraint) : Bool := cs.all (·.untaken)

def nothingIsFine (cs : List Constraint) : Bool := cs.all (·.nothingIsFine)

def strictest (cs : List Constraint) : KeepMode :=
  cs.foldl (fun mode c => mode.stricter c.keep) .ifPossible

def presumed (cs : List Constraint) : Bool := cs.any (·.reason.isPresumed)

def unmetBy (cs : List Constraint) (id : PackageId) : List Constraint :=
  cs.filter (!·.accepts id)

def requestRemoval (cs : List Constraint) : Bool := cs.any (·.requestsRemoval)

end Constraints

end PackagePlan
