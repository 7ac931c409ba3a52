import PackagePlan.Dependency.Tree

/-! # Edges

What an edge from one change to another carries: the kinds of dependency
behind it, whether those are met already, and what fails if it is ignored.
-/

namespace PackagePlan

/-- What goes wrong if an edge is not honoured. -/
inductive Hazard
  | mustNotCoexist
  | removeDependentsFirst
  | viaBinary
  | removeAfterReplacement
  deriving DecidableEq, Inhabited

namespace Hazard

def all : List Hazard := [mustNotCoexist, removeDependentsFirst, viaBinary, removeAfterReplacement]

def name : Hazard → String
  | mustNotCoexist => "must-not-coexist"
  | removeDependentsFirst => "remove-dependents-first"
  | viaBinary => "via-binary"
  | removeAfterReplacement => "remove-after-replacement"

def ofName? (s : String) : Option Hazard := all.find? (·.name == s)

end Hazard

structure Hazards where
  mustNotCoexist : Bool := false
  removeDependentsFirst : Bool := false
  viaBinary : Bool := false
  removeAfterReplacement : Bool := false
  deriving DecidableEq, Inhabited

namespace Hazards

def contains (hs : Hazards) : Hazard → Bool
  | .mustNotCoexist => hs.mustNotCoexist
  | .removeDependentsFirst => hs.removeDependentsFirst
  | .viaBinary => hs.viaBinary
  | .removeAfterReplacement => hs.removeAfterReplacement

def toList (hs : Hazards) : List Hazard := Hazard.all.filter hs.contains

def ofList (l : List Hazard) : Hazards where
  mustNotCoexist := l.contains .mustNotCoexist
  removeDependentsFirst := l.contains .removeDependentsFirst
  viaBinary := l.contains .viaBinary
  removeAfterReplacement := l.contains .removeAfterReplacement

def union (hs ks : Hazards) : Hazards where
  mustNotCoexist := hs.mustNotCoexist || ks.mustNotCoexist
  removeDependentsFirst := hs.removeDependentsFirst || ks.removeDependentsFirst
  viaBinary := hs.viaBinary || ks.viaBinary
  removeAfterReplacement := hs.removeAfterReplacement || ks.removeAfterReplacement

def isEmpty (hs : Hazards) : Bool := hs == {}

end Hazards

structure Edge where
  build : Bool := false
  buildAllMet : Bool := false
  run : Bool := false
  runAllMet : Bool := false
  fetch : Bool := false
  hazards : Hazards := {}
  deriving DecidableEq, Inhabited

namespace Edge

/-- A class of dependencies that is absent counts as met. -/
def ofDependency (labels : List Label) (alreadyMet : Bool) : Edge :=
  let build := labels.any fun l => l.phase == .build && l != .fetch
  let run := labels.any (·.phase == .run)
  { build, buildAllMet := alreadyMet || !build, run, runAllMet := alreadyMet || !run,
    fetch := labels.contains .fetch }

def ofHazard (h : Hazard) : Edge :=
  { buildAllMet := true, runAllMet := true, hazards := .ofList [h] }

/-- The edge asks for an order at all. -/
def isRelevant (e : Edge) : Bool := e.build || e.run || e.fetch || !e.hazards.isEmpty

/-- What either edge carries; an irrelevant first edge has no say in what is met. -/
def merge (e f : Edge) : Edge where
  build := e.build || f.build
  buildAllMet := if e.isRelevant then e.buildAllMet && f.buildAllMet else f.buildAllMet
  run := e.run || f.run
  runAllMet := if e.isRelevant then e.runAllMet && f.runAllMet else f.runAllMet
  fetch := e.fetch || f.fetch
  hazards := e.hazards.union f.hazards

def isRunOnly (e : Edge) : Bool := e.run && !e.build && !e.fetch && e.hazards.isEmpty

def isAllMet (e : Edge) : Bool := e.buildAllMet && e.runAllMet && e.hazards.isEmpty

def isFetchOrRunOnly (e : Edge) : Bool := !e.build && e.hazards.isEmpty

end Edge

end PackagePlan
