import PackagePlan.Dependency.Tree

/-! # Flattening dependency trees

The dependencies of a package are the demands of its tree whose conditions
hold, each with the labels in effect where it stands. Of a choice of one the
alternative is kept whose worst demand scores best.
-/

namespace PackagePlan

structure Dependency where
  demand : Demand
  labels : List Label

namespace Dependency

def hasPhase (d : Dependency) (phase : Phase) : Bool := d.labels.any (·.phase == phase)

def isSuggestion (d : Dependency) : Bool := d.labels.any Label.isSuggestion

def isBuildOnly (d : Dependency) : Bool :=
  !d.labels.isEmpty && d.labels.all (·.phase == .build)

def render (d : Dependency) : String := Label.renderList d.labels ++ ": " ++ d.demand.render

instance : ToString Dependency := ⟨render⟩

end Dependency

namespace DependencyTree

abbrev Scorer := Dependency → Int

def worstScore (score : Scorer) (labels : List Label) (group : List Demand) : Int :=
  ((group.map fun d => score ⟨d, labels⟩).min?).getD 0

/-- The first pair of those with the highest first part. -/
def firstBest {α : Type} : List (Int × α) → Option (Int × α)
  | [] => none
  | x :: xs =>
    match firstBest xs with
    | some y => if y.1 > x.1 then some y else some x
    | none => some x

/-- Of several groups of demands, the one to follow. Where a group is empty, nothing is needed. -/
def chooseGroup (score : Scorer) (labels : List Label) (groups : List (List Demand)) :
    List Demand :=
  if groups.any List.isEmpty then []
  else
    match firstBest (groups.map fun g => (worstScore score labels g, g)) with
    | some (_, g) => g
    | none => []

/-- Labels and conditions that do not hold are no alternatives of a choice. -/
def isAlternative (choices : Choices) : DependencyTree → Bool
  | labels _ => false
  | given c _ => c.isMet choices
  | _ => true

section

variable (choices : Choices) (score : Scorer) (ls : List Label)

mutual

/-- The demands of a tree that stands inside a choice, where labels do not change. -/
def group : DependencyTree → List Demand
  | all children => groupAll children
  | any children => chooseGroup score ls (groups children)
  | given c children => if c.isMet choices then groupAll children else []
  | labels _ => []
  | package r => [.package r]
  | blocker b => [.blocker b]

def groupAll : List DependencyTree → List Demand
  | [] => []
  | t :: ts => group t ++ groupAll ts

def groups : List DependencyTree → List (List Demand)
  | [] => []
  | t :: ts => if t.isAlternative choices then group t :: groups ts else groups ts

end

end

mutual

def flatten (choices : Choices) (score : Scorer) (ls : List Label) :
    DependencyTree → List Dependency
  | all children => flattenAll choices score ls children
  | given c children => if c.isMet choices then flattenAll choices score ls children else []
  | any children => (chooseGroup score ls (groups choices score ls children)).map (⟨·, ls⟩)
  | labels _ => []
  | package r => [⟨.package r, ls⟩]
  | blocker b => [⟨.blocker b, ls⟩]

def flattenAll (choices : Choices) (score : Scorer) (ls : List Label) :
    List DependencyTree → List Dependency
  | [] => []
  | labels new :: ts => flattenAll choices score new ts
  | t :: ts => flatten choices score ls t ++ flattenAll choices score ls ts

end

def dependencies (t : DependencyTree) (choices : Choices) (score : Scorer) : List Dependency :=
  t.flatten choices score Label.initial

end DependencyTree

end PackagePlan
