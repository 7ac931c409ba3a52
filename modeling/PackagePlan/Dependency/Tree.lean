import PackagePlan.Requirement.Basic

/-! # Dependency trees

What a package depends on: demands grouped by conjunction, choice of one and
condition on the package's own choices. A list of labels says when the demands
after it in the same group are needed.
-/

namespace PackagePlan

inductive Label
  | build
  | run
  | post
  | fetch
  | test
  | suggested
  | recommended
  deriving DecidableEq, Inhabited

/-- How labels are told apart when changes are ordered. -/
inductive Phase
  | build
  | run
  | post
  deriving DecidableEq, Inhabited

namespace Label

def all : List Label := [build, run, post, fetch, test, suggested, recommended]

def name : Label → String
  | build => "build"
  | run => "run"
  | post => "post"
  | fetch => "fetch"
  | test => "test"
  | suggested => "suggested"
  | recommended => "recommended"

def ofName? (s : String) : Option Label := all.find? (·.name == s)

def phase : Label → Phase
  | build | fetch | test => .build
  | run => .run
  | post | suggested | recommended => .post

def isSuggestion : Label → Bool
  | suggested | recommended => true
  | _ => false

def initial : List Label := [build, run]

def renderList (labels : List Label) : String := Text.join "+" (labels.map name)

end Label

structure Condition where
  flag : String
  negated : Bool
  deriving DecidableEq, Inhabited

namespace Condition

def isMet (c : Condition) (choices : Choices) : Bool := choices.enabled c.flag != c.negated

def render (c : Condition) : String := (if c.negated then "!" else "") ++ c.flag ++ "?"

instance : ToString Condition := ⟨render⟩

end Condition

inductive DependencyTree
  | all (children : List DependencyTree)
  | any (children : List DependencyTree)
  | given (condition : Condition) (children : List DependencyTree)
  | labels (labels : List Label)
  | package (r : Requirement)
  | blocker (b : Blocker)

namespace DependencyTree

def nothing : DependencyTree := all []

instance : Inhabited DependencyTree := ⟨nothing⟩

mutual

def isEmpty : DependencyTree → Bool
  | all children | any children | given _ children => areEmpty children
  | labels _ => true
  | package _ | blocker _ => false

def areEmpty : List DependencyTree → Bool
  | [] => true
  | t :: ts => t.isEmpty && areEmpty ts

end

mutual

def packageNames : DependencyTree → List PackageName
  | all children | any children | given _ children => packageNamesOf children
  | labels _ | blocker _ => []
  | package r => [r.name]

def packageNamesOf : List DependencyTree → List PackageName
  | [] => []
  | t :: ts => t.packageNames ++ packageNamesOf ts

end

mutual

/-- Every requirement in the tree, those of blockers included. -/
def requirements : DependencyTree → List Requirement
  | all children | any children | given _ children => requirementsOf children
  | labels _ => []
  | package r => [r]
  | blocker b => [b.blocked]

def requirementsOf : List DependencyTree → List Requirement
  | [] => []
  | t :: ts => t.requirements ++ requirementsOf ts

end

mutual

def render : DependencyTree → String
  | all children => "( " ++ renderList children ++ " )"
  | any children => "|| ( " ++ renderList children ++ " )"
  | given c children => c.render ++ " ( " ++ renderList children ++ " )"
  | labels ls => Label.renderList ls ++ ":"
  | package r => r.render
  | blocker b => b.render

def renderList : List DependencyTree → String
  | [] => ""
  | [t] => t.render
  | t :: ts => t.render ++ " " ++ renderList ts

end

instance : ToString DependencyTree := ⟨render⟩

end DependencyTree

end PackagePlan
