import PackagePlan.Decision.Basic
import PackagePlan.Dependency.Flatten

/-! # Interest in dependencies

Which dependencies of a decided package are followed. Demands that are not
suggestions are taken from every change and, by default, from what is kept
except for building; suggestions follow the rules of the user.
-/

namespace PackagePlan

inductive Interest
  | take
  /-- Follow the dependency as a suggestion. -/
  | untaken
  | ignore
  deriving DecidableEq, Inhabited

namespace Interest

def all : List Interest := [take, untaken, ignore]

def name : Interest → String
  | take => "take"
  | untaken => "untaken"
  | ignore => "ignore"

def ofName? (s : String) : Option Interest := all.find? (·.name == s)

end Interest

structure InterestQuery where
  resolvent : Resolvent
  decision : Decision
  id : PackageId
  dependency : Dependency
  alreadyInstalled : Bool

structure InterestRules where
  followInstalled : Bool := true
  followInstalledBuild : Bool := false
  suggestions : Interest := .untaken
  recommendations : Interest := .take
  take : List Requirement := []
  ignore : List Requirement := []
  noDependenciesFrom : List Requirement := []

namespace InterestRules

def concerns (rules : InterestRules) (q : InterestQuery) : Bool :=
  !rules.noDependenciesFrom.any (·.accepts q.id) &&
    match q.decision with
    | .change _ => true
    | .existing _ =>
      (rules.followInstalledBuild || !q.dependency.isBuildOnly) && rules.followInstalled &&
        (!q.dependency.isSuggestion || (!q.dependency.demand.isBlocker && q.alreadyInstalled))
    | _ => false

def suggestionInterest (rules : InterestRules) (q : InterestQuery) : Interest :=
  let d := q.dependency
  let listed (rs : List Requirement) : Bool :=
    !d.demand.isBlocker && rs.any (·.name == d.demand.packageName)
  if listed rules.take then .take
  else if listed rules.ignore then .ignore
  else
    match if d.labels.contains .suggested then rules.suggestions else rules.recommendations with
    | .take => .take
    | .ignore => .ignore
    | .untaken => if !d.demand.isBlocker && q.alreadyInstalled then .take else .untaken

def interest (rules : InterestRules) (q : InterestQuery) : Interest :=
  if !rules.concerns q then .ignore
  else if q.dependency.isSuggestion then rules.suggestionInterest q
  else .take

end InterestRules

end PackagePlan
