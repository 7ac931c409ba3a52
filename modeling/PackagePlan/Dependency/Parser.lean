import PackagePlan.Dependency.Tree
import PackagePlan.Requirement.Parser

/-! # Reading dependency trees

A tree is written as words. The reader keeps the groups that are still open,
so that it takes one word after another and the first wrong word decides which
error is reported.
-/

namespace PackagePlan

open Text

inductive Opening
  | all
  | any
  | given (condition : Condition)

namespace Opening

def close (children : List DependencyTree) : Opening → DependencyTree
  | all => .all children
  | any => .any children
  | given c => .given c children

end Opening

namespace DependencyTree

def readCondition (flag : List Char) : Except RequirementFault Condition :=
  match flag with
  | [] | ['!'] => .error .emptyCondition
  | '!' :: flag => .ok ⟨String.ofList flag, true⟩
  | flag => .ok ⟨String.ofList flag, false⟩

def readLabel (name : List Char) : Except RequirementFault Label :=
  match Label.ofName? (String.ofList name) with
  | some label => .ok label
  | none => .error (.unknownLabel (String.ofList name))

inductive Word
  | opening (o : Opening)
  | leaf (t : DependencyTree)

/-- A word that is not a bracket. Faults that concern the whole text are reported against
`source`. -/
def readWord (source : String) (w : List Char) : Except InvalidRequirement Word :=
  if w = ['|', '|'] then .ok (.opening .any)
  else
    match beforeEnd? ['?'] w, beforeEnd? [':'] w with
    | some flag, _ =>
      ((readCondition flag).mapError (.mk source)).map fun c => .opening (.given c)
    | none, some names =>
      (((pieces (· == '+') names).mapM readLabel).mapError (.mk source)).map fun ls =>
        .leaf (.labels ls)
    | none, none =>
      if w.head? = some '!' then
        (Blocker.parse (String.ofList w)).map fun b => .leaf (.blocker b)
      else
        (Requirement.parse (String.ofList w)).map fun r => .leaf (.package r)

/-- Reads words into the innermost open group. `done` holds its children so far and `outer` the
groups around it with theirs, last child first. -/
def readWords (source : String) (outer : List (Opening × List DependencyTree))
    (done : List DependencyTree) : List (List Char) →
    Except InvalidRequirement (List DependencyTree)
  | [] =>
    match outer with
    | [] => .ok done.reverse
    | _ :: _ => .error ⟨source, .missingClose⟩
  | [')'] :: ws =>
    match outer with
    | [] => .error ⟨source, .unexpectedClose⟩
    | (o, before) :: outer => readWords source outer (o.close done.reverse :: before) ws
  | ['('] :: ws => readWords source ((.all, done) :: outer) [] ws
  | w :: ws => do
    match ← readWord source w with
    | .leaf t => readWords source outer (t :: done) ws
    | .opening o =>
      match ws with
      | ['('] :: ws => readWords source ((o, done) :: outer) [] ws
      | _ => .error ⟨source, .missingOpen⟩

def parse (s : String) : Except InvalidRequirement DependencyTree :=
  all <$> readWords s [] [] (words s.toList)

end DependencyTree

end PackagePlan
