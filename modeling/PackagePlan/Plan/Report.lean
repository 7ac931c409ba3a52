import PackagePlan.Data.Json
import PackagePlan.Plan.Basic

/-! # Reports

A plan as text and as JSON, with everything that the user has to deal with
before it can be carried out.
-/

namespace PackagePlan

inductive Problem
  | unable (r : Resolvent) (cs : List Constraint) (rejections : List Rejection)
  | unconfirmed (r : Resolvent) (d : Decision)
  | unresolvedCycle (members : List Resolvent)

namespace Problem

def renderRejection (x : Rejection) : List String :=
  ("    rejected " ++ x.id.render ++ ":") :: x.unmet.map fun c => "        fails " ++ c.render

def lines : Problem → List String
  | unable r cs rejections =>
    ["Cannot decide " ++ r.render] ++ cs.map (fun c => "    constraint: " ++ c.render) ++
      if rejections.isEmpty then ["    no candidates exist"]
      else rejections.flatMap renderRejection
  | unconfirmed r d =>
    [r.render ++ " (" ++ d.render ++ ") needs confirmation: " ++
      Confirmation.renderList d.confirmations]
  | unresolvedCycle members => ["Unresolved dependency cycle: " ++ Notes.renderNames members]

def toJson : Problem → Json
  | unable r cs rejections =>
    .object [("kind", .string "unable"), ("resolvent", .string r.render),
      ("constraints", .strings (cs.map Constraint.render)),
      ("candidates", .array (rejections.map fun x =>
        .object [("id", .string x.id.render),
          ("unmet", .strings (x.unmet.map Constraint.render))]))]
  | unconfirmed r d =>
    .object [("kind", .string "unconfirmed"), ("resolvent", .string r.render),
      ("decision", .string d.render),
      ("confirmations", .strings (d.confirmations.map Confirmation.name))]
  | unresolvedCycle members =>
    .object [("kind", .string "unresolved-cycle"),
      ("members", .strings (members.map Resolvent.render))]

end Problem

namespace Job

def cycleText (members : List Resolvent) : String :=
  "in unresolvable dependency cycle with: " ++ Notes.renderNames members

def lines (number : Nat) (j : Job) : List String :=
  [Text.rightAligned 4 number ++ ". " ++ j.kind.name ++ " " ++ j.decision.render] ++
    j.requirements.map (fun r => "        after " ++ toString (r.index + 1)) ++
    j.notes.map ("        note: " ++ ·) ++
    j.cycles.map (fun c => "        warning: " ++ cycleText c) ++
    j.errors.map fun e => "        error: " ++ e.render

def errorToJson : JobError → Json
  | .dependsOnUnable r =>
    .object [("kind", .string "depends-on-unable"), ("resolvent", .string r.render)]
  | .unconfirmed cs =>
    .object [("kind", .string "unconfirmed"), ("confirmations", .strings (cs.map (·.name)))]
  | .dependsOnFailedJob id =>
    .object [("kind", .string "depends-on-failed-job"), ("job", .string id)]

def listField (name : String) (items : List Json) : List (String × Json) :=
  if items.isEmpty then [] else [(name, .array items)]

def toJson (j : Job) : Json :=
  .object <|
    [("id", .string j.id), ("kind", .string j.kind.name),
      ("resolvent", .string j.resolvent.render), ("decision", .string j.decision.render)] ++
    listField "requirements" (j.requirements.map fun r =>
      .object [("job_index", .number r.index), ("kinds", .strings r.kinds.names)]) ++
    listField "notes" (j.notes.map .string) ++
    listField "warnings" (j.cycles.map fun c =>
      .object [("kind", .string "unresolved-cycle"),
        ("members", .strings (c.map Resolvent.render))]) ++
    listField "errors" (j.errors.map errorToJson)

end Job

namespace Plan

def unableProblem? (p : Plan) (r : Resolvent) : Option Problem :=
  match p.registry.get? r with
  | some { constraints, decision := some (.unable rejections _) } =>
    some (.unable r constraints rejections)
  | _ => none

def problems (p : Plan) : List Problem :=
  p.takenUnable.filterMap (unableProblem? p) ++
    p.unconfirmed.filterMap (fun r => (p.registry.decision? r).map (.unconfirmed r)) ++
    p.unresolvedCycles.map .unresolvedCycle

def lines (p : Plan) : List String :=
  (if p.execute.isEmpty then ["Nothing to do"]
    else ["These jobs will be executed, in order:"]) ++
    p.execute.zipIdx.flatMap (fun (j, i) => j.lines (i + 1)) ++
    (if p.untaken.isEmpty then []
      else
        ["", "Suggestions not taken:"] ++
          p.untaken.map fun j => "      " ++ j.decision.render) ++
    (if p.problems.isEmpty then []
      else ["", "Problems:"] ++ p.problems.flatMap Problem.lines) ++
    if p.restarts.isEmpty then [] else ["", toString p.restarts.length ++ " restarts"]

def render (p : Plan) : String := String.join (p.lines.map (· ++ "\n"))

def toJson (p : Plan) : Json :=
  .object [("execute", .array (p.execute.map Job.toJson)),
    ("untaken", .array (p.untaken.map Job.toJson)),
    ("problems", .array (p.problems.map Problem.toJson)),
    ("broken_cycles", .array (p.brokenCycles.map fun c => .strings (c.map Resolvent.render))),
    ("restarts", .number p.restarts.length), ("exit_status", .number p.exitStatus)]

end Plan

end PackagePlan
