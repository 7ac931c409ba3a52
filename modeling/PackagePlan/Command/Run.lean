import PackagePlan.Command.Arguments
import PackagePlan.Command.Files
import PackagePlan.Plan.Report
import PackagePlan.Plan.Request
import PackagePlan.Policy.Config
import PackagePlan.Universe.Load

/-! # Commands

What each command prints and with which status it ends, given the contents of
the files that it names. An error is reported with what was being done.
-/

namespace PackagePlan.Command

structure Outcome where
  status : Nat
  stdout : String := ""
  error : Option String := none
  deriving DecidableEq

def failureStatus : Nat := 64

def usageStatus : Nat := 2

abbrev Run := Except String

def within {ε α : Type} (context : String) (message : ε → String) (x : Except ε α) : Run α :=
  x.mapError fun e => context ++ ": " ++ message e

def readFailure (reason : String) : String := "I/O error: " ++ reason ++ ": " ++ reason

def parseFailure : String := "Failed to parse TOML"

def parseWith {α : Type} (parse? : String → Option α) (text : String) : Run α :=
  match parse? text with
  | some x => .ok x
  | none => .error parseFailure

variable (files : Files)

def readFile (path : String) : Run String := (files path).mapError readFailure

def readUniverse (path : String) : Run Universe := do
  parseWith Universe.parse? (← readFile files path)

def loadUniverse (path : String) : Run Database := do
  (← readUniverse files path).load.mapError (·.message)

def loadConfig (path : String) : Run Config := do
  let config ← parseWith Config.parse? (← readFile files path)
  config.validate.mapError (·.message)
  .ok config

def loadInputs (inputs : ResolveInputs) : Run (Database × Config) := do
  let db ← within ("Failed to load universe " ++ inputs.universePath) id
    (loadUniverse files inputs.universePath)
  match inputs.configPath with
  | none => .ok (db, {})
  | some path =>
    let config ← within ("Failed to load config " ++ path) id (loadConfig files path)
    .ok (db, config)

def readRequirement (what text : String) : Run Requirement :=
  within s!"Invalid {what} '{text}'" InvalidRequirement.message (Requirement.parse text)

def addTargets (db : Database) (inputs : ResolveInputs) : Run Request := do
  if inputs.targets.isEmpty && inputs.sets.isEmpty then
    .error "Nothing to resolve: give at least one target or --set"
  let q ← inputs.targets.foldlM
    (fun (q : Request) t => q.addTarget <$> readRequirement "target" t) {}
  inputs.sets.foldlM (fun (q : Request) set => (q.addSet db set).mapError (·.message)) q

def addRemovals (q : Request) (removals : List String) : Run Request :=
  removals.foldlM (fun q r => q.addRemoval <$> readRequirement "removal" r) q

def permit (options : ResolveOptions) (p : Permits) : Permits :=
  { p with
    downgrade := p.downgrade || options.permitDowngrade
    oldVersion := p.oldVersion || options.permitOldVersion
    uninstall := p.uninstall || options.permitUninstall }

def runResolve (inputs : ResolveInputs) (options : ResolveOptions) : Run Outcome := do
  let (db, config) ← loadInputs files inputs
  let preferences ← config.preferences.mapError (·.message)
  let policy := { preferences with permits := permit options preferences.permits }.policy
  let seeds ← config.seeds.mapError (·.message)
  let q ← addRemovals (← addTargets db inputs) options.removals
  let plan ← (q.plan db policy seeds
    (options.maxRestarts.getD config.resolver.maxRestarts)).mapError (·.message)
  .ok
    { status := plan.exitStatus
      stdout :=
        match options.format with
        | .text => plan.render
        | .json => plan.toJson.pretty 0 ++ "\n" }

def innerEdges (g : PlanGraph) (members : List Resolvent) : List (Resolvent × Resolvent) :=
  members.flatMap fun a =>
    ((g.edgesFrom a).filter fun (b, _) => members.contains b).map fun (b, _) => (a, b)

def componentToJson (g : PlanGraph) (members : List Resolvent) : Json :=
  .object [("members", .strings (members.map Resolvent.render)),
    ("edges", .array ((innerEdges g members).map fun (a, b) => .strings [a.render, b.render]))]

def componentLines (g : PlanGraph) (number : Nat) (members : List Resolvent) : List String :=
  let start := Text.rightAligned 4 number ++ ". "
  match members with
  | [r] => [start ++ r.render]
  | _ =>
    (start ++ s!"cycle of {members.length}:") ::
      (innerEdges g members).map fun (a, b) => "        " ++ a.render ++ " needs " ++ b.render

def graphLines (g : PlanGraph) : List String :=
  s!"{g.nodes.size} nodes, {g.edgeCount} edges, {g.components.length} components" ::
    g.components.zipIdx.flatMap fun (members, i) => componentLines g (i + 1) members

def printLines (lines : List String) : String := String.join (lines.map (· ++ "\n"))

def runGraph (inputs : ResolveInputs) (format : OutputFormat) : Run Outcome := do
  let (db, config) ← loadInputs files inputs
  let policy := (← config.preferences.mapError (·.message)).policy
  let seeds ← config.seeds.mapError (·.message)
  let q ← addTargets db inputs
  let decided ← (q.decide db policy seeds config.resolver.maxRestarts).mapError (·.message)
  let g := decided.graph
  .ok
    { status := 0
      stdout :=
        match format with
        | .json => (Json.array (g.components.map (componentToJson g))).pretty 0 ++ "\n"
        | .text => printLines (graphLines g) }

def runCheckUniverse (path : String) : Run Outcome := do
  let u ← within ("Failed to read universe " ++ path) id (readUniverse files path)
  let db ← within ("Invalid universe " ++ path) UniverseFault.message u.load
  let installed := (db.installedIds .slash).length + (db.installedIds .chroot).length
  let dangling := db.dangling.length
  .ok
    { status := 0
      stdout := printLines
        ([path ++ ": OK", s!"  Packages: {db.packageNames.length}",
          s!"  Ids: {db.size} ({installed} installed)", s!"  Sets: {db.setNames.length}"] ++
          if dangling = 0 then [] else [s!"  Dependencies on unknown packages: {dangling}"]) }

def runInvocation : Invocation → Run Outcome
  | .resolve inputs options => runResolve files inputs options
  | .graph inputs format => runGraph files inputs format
  | .checkUniverse path => runCheckUniverse files path

def versionText : String := "installplan 0.1.0\n"

def helpText : String := printLines
  ["Resolve package dependencies and plan install order", "",
    "Usage: installplan [OPTIONS] <COMMAND>", "", "Commands:",
    "  resolve         Decide what to install and in which order",
    "  graph           Print the strongly connected components of the dependency graph",
    "  check-universe  Load and validate a universe file",
    "  help            Print this message or the help of the given subcommand(s)", "",
    "Options:", "  -v, --verbose  Log debug detail", "  -h, --help     Print help",
    "  -V, --version  Print version"]

def run (args : List String) : Outcome :=
  match readArguments args with
  | .error .usage => { status := usageStatus }
  | .error .help => { status := 0, stdout := helpText }
  | .error .version => { status := 0, stdout := versionText }
  | .ok invocation =>
    match runInvocation files invocation with
    | .ok outcome => outcome
    | .error message => { status := failureStatus, error := some message }

def Invocation.paths : Invocation → List String
  | .resolve inputs _ => inputs.universePath :: inputs.configPath.toList
  | .graph inputs _ => inputs.universePath :: inputs.configPath.toList
  | .checkUniverse path => [path]

end PackagePlan.Command
