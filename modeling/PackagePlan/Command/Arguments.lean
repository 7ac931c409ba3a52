import PackagePlan.Text.Blank
import PackagePlan.Text.Numeral

/-! # Arguments

The command line: options by their long and short names, their values, and the
command that they belong to. A value may follow its option in the same
argument, with or without an equals sign, or in the next one. Every value is
checked where it stands, so a fault comes before a request for help that
follows it.
-/

namespace PackagePlan.Command

inductive OutputFormat
  | text
  | json
  deriving DecidableEq

structure ResolveInputs where
  universePath : String
  configPath : Option String
  sets : List String
  targets : List String

structure ResolveOptions where
  removals : List String
  format : OutputFormat
  permitDowngrade : Bool
  permitOldVersion : Bool
  permitUninstall : Bool
  maxRestarts : Option Nat

inductive Invocation
  | resolve (inputs : ResolveInputs) (options : ResolveOptions)
  | graph (inputs : ResolveInputs) (format : OutputFormat)
  | checkUniverse (path : String)

inductive Interruption
  | usage
  | help
  | version
  deriving DecidableEq

def readPath (s : String) : Except Interruption String :=
  if s.isEmpty then .error .usage else .ok s

def readFormat : String → Except Interruption OutputFormat
  | "text" => .ok .text
  | "json" => .ok .json
  | _ => .error .usage

def readCount (s : String) : Except Interruption Nat :=
  match Text.signedWord? s.toList with
  | some n => .ok n
  | none => .error .usage

inductive ValueKind
  | text
  | path
  | format
  | count

def ValueKind.check : ValueKind → String → Except Interruption Unit
  | .text, _ => .ok ()
  | .path, s => do let _ ← readPath s
  | .format, s => do let _ ← readFormat s
  | .count, s => do let _ ← readCount s

structure OptionSpec where
  long : String
  short : Option Char := none
  value : Option ValueKind := none
  repeatable : Bool := false

structure CommandSpec where
  options : List OptionSpec
  operands : ValueKind := .text
  operandLimit : Option Nat := none

structure Reading where
  options : List (String × String) := []
  operands : List String := []
  pending : Option (OptionSpec × ValueKind) := none
  /-- Two dashes make everything after them an operand. -/
  onlyOperands : Bool := false

abbrev Step := Except Interruption Reading

namespace Reading

def valuesOf (r : Reading) (long : String) : List String :=
  (r.options.filter (·.1 == long)).map (·.2)

def has (r : Reading) (long : String) : Bool := !(r.valuesOf long).isEmpty

def value? (r : Reading) (long : String) : Option String := (r.valuesOf long).head?

def add (r : Reading) (o : OptionSpec) (value : String) : Step :=
  if r.has o.long && !o.repeatable then .error .usage
  else .ok { r with options := r.options ++ [(o.long, value)], pending := none }

def addValue (r : Reading) (o : OptionSpec) (kind : ValueKind) (value : String) : Step := do
  kind.check value
  r.add o value

def addSwitch (r : Reading) (o : OptionSpec) : Step :=
  if o.long = "help" then .error .help
  else if o.long = "version" then .error .version
  else r.add o ""

/-- A dash alone is a value. -/
def looksLikeOption (arg : List Char) : Bool := arg.head? == some '-' && arg.length > 1

variable (spec : CommandSpec)

def addOperand (r : Reading) (arg : String) : Step := do
  if spec.operandLimit.any (· ≤ r.operands.length) then .error .usage
  spec.operands.check arg
  .ok { r with operands := r.operands ++ [arg] }

def readLong (r : Reading) (arg : List Char) : Step :=
  let name := String.ofList (arg.takeWhile (· != '='))
  match spec.options.find? (·.long == name) with
  | none => .error .usage
  | some o =>
    match o.value, arg.dropWhile (· != '=') with
    | none, [] => r.addSwitch o
    | none, _ :: _ => .error .usage
    | some kind, [] => .ok { r with pending := some (o, kind) }
    | some kind, _ :: value => r.addValue o kind (String.ofList value)

/-- The letters after one dash: switches, or an option with its value. -/
def readShort (r : Reading) : List Char → Step
  | [] => .ok r
  | c :: rest =>
    match spec.options.find? (·.short == some c) with
    | none => .error .usage
    | some o =>
      match o.value, rest with
      | none, _ => do readShort (← r.addSwitch o) rest
      | some kind, [] => .ok { r with pending := some (o, kind) }
      | some kind, '=' :: value => r.addValue o kind (String.ofList value)
      | some kind, value => r.addValue o kind (String.ofList value)

def readArgument (r : Reading) (arg : String) : Step :=
  let chars := arg.toList
  if r.onlyOperands then r.addOperand spec arg
  else
    match r.pending with
    | some (o, kind) => if looksLikeOption chars then .error .usage else r.addValue o kind arg
    | none =>
      match chars with
      | ['-', '-'] => .ok { r with onlyOperands := true }
      | '-' :: '-' :: name => readLong spec r name
      | '-' :: c :: rest => readShort spec r (c :: rest)
      | _ => r.addOperand spec arg

def read (args : List String) : Step := do
  let r ← args.foldlM (readArgument spec) {}
  if r.pending.isSome then .error .usage else .ok r

end Reading

def globalOptions : List OptionSpec :=
  [{ long := "verbose", short := some 'v' }, { long := "help", short := some 'h' }]

def inputOptions : List OptionSpec :=
  [{ long := "universe", short := some 'u', value := some .path },
    { long := "config", short := some 'c', value := some .path },
    { long := "set", value := some .text, repeatable := true },
    { long := "format", short := some 'f', value := some .format }]

def resolveOptions : List OptionSpec :=
  [{ long := "remove", value := some .text, repeatable := true }, { long := "permit-downgrade" },
    { long := "permit-old-version" }, { long := "permit-uninstall" },
    { long := "max-restarts", value := some .count }]

def programSpec : CommandSpec where
  options := { long := "version", short := some 'V' } :: globalOptions

def resolveSpec : CommandSpec where
  options := globalOptions ++ inputOptions ++ resolveOptions

def graphSpec : CommandSpec where
  options := globalOptions ++ inputOptions

def checkUniverseSpec : CommandSpec where
  options := globalOptions
  operands := .path
  operandLimit := some 1

def readInputs (r : Reading) : Except Interruption ResolveInputs := do
  let some path := r.value? "universe" | .error .usage
  .ok
    { universePath := ← readPath path
      configPath := ← (r.value? "config").mapM readPath
      sets := r.valuesOf "set"
      targets := r.operands }

def formatOf (r : Reading) : Except Interruption OutputFormat :=
  ((r.value? "format").mapM readFormat).map (·.getD .text)

def readResolve (args : List String) : Except Interruption Invocation := do
  let r ← Reading.read resolveSpec args
  .ok (.resolve (← readInputs r)
    { removals := r.valuesOf "remove"
      format := ← formatOf r
      permitDowngrade := r.has "permit-downgrade"
      permitOldVersion := r.has "permit-old-version"
      permitUninstall := r.has "permit-uninstall"
      maxRestarts := ← (r.value? "max-restarts").mapM readCount })

def readGraph (args : List String) : Except Interruption Invocation := do
  let r ← Reading.read graphSpec args
  .ok (.graph (← readInputs r) (← formatOf r))

def readCheckUniverse (args : List String) : Except Interruption Invocation := do
  let r ← Reading.read checkUniverseSpec args
  match r.operands with
  | [path] => .checkUniverse <$> readPath path
  | _ => .error .usage

def commandNames : List String := ["resolve", "graph", "check-universe", "help"]

def readHelp : List String → Interruption
  | [] => .help
  | [name] => if name ∈ commandNames then .help else .usage
  | _ => .usage

def readCommand (name : String) (args : List String) : Except Interruption Invocation :=
  match name with
  | "resolve" => readResolve args
  | "graph" => readGraph args
  | "check-universe" => readCheckUniverse args
  | "help" => .error (readHelp args)
  | _ => .error .usage

def splitAtCommand (args : List String) : List String × List String :=
  args.span fun arg => Reading.looksLikeOption arg.toList && arg != "--"

def readArguments (args : List String) : Except Interruption Invocation := do
  let (before, rest) := splitAtCommand args
  let _ ← Reading.read programSpec before
  match rest with
  | [] => .error .usage
  | name :: args => readCommand name args

end PackagePlan.Command
