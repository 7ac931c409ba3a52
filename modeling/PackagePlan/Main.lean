import PackagePlan.Command.Run

/-! # The program

Reads the files that the command line names, runs the command and prints what
comes of it.
-/

namespace PackagePlan.Command

/-- The reason for a number of the system, which a failure to open comes with negated. -/
def reasonOf (code : UInt32) (text : String) : String :=
  match code.toInt32.toInt.natAbs with
  | 2 => Files.missing
  | 13 => Files.forbidden
  | 20 => Files.notDirectory
  | 21 => Files.isDirectory
  | 36 => Files.nameTooLong
  | 40 => Files.tooManyLinks
  | number => Files.systemReason text number

def describe : IO.Error → String
  | .noFileOrDirectory _ code text | .invalidArgument _ code text
  | .permissionDenied _ code text | .resourceExhausted _ code text
  | .inappropriateType _ code text | .noSuchThing _ code text
  | .otherError code text => reasonOf code text
  | .userError _ => Files.notText
  | e => toString e

def fetch (path : String) : IO (String × Except String String) := do
  try
    return (path, .ok (← IO.FS.readFile path))
  catch e => return (path, .error (describe e))

def fetchAll (args : List String) : IO (List (String × Except String String)) :=
  match readArguments args with
  | .ok invocation => invocation.paths.mapM fetch
  | .error _ => return []

end PackagePlan.Command

open PackagePlan.Command in
def main (args : List String) : IO UInt32 := do
  let fetched ← fetchAll args
  let outcome := run (fun path => (fetched.lookup path).getD (.error Files.missing)) args
  IO.print outcome.stdout
  if let some message := outcome.error then IO.eprintln ("Error: " ++ message)
  return outcome.status.toUInt32
