import Offside.CommandLine

/-!
The program: reads its arguments, its environment and its input, and writes the response.
-/

set_option autoImplicit false
set_option relaxedAutoImplicit false

namespace Offside

/-- More steps than a run can take. -/
def endlessFuel : Nat := 1 <<< 60

/-- Looks the given variables up once, so that they can be asked for by name. -/
def readEnvironment (names : List String) : IO Environment := do
  let pairs ← names.mapM fun name ↦ return (name, ← IO.getEnv name)
  return fun name ↦ (pairs.lookup name).join

/-- Reads the whole of the standard input. -/
def readInput : IO String := do
  (← IO.getStdin).readToEnd

/-- The text of the input, or the cause why it could not be read. -/
def readSource (path : Option String) : IO (Except String String) := do
  try
    match path with
    | some path => return .ok (← IO.FS.readFile path)
    | none => return .ok (← readInput)
  catch
    | .noFileOrDirectory _ _ _ => return .error CommandLine.missingFile
    | e => return .error (toString e)

def respond (args : List String) : IO (Option CommandLine.Response) := do
  let lookup ← readEnvironment
    [Settings.simplifyVariable, Settings.loweringVariable, Settings.stepsVariable,
      Settings.depthVariable, CommandLine.logVariable]
  match CommandLine.plan lookup args with
  | .done response => return some response
  | .answer o =>
    match ← readSource o.inputPath with
    | .ok source => return CommandLine.respond o source endlessFuel
    | .error cause => return some (CommandLine.unreadable o.inputPath cause)

end Offside

def main (args : List String) : IO UInt32 := do
  match ← Offside.respond args with
  | none => return 1
  | some r =>
    (← IO.getStdout).putStr r.output
    (← IO.getStderr).putStr r.errorOutput
    return r.exitCode.toUInt32
