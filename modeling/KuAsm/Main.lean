import KuAsm.Command.Run

/-!
# The command

Reads the file that a command line names, does what `Invocation.action` says, and ends the process.
-/

namespace KuAsm

/-- The text of a file, if it can be read. -/
def readText (path : String) : IO (Option String) := do
  try return some (← IO.FS.readFile path)
  catch _ => return none

/-- The obstacle that the system tells of. -/
def Obstacle.ofError : IO.Error → Obstacle
  | .noFileOrDirectory _ n m => ofCode n.toNat m
  | .permissionDenied _ n m | .inappropriateType _ n m | .resourceExhausted _ n m
  | .invalidArgument _ n m => ofCode n.toNat m
  | .unsupportedOperation n m | .otherError n m => ofCode n.toNat m
  | e => other 5 e.toString

/-- Write a text to a file: what stands in the way of that, if something does. -/
def writeText (path text : String) : IO (Option Obstacle) := do
  try
    IO.FS.writeFile path text
    return none
  catch e => return some (.ofError e)

/-- Show how the command ends and give its exit code. -/
def Ending.report (e : Ending) : IO UInt32 := do
  IO.print e.shown
  IO.eprint e.told
  return e.exitCode

/-- Do what a command line asks for. -/
def Invocation.perform (i : Invocation) : IO UInt32 := do
  let source ← match i with
    | .compile r => readText r.source
    | _ => pure none
  match i.action fun _ => source with
  | .finish e => e.report
  | .write path text done failed =>
    match ← writeText path text with
    | none => done.report
    | some o => (failed.obstructed o).report

end KuAsm

/-- The entry of the command. -/
def main (args : List String) : IO UInt32 := (KuAsm.Invocation.ofWords args).perform
