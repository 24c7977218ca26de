import HopSampler.CommandLine.Run

/-!
# The program

Reads the files a command names, runs it, writes what it leads to. Reports go to the standard output
and failures to the standard error; the exit code is 0 for a report, 1 for a failure and 2 for words
that make no command.
-/

open HopSampler HopSampler.CommandLine

/-- The text of a file, if it can be read as text. -/
def readText (path : String) : IO (Option String) := do
  try
    return some (← IO.FS.readFile path)
  catch _ =>
    return none

/-- Show a failure with its cause. -/
def showFailure (failure : Failure) : IO UInt32 := do
  IO.eprintln ("Error: " ++ failure.message)
  match failure.cause with
  | none => pure ()
  | some cause =>
    IO.eprintln ""
    IO.eprintln "Caused by:"
    IO.eprintln ("    " ++ cause.message)
  return 1

/-- Run a command. -/
def runCommand (command : Command) : IO UInt32 := do
  let start ← IO.monoNanosNow
  let texts ← command.inputs.mapM fun path ↦ return (path, ← readText path)
  let files : Files := fun path ↦ (texts.lookup path).join
  match command.run files with
  | .error failure => showFailure failure
  | .ok outcome =>
    if let some (path, text) := outcome.write then
      try
        IO.FS.writeFile path text
      catch _ =>
        return ← showFailure (writeFailure path)
    let elapsed := (← IO.monoNanosNow) - start
    IO.print (outcome.report.text (Text.elapsed elapsed))
    return 0

def main (args : List String) : IO UInt32 := do
  match Command.ofWords args with
  | .ok command => runCommand command
  | .error .help =>
    IO.println "usage: (ring | stats | sample | sample-edges | epoch) [INPUT] [OPTIONS]"
    return 0
  | .error .usage =>
    IO.eprintln "usage: (ring | stats | sample | sample-edges | epoch) [INPUT] [OPTIONS]"
    return 2
