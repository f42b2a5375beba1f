import Deadwood.CommandLine.Run
import Deadwood.Dialect.Grammars
import Deadwood.Files.Disk
import Std.Time.DateTime.Timestamp

/-!
# The program

Reads a command from the arguments, carries it out on the disk and prints what it comes to.
-/

namespace Deadwood

def presentMoment : IO Moment := do
  let nanos := (← Std.Time.Timestamp.now).toNanosecondsSinceUnixEpoch.toInt
  let seconds := nanos / 1000000000
  return ⟨seconds / 86400, (seconds % 86400).toNat, (nanos % 1000000000).toNat⟩

def usageText : String :=
  "Usage: deadfiles [OPTIONS] [PATH]\n       deadfiles <COMMAND> [OPTIONS]\n\n" ++
    "Commands: " ++ Text.join ", " Command.names ++ "\n"

def answerUsage : UsageError → IO UInt32
  | .help => do
    IO.print usageText
    return 0
  | .version => do
    IO.println "deadfiles 0.4.0"
    return 0
  | _ => do
    IO.eprint usageText
    return 2

def askUser (question : String) : IO Bool := do
  IO.eprint (question ++ " [y/N] ")
  return (Text.trim (← (← IO.getStdin).getLine)).toLower == "y"

def carryOut (s : Surroundings) (c : Command) : IO (Except CommandError Outcome) :=
  (c.run s).run.runOnDisk.run' []

/-- Prints what a command comes to; a question is asked first, if there is somebody to answer. -/
def conclude (s : Surroundings) (c : Command) : IO (Except CommandError Outcome) := do
  match ← carryOut s c with
  | .ok (.question text) =>
    if ← (← IO.getStdin).isTty then carryOut { s with consent := some (← askUser text) } c
    else return .error .unattended
  | result => return result

def start (arguments : List String) : IO UInt32 := do
  match Command.read arguments with
  | .error e => answerUsage e
  | .ok c =>
    let colours ← (← IO.getStdout).isTty
    match ← conclude { now := ← presentMoment, colours } c with
    | .ok (.finished code stdout stderr) =>
      IO.print stdout
      IO.eprint stderr
      return code.toUInt32
    | .ok (.question _) => return 2
    | .error e =>
      IO.eprintln ("Error: " ++ e.message)
      if let some cause := e.cause? then IO.eprintln ("  caused by: " ++ cause.message)
      return 2

end Deadwood

def main (arguments : List String) : IO UInt32 := Deadwood.start arguments
