import Deadwood.CommandLine.Command
import Deadwood.Report.Terminal
import Deadwood.Report.Written

/-!
# Carrying out commands

* `Outcome`: what a command comes to;
* `CommandError`: why a command fails, with its message and its cause;
* `Command.run`: carrying out a command.
-/

namespace Deadwood

/-- Why a command failed. -/
inductive CommandError where
  | scan (error : ScanError)
  | quarantine (error : QuarantineError)
  | restore (error : QuarantineError)
  | purge (error : QuarantineError)
  | file (error : FileError)
  | unattended

namespace CommandError

def message : CommandError → String
  | scan error => error.message
  | quarantine error => error.message
  | restore _ => "Restore failed"
  | purge _ => "Purge failed"
  | file error => error.message
  | unattended => "IO error: not a terminal"

def cause? : CommandError → Option QuarantineError
  | restore error | purge error => some error
  | _ => none

end CommandError

/-- What a command ends with: its output and exit code, or a question. -/
inductive Outcome where
  | finished (code : Nat) (stdout stderr : String)
  | question (text : String)

/-- What a command sees besides the files. -/
structure Surroundings where
  now : Moment
  colours : Bool := false
  consent : Option Bool := none

/-- A file task that may fail as a command. -/
abbrev CommandTask := ExceptT CommandError FileTask

namespace CommandTask

def ofTask {ε α : Type} (wrap : ε → CommandError) (task : FileTask (Except ε α)) : CommandTask α :=
  ExceptT.mk do
    match ← task with
    | .ok a => return .ok a
    | .error e => return .error (wrap e)

def report (format : ReportFormat) (output : Option Path) (text : String) (json : Json) :
    CommandTask (String × String) :=
  match format, output with
  | .terminal, _ => return (text, "")
  | .json, none => return (json.pretty ++ "\n", "")
  | .json, some path => do
    ofTask .file (FileTask.write path (Bytes.ofText json.pretty))
    return ("", "Report written to: " ++ path.text ++ "\n")

def projectRoot (path : Path) : CommandTask Path := do
  match ← (FileTask.resolve path : FileTask _) with
  | .ok root => return root
  | .error _ => throw (.scan (.noProject path.text))

def configOf (project : ProjectOptions) : CommandTask Config := do
  let config ← ofTask (fun e => .scan (.config e)) (match project.config with
    | some path => Config.load path
    | none => Config.loadFrom project.path)
  return { config with
    exclude := config.exclude ++ project.exclude
    entryPoints := config.entryPoints ++ project.entries
    securityEnabled := config.securityEnabled && !project.noSecurity }

end CommandTask

namespace Command

open CommandTask

/-- Runs a task once it is confirmed, by switch or by answer. -/
def asking (s : Surroundings) (confirmed : Bool) (question : String) (task : CommandTask Outcome) :
    CommandTask Outcome :=
  if confirmed then task
  else
    match s.consent with
    | none => return .question question
    | some true => task
    | some false =>
      return .finished 0 (Style.paint s.colours (.plain .yellow) "Nothing was changed." ++ "\n") ""

def thresholdNotice (s : Surroundings) (rate threshold : Binary64) : String :=
  Style.paint s.colours (.strong .red)
    ("Dead rate " ++ rate.fixed 1 ++ "% exceeds the CI threshold of " ++ threshold.fixed 1 ++ "%") ++ "\n"

def runScan [TreeReader] (s : Surroundings) (project : ProjectOptions) (ci : Bool) (threshold : Option Binary64) :
    CommandTask Outcome := do
  let config ← configOf project
  let threshold := threshold.getD config.failThreshold
  let found := ScanReport.ofScan (← ofTask .scan (Deadwood.scan config project.path))
  let (stdout, stderr) ← report project.format project.output (Terminal.scan s.colours found) found.toJson
  if ci && found.exceeds threshold then
    return .finished 1 stdout (stderr ++ thresholdNotice s found.summary.deadRate threshold)
  else return .finished 0 stdout stderr

def runClean [TreeReader] (s : Surroundings) (project : ProjectOptions) (dryRun confirmed : Bool)
    (remove : List Path) : CommandTask Outcome := do
  let config ← configOf project
  let found ← ofTask .scan (Deadwood.scan config project.path)
  let finish (done : CleanReport) : CommandTask Outcome := do
    let (stdout, stderr) ← report project.format project.output (Terminal.clean s.colours done) done.toJson
    return .finished 0 stdout stderr
  let preview ← (found.preview remove : FileTask _)
  if dryRun || preview.filesRemoved == 0 then finish preview
  else
    asking s confirmed ("Quarantine " ++ toString preview.filesRemoved ++ " files?") do
      finish (← ofTask .quarantine (found.clean s.now remove).run)

/-- Carries a command out. -/
def run [TreeReader] (s : Surroundings) : Command → CommandTask Outcome
  | .scan project ci threshold => runScan s project ci threshold
  | .clean project dryRun confirmed remove => runClean s project dryRun confirmed remove
  | .restore id path format => do
    let root ← projectRoot path
    let done ← ofTask .restore ((Quarantine.mk root).restore id).run
    let (stdout, stderr) ← report format none (Terminal.restore s.colours id done) done.toJson
    return .finished 0 stdout stderr
  | .purge id path format confirmed => do
    let root ← projectRoot path
    asking s confirmed ("Permanently delete quarantine session " ++ id ++ "?") do
      let count ← ofTask .purge ((Quarantine.mk root).purge id).run
      let (stdout, stderr) ← report format none (Terminal.purge s.colours id count) (purgeJson count)
      return .finished 0 stdout stderr
  | .sessions path format => do
    let root ← projectRoot path
    let records ← ofTask .quarantine (Quarantine.mk root).sessions.run
    let (stdout, stderr) ← report format none (Terminal.sessions s.colours records)
      (.array (records.map SessionRecord.toJson))
    return .finished 0 stdout stderr

/-- Carries out a command without anybody who could be asked: a question is an error. -/
def runUnattended [TreeReader] (s : Surroundings) (c : Command) : CommandTask (Nat × String × String) := do
  match ← c.run s with
  | .finished code stdout stderr => return (code, stdout, stderr)
  | .question _ => throw .unattended

end Command

end Deadwood
