import Deadwood.Cleanup.Pruning
import Deadwood.Project.Scan
import Deadwood.Quarantine.Store

/-!
# Cleaning a project

The dead files of a project are set aside, with further files on request, and the imports of them
are pruned from the files that stay. Files with pruned imports are backed up in the same session.
-/

namespace Deadwood

/-- What a cleanup did, or would do. -/
structure CleanReport where
  filesRemoved : Nat := 0
  bytesRemoved : Nat := 0
  files : List Path := []
  importsPruned : Nat := 0
  reExportsPruned : Nat := 0
  sessionId : Option String := none
  failed : List FileFailure := []
  dryRun : Bool := false

namespace CleanReport

instance : Inhabited CleanReport := ⟨{}⟩

def addFile (r : CleanReport) (u : SourceUnit) : CleanReport :=
  { r with
    filesRemoved := r.filesRemoved + 1
    bytesRemoved := r.bytesRemoved + u.size
    files := r.files ++ [u.relative] }

def addPruned (r : CleanReport) (p : Pruned) : CleanReport :=
  { r with
    importsPruned := r.importsPruned + p.imports
    reExportsPruned := r.reExportsPruned + p.reExports }

def addFailure (r : CleanReport) (path : Path) (reason : String) : CleanReport :=
  { r with failed := r.failed ++ [⟨path, reason⟩] }

end CleanReport

namespace Scan

variable (s : Scan)

/-- The unit that a path on the command line means: within the project, with or without the path of
the project before it. -/
def unitAt? (path : Path) : Option Nat :=
  let path := (path.below? s.root).getD path
  s.graph.indexOf? ((path.below? ⟨"./"⟩).getD path)

/-- The positions of the units to remove, in ascending order: the dead ones and those at some paths.
Paths at which no unit is are told too. -/
def removal (extra : List Path) : List Nat × List FileFailure :=
  let unknown := extra.filter fun path => (s.unitAt? path).isNone
  let removed := (s.deadUnits ++ extra.filterMap s.unitAt?).eraseDups
  (removed.mergeSort, unknown.map fun path => ⟨path, "not a scanned source file"⟩)

def unitsAt (positions : List Nat) : List SourceUnit :=
  positions.filterMap fun i => s.graph.units[i]?

/-- Adds what would be pruned by some plans. Files that cannot be read are passed over. -/
def previewPlans (report : CleanReport) : List PruningPlan → FileTask CleanReport
  | [] => return report
  | plan :: plans => do
    match ← FileTask.readText plan.path with
    | .ok text => previewPlans (report.addPruned (prune text plan.imports)) plans
    | .error _ => previewPlans report plans

/-- The report of a dry run, which changes nothing. -/
def preview (extra : List Path) : FileTask CleanReport := do
  let (removed, unknown) := s.removal extra
  let report := (s.unitsAt removed).foldl CleanReport.addFile { failed := unknown, dryRun := true }
  if removed.isEmpty then return report
  else previewPlans report (s.graph.pruningPlans removed)

/-- Moves units into the session, one after another. -/
def removeUnits (session : OpenSession) (report : CleanReport) :
    List SourceUnit → FileTask (CleanReport × OpenSession)
  | [] => return (report, session)
  | u :: us => do
    let (result, session) ← session.fill (OpenSession.moveIn u.relative)
    match result with
    | .ok () => removeUnits session (report.addFile u) us
    | .error e => removeUnits session (report.addFailure u.relative e.message) us

/-- Prunes a file, after its contents have been backed up. Answers what was pruned, or why nothing
was. -/
def pruneFile (session : OpenSession) (plan : PruningPlan) :
    FileTask (Except String (Option Pruned) × OpenSession) := do
  match ← FileTask.readText plan.path with
  | .error e => return (.error e.message, session)
  | .ok text =>
    let pruned := prune text plan.imports
    if !pruned.changed then return (.ok none, session)
    else
      let (result, session) ← session.fill (OpenSession.backUp plan.relative (Bytes.ofText pruned.text))
      match result with
      | .error e => return (.error e.message, session)
      | .ok () =>
        match ← FileTask.write plan.path (Bytes.ofText pruned.text) with
        | .error e => return (.error e.message, session)
        | .ok () => return (.ok (some pruned), session)

/-- Prunes by each plan, and adds what was pruned or why nothing was. -/
def pruneFiles (session : OpenSession) (report : CleanReport) :
    List PruningPlan → FileTask (CleanReport × OpenSession)
  | [] => return (report, session)
  | plan :: plans => do
    let (result, session) ← pruneFile session plan
    match result with
    | .ok none => pruneFiles session report plans
    | .ok (some pruned) => pruneFiles session (report.addPruned pruned) plans
    | .error reason => pruneFiles session (report.addFailure plan.relative reason) plans

/-- Sets the units to remove aside and prunes the imports of them. -/
def clean (now : Moment) (extra : List Path) : QuarantineTask CleanReport := do
  let (removed, unknown) := s.removal extra
  if removed.isEmpty then return { failed := unknown }
  else
    let session ← (Quarantine.mk s.root).openSession now
    let report : CleanReport := { failed := unknown, sessionId := some session.record.id }
    let (report, session) ← (removeUnits session report (s.unitsAt removed) : FileTask _)
    let (report, session) ← (pruneFiles session report (s.graph.pruningPlans removed) : FileTask _)
    let _ ← (session.finish : FileTask _)
    return report

end Scan

end Deadwood
