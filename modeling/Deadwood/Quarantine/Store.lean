import Deadwood.Files.Task
import Deadwood.Quarantine.Record
import Deadwood.Quarantine.Sha256

/-!
# The quarantine of a project

Files that are set aside go to a store within the project, where every session has a directory with
its record, the files that it keeps, and a lock file beside it. The record is written anew after
every file, through a second file that takes its place in one step; so the store is in order
whenever the program is stopped.
-/

namespace Deadwood

/-- How a quarantine task fails as a whole. -/
inductive QuarantineError where
  | notFound (id : String)
  | alreadyRestored (id : String)
  | busy (id : String)
  | file (error : FileError)
  | malformed
deriving Repr, DecidableEq

def QuarantineError.message : QuarantineError → String
  | notFound id => "Quarantine session not found: " ++ id
  | alreadyRestored id => "Quarantine session " ++ id ++ " has already been restored"
  | busy id => "Quarantine session " ++ id ++ " is in use by another process"
  | file error => "Filesystem error: " ++ error.message
  | malformed => "Malformed session manifest"

/-- A file that an operation could not deal with. The operation goes on with the others. -/
structure FileFailure where
  path : Path
  reason : String
deriving Repr

/-- A file task that may fail as a whole. -/
abbrev QuarantineTask := ExceptT QuarantineError FileTask

def QuarantineTask.ofFiles {α : Type} (t : FileTask (Except FileError α)) : QuarantineTask α :=
  ExceptT.mk do
    match ← t with
    | .ok a => return .ok a
    | .error e => return .error (.file e)

/-! ## Places -/

/-- The quarantine of the project at `root`. -/
structure Quarantine where
  root : Path

def filesDirectory : Path := ⟨"files"⟩

def recordFile : Path := ⟨"manifest.json"⟩

/-- The file that a new record is written to before it takes the place of the old one. -/
def recordDraft : Path := ⟨"manifest.json.tmp"⟩

namespace Quarantine

/-- The directory that holds the sessions. -/
def base (q : Quarantine) : Path := (q.root.join ⟨".deadfiles"⟩).join ⟨"quarantine"⟩

def directory (q : Quarantine) (id : String) : Path := q.base.join ⟨id⟩

def lockFile (q : Quarantine) (id : String) : Path := q.base.join ⟨id ++ ".lock"⟩

def lock (q : Quarantine) (id : String) : QuarantineTask Unit := do
  if ← QuarantineTask.ofFiles (FileTask.lock (q.lockFile id)) then return () else throw (.busy id)

def unlock (q : Quarantine) (id : String) : QuarantineTask Unit := FileTask.unlock (q.lockFile id)

/-- Runs a task under the lock of a session, and gives the lock up however it ends. -/
def locked {α : Type} (q : Quarantine) (id : String) (task : QuarantineTask α) : QuarantineTask α := do
  q.lock id
  let result ← ExceptT.lift task.run
  q.unlock id
  ExceptT.mk (pure result)

end Quarantine

/-! ## Records on disk -/

/-- Writes the record beside its place, then moves it there. -/
def SessionRecord.save (r : SessionRecord) (directory : Path) : QuarantineTask Unit := do
  QuarantineTask.ofFiles (FileTask.write (directory.join recordDraft) r.contents)
  QuarantineTask.ofFiles (FileTask.move (directory.join recordDraft) (directory.join recordFile))

/-- Reads the record of a session back. -/
def SessionRecord.load (directory : Path) : QuarantineTask SessionRecord := do
  match ← (FileTask.read (directory.join recordFile) : FileTask _) with
  | .error .isDirectory => throw .malformed
  | .error e => throw (.file e)
  | .ok contents =>
    match SessionRecord.ofContents? contents with
    | some r => return r
    | none => throw .malformed

/-! ## Setting files aside -/

/-- Moves a file; if it cannot be moved, copies it and removes it. -/
def moveFile (source target : Path) : FileTask (Except FileError Unit) := do
  match ← FileTask.move source target with
  | .ok () => return .ok ()
  | .error e =>
    match ← FileTask.copy source target with
    | .error _ => return .error e
    | .ok _ => FileTask.removeFile source

/-- Removes empty directories, from one upwards to below another. The fuel bounds their number. -/
def removeEmptyBelow (root : Path) : (fuel : Nat) → Option Path → FileTask Unit
  | 0, _ | _, none => return ()
  | fuel + 1, some directory => do
    if directory == root || !directory.startsWith root then return ()
    else
      match ← FileTask.removeDirectory directory with
      | .error _ => return ()
      | .ok () => removeEmptyBelow root fuel directory.parent?

/-- A session being filled, with its record so far. -/
structure OpenSession where
  quarantine : Quarantine
  record : SessionRecord
  /-- The files whose old contents the session has been asked to keep. -/
  backedUp : List Path := []

/-- A task that fills a session. What it records stays recorded even if it fails. -/
abbrev FillingTask := ExceptT QuarantineError (StateT OpenSession FileTask)

namespace OpenSession

def directory (s : OpenSession) : Path := s.quarantine.directory s.record.id

def relative (s : OpenSession) (path : Path) : Path := (path.below? s.quarantine.root).getD path

def lift {α : Type} (task : QuarantineTask α) : FillingTask α :=
  ExceptT.mk (StateT.lift task.run)

def files {α : Type} (task : FileTask (Except FileError α)) : FillingTask α := lift (.ofFiles task)

def save : FillingTask Unit := do
  let s ← get
  lift (s.record.save s.directory)

def add (f : StoredFile) : FillingTask Unit := do
  modify fun s => { s with record := s.record.add f }
  save

/-- Moves a file into the session and records it. -/
def moveIn (path : Path) : FillingTask Unit := do
  let s ← get
  let relative := s.relative path
  let home := s.quarantine.root.join relative
  let status ← files (FileTask.status home)
  let stored := filesDirectory.join relative
  files (FileTask.makeDirectoriesAbove (s.directory.join stored))
  files (moveFile home (s.directory.join stored))
  add { home := relative, stored, size := status.size }
  lift (removeEmptyBelow s.quarantine.root home.components.length home.parent? : FileTask Unit)

def withHash (r : SessionRecord) (relative : Path) (hash : String) : SessionRecord :=
  let rec update : List StoredFile → List StoredFile
    | [] => []
    | f :: fs =>
      if f.edited && f.home == relative then { f with writtenHash := some hash } :: fs
      else f :: update fs
  { r with files := update r.files }

/-- Keeps the contents of a file that is about to get new contents. The fingerprint of the new
contents is recorded, so that they can be told from later changes. -/
def backUp (path : Path) (replacement : Bytes) : FillingTask Unit := do
  let s ← get
  let relative := s.relative path
  let hash := fingerprint replacement
  if s.backedUp.contains relative then
    set { s with record := withHash s.record relative hash }
    save
  else
    set { s with backedUp := relative :: s.backedUp }
    let stored := filesDirectory.join relative
    files (FileTask.makeDirectoriesAbove (s.directory.join stored))
    let size ← files (FileTask.copy (s.quarantine.root.join relative) (s.directory.join stored))
    add { home := relative, stored, size, edited := true, writtenHash := some hash }

def fill {α : Type} (s : OpenSession) (task : FillingTask α) :
    FileTask (Except QuarantineError α × OpenSession) := task.run.run s

/-- Closes a session by giving its lock up. -/
def finish (s : OpenSession) : FileTask SessionRecord := do
  FileTask.unlock (s.quarantine.lockFile s.record.id)
  return s.record

end OpenSession

/-- The name of a session: the stamp, or the stamp with a number. -/
def sessionName (stamp : String) (attempt : Nat) : String :=
  if attempt == 0 then stamp else stamp ++ "-" ++ toString attempt

namespace Quarantine

/-- Makes the directory of a session under the first name from an attempt on that is free. -/
def reserveNameWithin (q : Quarantine) (stamp : String) : (fuel attempt : Nat) → QuarantineTask String
  | 0, _ => throw (.file .occupied)
  | fuel + 1, attempt => do
    let id := sessionName stamp attempt
    match ← (FileTask.makeDirectory (q.directory id) : FileTask _) with
    | .ok () => return id
    | .error .occupied => reserveNameWithin q stamp fuel (attempt + 1)
    | .error e => throw (.file e)

variable (q : Quarantine)

/-- Makes the directory of a session under the first name that is free. Names that are taken are in
the store, so one of them is free if there are more attempts than names. -/
def reserveName (stamp : String) : QuarantineTask String := do
  let names ← QuarantineTask.ofFiles (FileTask.list q.base)
  q.reserveNameWithin stamp (names.length + 1) 0

/-- Opens a session under a name no other has. -/
def openSession (now : Moment) : QuarantineTask OpenSession := do
  QuarantineTask.ofFiles (FileTask.makeDirectories q.base)
  let id ← q.reserveName now.stamp
  q.lock id
  let record : SessionRecord := { id, createdAt := now }
  try
    QuarantineTask.ofFiles (FileTask.makeDirectories ((q.directory id).join filesDirectory))
    record.save (q.directory id)
  catch e =>
    q.unlock id
    throw e
  return ⟨q, record, []⟩

def moveAll (session : OpenSession) : List Path → FileTask (List FileFailure × OpenSession)
  | [] => return ([], session)
  | path :: paths => do
    let (result, session) ← session.fill (OpenSession.moveIn path)
    let (failed, session) ← moveAll session paths
    match result with
    | .ok () => return (failed, session)
    | .error e => return (⟨path, e.message⟩ :: failed, session)

/-- Moves files into a session of their own. -/
def setAside (now : Moment) (paths : List Path) :
    QuarantineTask (SessionRecord × List FileFailure) := do
  let session ← q.openSession now
  let (failed, session) ← (moveAll session paths : FileTask _)
  return (← (session.finish : FileTask _), failed)

/-! ## Putting files back -/

/-- The directory of a session that is there. -/
def existingDirectory (id : String) : QuarantineTask Path := do
  let isName : Bool := match (Path.mk id).components with
    | [.normal _] => true
    | _ => false
  if isName && (← (FileTask.isDirectory (q.directory id) : FileTask _)) then return q.directory id
  else throw (.notFound id)

/-- Why one file was not restored. -/
inductive RestoreProblem where
  | copyMissing
  | occupied
  | changed
  | file (error : FileError)
deriving Repr, DecidableEq

def RestoreProblem.message : RestoreProblem → String
  | copyMissing => "quarantined copy is missing"
  | occupied => "original path is occupied by another file"
  | changed => "file changed after cleanup"
  | file error => error.message

def problem : Except FileError Unit → Except RestoreProblem Unit
  | .ok () => .ok ()
  | .error e => .error (.file e)

def sameContents (p q : Path) : FileTask Bool := do
  match ← FileTask.read p, ← FileTask.read q with
  | .ok a, .ok b => return a == b
  | _, _ => return false

/-- Moves a stored copy home, making the directories above it. -/
def putBack (stored home : Path) : FileTask (Except RestoreProblem Unit) := do
  match ← FileTask.makeDirectoriesAbove home with
  | .error e => return .error (.file e)
  | .ok () => return problem (← moveFile stored home)

/-- Puts a file back. A file that is in place already is left; another file is never overwritten,
unless it is the edited one and has not changed since. -/
def restoreFile (directory : Path) (f : StoredFile) :
    FileTask (Except RestoreProblem Unit) := do
  let stored := directory.join f.stored
  let home := q.root.join f.home
  if !(← FileTask.exists? stored) then return .error .copyMissing
  else if !(← FileTask.exists? home) then putBack stored home
  else if ← sameContents stored home then return problem (← FileTask.removeFile stored)
  else if !f.edited then return .error .occupied
  else
    match ← FileTask.read home with
    | .error e => return .error (.file e)
    | .ok current =>
      if f.writtenHash == some (fingerprint current) then putBack stored home
      else return .error .changed

/-- What `restore` put back and what it did not. -/
structure RestoreReport where
  restored : List Path := []
  failed : List FileFailure := []
deriving Repr

def RestoreReport.ofResults : List (StoredFile × Except RestoreProblem Unit) → RestoreReport
  | [] => {}
  | (f, result) :: results =>
    let report := ofResults results
    match result with
    | .ok () => { report with restored := f.home :: report.restored }
    | .error e => { report with failed := ⟨f.home, e.message⟩ :: report.failed }

/-- Puts the files of a session back. It counts as restored unless every file failed. -/
def restore (id : String) : QuarantineTask RestoreReport := do
  let directory ← q.existingDirectory id
  q.locked id do
    let record ← SessionRecord.load directory
    if record.status = .restored then throw (.alreadyRestored id)
    let results ← (record.files.mapM (q.restoreFile directory) : FileTask _)
    let report := RestoreReport.ofResults (record.files.zip results)
    if !report.restored.isEmpty || report.failed.isEmpty then
      SessionRecord.save { record with status := .restored } directory
    return report

/-! ## Deleting -/

def countFiles : (fuel : Nat) → Path → FileTask Nat
  | 0, _ => return 0
  | fuel + 1, path => do
    match ← FileTask.status path with
    | .error _ => return 0
    | .ok status =>
      if !status.isDirectory then return 1
      else
        match ← FileTask.list path with
        | .error _ => return 0
        | .ok names => return (← names.mapM fun name => countFiles fuel (path.join ⟨name⟩)).sum

def maxDepth : Nat := 4096

/-- Deletes a session for good and counts its files. -/
def purge (id : String) : QuarantineTask Nat := do
  let directory ← q.existingDirectory id
  let count ← q.locked id do
    let count ← (countFiles maxDepth (directory.join filesDirectory) : FileTask _)
    QuarantineTask.ofFiles (FileTask.removeTree directory)
    return count
  let _ ← (FileTask.removeFile (q.lockFile id) : FileTask _)
  return count

/-! ## Listing -/

def recordOf? (directory : Path) : FileTask (Option SessionRecord) := do
  if ← FileTask.isDirectory directory then return (← (SessionRecord.load directory).run).toOption
  else return none

/-- The records that can be read, by session name. -/
def sessions : QuarantineTask (List SessionRecord) := do
  match ← (FileTask.list q.base : FileTask _) with
  | .error .missing => return []
  | .error e => throw (.file e)
  | .ok names =>
    let records ← (names.mapM fun name => recordOf? (q.base.join ⟨name⟩) : FileTask _)
    return (records.filterMap id).mergeSort fun a b => decide (a.id ≤ b.id)

end Quarantine

end Deadwood
