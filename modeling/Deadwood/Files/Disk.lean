import Deadwood.Files.Task

/-!
# Tasks on the disk

`FileTask.runOnDisk` carries out a task on the file system of the machine, operation by operation.
-/

namespace Deadwood

/-- The handles of the locks held, by path. -/
abbrev HeldLocks := List (String × IO.FS.Handle)

namespace FileError

def ofCode (code : UInt32) (details : String) : FileError :=
  match code with
  | 2 => .missing
  | 17 => .occupied
  | 20 => .notDirectory
  | 21 => .isDirectory
  | 22 => .belowItself
  | 36 => .nameTooLong
  | 39 => .notEmpty
  | code => .refused (details ++ " (os error " ++ toString code ++ ")")

def ofSystem : IO.Error → FileError
  | .noFileOrDirectory _ code details | .interrupted _ code details => ofCode code details
  | .alreadyExists _ code details | .invalidArgument _ code details | .permissionDenied _ code details
  | .resourceExhausted _ code details | .inappropriateType _ code details
  | .noSuchThing _ code details => ofCode code details
  | .otherError code details | .resourceBusy code details | .resourceVanished code details
  | .unsupportedOperation code details | .hardwareFault code details
  | .unsatisfiedConstraints code details | .illegalOperation code details
  | .protocolError code details | .timeExpired code details => ofCode code details
  | .unexpectedEof => .refused "unexpected end of file"
  | .userError details => .refused details

end FileError

namespace FileOp

def attempt {α : Type} (action : IO α) : StateT HeldLocks IO (Except FileError α) := do
  match ← (action.toBaseIO : BaseIO _) with
  | .ok a => return .ok a
  | .error e => return .error (.ofSystem e)

def lockOnDisk (p : Path) : StateT HeldLocks IO (Except FileError Bool) := do
  match ← attempt (IO.FS.Handle.mk p.text .append) with
  | .error e => return .error e
  | .ok handle =>
    match ← attempt (handle.tryLock true) with
    | .ok true =>
      modify ((p.text, handle) :: ·)
      return .ok true
    | answer => return answer

def unlockOnDisk (p : Path) : StateT HeldLocks IO Unit := do
  match (← get).lookup p.text with
  | none => return ()
  | some handle =>
    let _ ← attempt handle.unlock
    modify (·.filter (·.1 != p.text))

def performOnDisk : (op : FileOp) → StateT HeldLocks IO op.Answer
  | status p => attempt do
      let data ← (← IO.FS.realPath p.text).metadata
      return ⟨data.type == .dir, data.byteSize.toNat⟩
  | read p => attempt do return (← IO.FS.readBinFile p.text).data.toList
  | write p contents => attempt (IO.FS.writeBinFile p.text ⟨contents.toArray⟩)
  | makeDirectory p => attempt (IO.FS.createDir p.text)
  | move p q => attempt (IO.FS.rename p.text q.text)
  | copy p q => attempt do
      let _ ← IO.FS.readBinFile p.text
      IO.FS.writeBinFile q.text ⟨#[]⟩
      let contents ← IO.FS.readBinFile p.text
      IO.FS.writeBinFile q.text contents
      return contents.size
  | removeFile p => attempt (IO.FS.removeFile p.text)
  | removeDirectory p => attempt (IO.FS.removeDir p.text)
  | removeTree p => attempt (IO.FS.removeDirAll p.text)
  | list p => attempt do
      return ((← (← IO.FS.realPath p.text).readDir).map (·.fileName)).toList
  | resolve p => attempt do return ⟨(← IO.FS.realPath p.text).toString⟩
  | lock p => lockOnDisk p
  | unlock p => unlockOnDisk p

end FileOp

def FileTask.runOnDisk {α : Type} : FileTask α → StateT HeldLocks IO α
  | done a => return a
  | step op next => do runOnDisk (next (← op.performOnDisk))

end Deadwood
