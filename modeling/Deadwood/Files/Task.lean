import Deadwood.Files.Tree

/-!
# Tasks on files

A `FileTask` is a program over a file system as data: it is done with a result, or it has one operation
carried out and goes on with the answer. Each operation is one step of the file system, so that a
task that is stopped has made a number of whole steps.
-/

namespace Deadwood

/-- What `status` tells of a path. -/
structure FileStatus where
  isDirectory : Bool
  size : Nat
deriving Repr, DecidableEq

/-- The operations a task may ask for. -/
inductive FileOp where
  | status (path : Path)
  | read (path : Path)
  | write (path : Path) (contents : Bytes)
  | makeDirectory (path : Path)
  | move (source target : Path)
  | copy (source target : Path)
  | removeFile (path : Path)
  | removeDirectory (path : Path)
  | removeTree (path : Path)
  | list (path : Path)
  | resolve (path : Path)
  | lock (path : Path)
  | unlock (path : Path)

namespace FileOp

/-- What each operation answers. -/
abbrev Answer : FileOp → Type
  | status _ => Except FileError FileStatus
  | read _ => Except FileError Bytes
  | write _ _ => Except FileError Unit
  | makeDirectory _ => Except FileError Unit
  | move _ _ => Except FileError Unit
  | copy _ _ => Except FileError Nat
  | removeFile _ => Except FileError Unit
  | removeDirectory _ => Except FileError Unit
  | removeTree _ => Except FileError Unit
  | list _ => Except FileError (List String)
  | resolve _ => Except FileError Path
  | lock _ => Except FileError Bool
  | unlock _ => Unit

def change (t : FileTree) : Except FileError FileTree → Except FileError Unit × FileTree
  | .ok t => (.ok (), t)
  | .error e => (.error e, t)

def changeWith {α : Type} (t : FileTree) : Except FileError (α × FileTree) → Except FileError α × FileTree
  | .ok (a, t) => (.ok a, t)
  | .error e => (.error e, t)

/-- The effect of one operation on a tree. -/
def perform : (op : FileOp) → FileTree → op.Answer × FileTree
  | status p, t => ((t.find p).map fun (_, n) => ⟨n.isDirectory, n.size⟩, t)
  | read p, t => (t.read p, t)
  | write p contents, t => change t (t.write p contents)
  | makeDirectory p, t => change t (t.makeDirectory p)
  | move p q, t => change t (t.move p q)
  | copy p q, t => changeWith t (t.copy p q)
  | removeFile p, t => change t (t.removeFile p)
  | removeDirectory p, t => change t (t.removeDirectory p)
  | removeTree p, t => change t (t.removeTree p)
  | list p, t => (t.list p, t)
  | resolve p, t => (t.resolve p, t)
  | lock p, t => changeWith t (t.lock p)
  | unlock p, t => ((), t.unlock p)

end FileOp

/-- A program that asks for one file operation after another. -/
inductive FileTask (α : Type) where
  | done (result : α)
  | step (op : FileOp) (next : op.Answer → FileTask α)

namespace FileTask

variable {α β : Type}

def bind : FileTask α → (α → FileTask β) → FileTask β
  | done a, f => f a
  | step op next, f => step op fun answer => bind (next answer) f

instance : Monad FileTask where
  pure := done
  bind

/-- A task carried out on a tree. -/
def run : FileTask α → FileTree → α × FileTree
  | done a, t => (a, t)
  | step op next, t =>
    let (answer, t) := op.perform t
    run (next answer) t

/-! ## Single operations -/

def status (p : Path) : FileTask (Except FileError FileStatus) := step (.status p) done

def read (p : Path) : FileTask (Except FileError Bytes) := step (.read p) done

def write (p : Path) (contents : Bytes) : FileTask (Except FileError Unit) := step (.write p contents) done

def makeDirectory (p : Path) : FileTask (Except FileError Unit) := step (.makeDirectory p) done

def move (p q : Path) : FileTask (Except FileError Unit) := step (.move p q) done

def copy (p q : Path) : FileTask (Except FileError Nat) := step (.copy p q) done

def removeFile (p : Path) : FileTask (Except FileError Unit) := step (.removeFile p) done

def removeDirectory (p : Path) : FileTask (Except FileError Unit) := step (.removeDirectory p) done

def removeTree (p : Path) : FileTask (Except FileError Unit) := step (.removeTree p) done

def list (p : Path) : FileTask (Except FileError (List String)) := step (.list p) done

def resolve (p : Path) : FileTask (Except FileError Path) := step (.resolve p) done

def lock (p : Path) : FileTask (Except FileError Bool) := step (.lock p) done

def unlock (p : Path) : FileTask Unit := step (.unlock p) done

/-! ## Usual combinations -/

def exists? (p : Path) : FileTask Bool := return (← status p).isOk

def isDirectory (p : Path) : FileTask Bool := do
  match ← status p with
  | .ok s => return s.isDirectory
  | .error _ => return false

def readText (p : Path) : FileTask (Except FileError String) := do
  match ← read p with
  | .ok bytes => return bytes.text?.elim (.error .notText) .ok
  | .error e => return .error e

/-- Makes a directory and those above it that are missing. The fuel bounds the number of
directories. -/
def makeDirectoriesWithin : (fuel : Nat) → Path → FileTask (Except FileError Unit)
  | 0, _ => return .error .missing
  | fuel + 1, p => do
    match ← makeDirectory p with
    | .ok () => return .ok ()
    | .error .missing =>
      match p.parent? with
      | none => return .error .missing
      | some above =>
        if above.text.isEmpty then return .error .missing
        else
          match ← makeDirectoriesWithin fuel above with
          | .error e => return .error e
          | .ok () =>
            match ← makeDirectory p with
            | .ok () => return .ok ()
            | .error e => return if ← isDirectory p then .ok () else .error e
    | .error e => return if ← isDirectory p then .ok () else .error e

def makeDirectories (p : Path) : FileTask (Except FileError Unit) :=
  makeDirectoriesWithin (p.components.length + 1) p

def makeDirectoriesAbove (p : Path) : FileTask (Except FileError Unit) :=
  match p.parent? with
  | some above => makeDirectories above
  | none => return .ok ()

end FileTask

end Deadwood
