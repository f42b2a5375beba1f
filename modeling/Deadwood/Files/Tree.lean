import Deadwood.Path
import Deadwood.Text.Utf8

/-!
# Trees of files

A `FileTree` holds files and directories, each at its address: the names on the way from the top.
It also holds which files are locked, and the directory that relative paths start from.
-/

namespace Deadwood

/-- How a file operation fails. -/
inductive FileError where
  | missing
  | occupied
  | notDirectory
  | isDirectory
  | belowItself
  | nameTooLong
  | notEmpty
  | notRegular
  | notText
  | refused (reason : String)
deriving Repr, DecidableEq

def FileError.message : FileError → String
  | missing => "No such file or directory (os error 2)"
  | occupied => "File exists (os error 17)"
  | notDirectory => "Not a directory (os error 20)"
  | isDirectory => "Is a directory (os error 21)"
  | belowItself => "Invalid argument (os error 22)"
  | nameTooLong => "File name too long (os error 36)"
  | notEmpty => "Directory not empty (os error 39)"
  | notRegular => "the source path is neither a regular file nor a symlink to a regular file"
  | notText => "stream did not contain valid UTF-8"
  | refused reason => reason

/-- What stands at an address. There are no links: no two addresses share contents. -/
inductive Node where
  | file (contents : Bytes)
  | directory
deriving Repr, DecidableEq

namespace Node

def isDirectory : Node → Bool
  | directory => true
  | file _ => false

def size : Node → Nat
  | directory => 4096
  | file contents => contents.length

end Node

/-- The names on the way from the top to a file or directory. -/
abbrev Address := List String

/-- The files below `/`, the locks held and the working directory. -/
structure FileTree where
  nodes : List (Address × Node) := []
  locks : List Address := []
  here : Address := []
deriving Repr

namespace FileTree

instance : Inhabited FileTree := ⟨{}⟩

/-! ## Addresses -/

variable (t : FileTree) (a : Address)

def get? : Option Node :=
  if a.isEmpty then some .directory else t.nodes.lookup a

def put (n : Node) : FileTree :=
  { t with nodes := (a, n) :: t.nodes.filter (·.1 != a) }

def erase : FileTree :=
  { t with
    nodes := t.nodes.filter fun (b, _) => !a.isPrefixOf b
    locks := t.locks.filter fun b => !a.isPrefixOf b }

def transfer (a b : Address) : FileTree :=
  let place (c : Address) : Address := if a.isPrefixOf c then b ++ c.drop a.length else c
  { t with
    nodes := (t.nodes.filter (·.1 != b)).map fun (c, n) => (place c, n)
    locks := (t.locks.filter (· != b)).map place }

/-- The names in a directory, in the order in which the tree has them. -/
def children : List String :=
  t.nodes.filterMap fun (b, _) => if b.dropLast == a then b.getLast? else none

def maxNameLength : Nat := 255

/-- Follows the components of a path from a directory. All but the last have to be directories. -/
def follow (t : FileTree) (a : Address) : List Component → Except FileError Address
  | [] => .ok a
  | .parent :: rest => follow t a.dropLast rest
  | .normal name :: rest =>
    let next := a ++ [name]
    if name.utf8ByteSize > maxNameLength then .error .nameTooLong
    else if rest.isEmpty then .ok next
    else
      match t.get? next with
      | none => .error .missing
      | some (.file _) => .error .notDirectory
      | some .directory => follow t next rest
  | _ :: rest => follow t a rest

variable (p : Path)

def address : Except FileError Address :=
  if p.text.isEmpty then .error .missing
  else t.follow (if p.isAbsolute then [] else t.here) p.components

/-- A path that ends in a slash can only lead to a directory. -/
def wantsDirectory : Bool := Text.endsWith p.text "/" || Text.endsWith p.text "/."

def find : Except FileError (Address × Node) := do
  let a ← t.address p
  match t.get? a with
  | none => .error .missing
  | some n => if wantsDirectory p && !n.isDirectory then .error .notDirectory else .ok (a, n)

/-! ## Operations -/

def read : Except FileError Bytes := do
  match ← t.find p with
  | (_, .file contents) => .ok contents
  | (_, .directory) => .error .isDirectory

def write (contents : Bytes) : Except FileError FileTree := do
  let a ← t.address p
  match t.get? a with
  | some .directory => .error .isDirectory
  | some (.file _) => if wantsDirectory p then .error .notDirectory else .ok (t.put a (.file contents))
  | none => if wantsDirectory p then .error .isDirectory else .ok (t.put a (.file contents))

def makeDirectory : Except FileError FileTree := do
  let a ← t.address p
  if (t.get? a).isSome then .error .occupied else .ok (t.put a .directory)

/-- Moves a file or directory. A file takes the place of a file, a directory that of an empty
directory. -/
def move (p q : Path) : Except FileError FileTree := do
  let (a, n) ← t.find p
  let b ← t.address q
  if a == b then .ok t
  else if a.isPrefixOf b then .error .belowItself
  else
    match n, t.get? b with
    | .file _, none => if wantsDirectory q then .error .notDirectory else .ok (t.transfer a b)
    | .file _, some (.file _) => if wantsDirectory q then .error .notDirectory else .ok (t.transfer a b)
    | .file _, some .directory => .error .isDirectory
    | .directory, none => .ok (t.transfer a b)
    | .directory, some (.file _) => .error .notDirectory
    | .directory, some .directory =>
      if (t.children b).isEmpty then .ok (t.transfer a b) else .error .notEmpty

/-- Copies a file; answers how many bytes are copied. The target is emptied before the source is read, so
that a file is empty after it was copied onto itself. -/
def copy (p q : Path) : Except FileError (Nat × FileTree) := do
  match ← t.find p with
  | (a, .file contents) =>
    let b ← t.address q
    let copied := if a == b then [] else contents
    return (copied.length, ← t.write q copied)
  | (_, .directory) => .error .notRegular

def removeFile : Except FileError FileTree := do
  match ← t.find p with
  | (a, .file _) => .ok (t.erase a)
  | (_, .directory) => .error .isDirectory

def removeDirectory : Except FileError FileTree := do
  match ← t.find p with
  | (_, .file _) => .error .notDirectory
  | (a, .directory) => if (t.children a).isEmpty then .ok (t.erase a) else .error .notEmpty

def removeTree : Except FileError FileTree := do
  match ← t.find p with
  | (_, .file _) => .error .notDirectory
  | (a, .directory) => .ok (t.erase a)

def list : Except FileError (List String) := do
  match ← t.find p with
  | (_, .file _) => .error .notDirectory
  | (a, .directory) => .ok (t.children a)

def pathOf : Path := ⟨"/" ++ Text.join "/" a⟩

def resolve : Except FileError Path := do
  let (a, _) ← t.find p
  .ok (pathOf a)

/-- Locks a file, which is made if it is not there. Answers `false` if it is locked already. -/
def lock : Except FileError (Bool × FileTree) := do
  let a ← t.address p
  let t ← match t.get? a with
    | some .directory => .error .isDirectory
    | some (.file _) => .ok t
    | none => t.write p []
  if t.locks.contains a then .ok (false, t) else .ok (true, { t with locks := a :: t.locks })

def unlock : FileTree :=
  match t.address p with
  | .ok a => { t with locks := t.locks.erase a }
  | .error _ => t

end FileTree

end Deadwood
