import Deadwood.Source.Unit

/-!
# Finding units

The units of a project with their positions and paths, and the ways to find them: by path, with
extensions and index files tried where a path leaves them out, and by file name.
-/

namespace Deadwood

open Text

def directoryOf (path : String) : String :=
  match splitLast? path "/" with
  | some (directory, _) => directory
  | none => ""

/-- Follows segments from the directories `above`, innermost first; `none` if they climb out. -/
def followSegments? : (above : List String) → List String → Option (List String)
  | above, [] => some above
  | above, s :: rest =>
    if s == "" || s == "." then followSegments? above rest
    else if s == ".." then
      match above with
      | [] => none
      | _ :: above => followSegments? above rest
    else followSegments? (s :: above) rest

def joinSegments? (directory path : String) : Option (List String) :=
  let above := ((splitAt '/' directory).filter (!·.isEmpty)).reverse
  (followSegments? above (splitAt '/' path)).map List.reverse

/-- The path that a path leads to from a directory, without `.` and `..`; `none` if it leads out of
the project. -/
def joinPath? (directory path : String) : Option String :=
  (joinSegments? directory path).map (join "/")

def hasPathTail (path tail : String) : Bool := path == tail || endsWith path ("/" ++ tail)

def isRelative (path : String) : Bool :=
  path == "." || path == ".." || startsWith path "./" || startsWith path "../"

/-- A unit with its number. -/
structure CatalogEntry where
  index : Nat
  path : String
  unit : SourceUnit

/-- The units as imports look them up. -/
structure Catalog where
  entries : List CatalogEntry

namespace Catalog

def ofUnits (units : List SourceUnit) : Catalog :=
  ⟨units.zipIdx.map fun (u, i) => ⟨i, u.relText, u⟩⟩

variable (c : Catalog)

/-- The unit at a path, if there is one. -/
def lookup? (path : String) : Option Nat :=
  if path.isEmpty then none else ((c.entries.filter (·.path == path)).getLast?).map (·.index)

/-- The unit at a path, at the path with one of some extensions, or at an index file below it. -/
def probe? (path : String) (extensions : List String) (indexStem : Option String) :
    Option Nat :=
  c.lookup? path <|>
    extensions.findSome? (fun ext => c.lookup? (path ++ "." ++ ext)) <|>
    match indexStem with
    | none => none
    | some stem => extensions.findSome? fun ext =>
        (joinPath? path (stem ++ "." ++ ext)).bind c.lookup?

def withFileName (name : String) : List CatalogEntry :=
  c.entries.filter (·.unit.fileName == name)

def withTail (name tail : String) : List CatalogEntry :=
  (c.withFileName name).filter fun e => hasPathTail e.path tail

end Catalog

/-- A resolved import. -/
structure Link where
  target : Nat
  names : ImportedNames
deriving DecidableEq

def linkTo? (target : Option Nat) (i : Import) : Option (List Link) :=
  target.map fun t => [⟨t, i.names⟩]

end Deadwood
