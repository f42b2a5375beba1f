import Deadwood.Dialect.Go
import Deadwood.Graph.Lookup

/-!
# Imports by path

How the languages find a file by the path or the dotted name in an import. Each function gives the
links of an import, or `none` if no file of the project satisfies it.
-/

namespace Deadwood.Resolve

open Text

def scriptExtensions : List String := ["js", "jsx", "mjs", "cjs"]

def staticRoots : List String := ["public", "static", "www"]

/-- The paths that a script's import may mean. `@/` and `~/` stand for the source directory or the
top of the project. -/
def scriptBases (directory target : String) : List String :=
  if isRelative target then (joinPath? directory target).toList
  else
    match dropHead? target "/" with
    | some rest => (joinPath? "" rest).toList
    | none =>
      match dropHead? target "@/" <|> dropHead? target "~/" with
      | some rest => (joinPath? "src" rest).toList ++ (joinPath? "" rest).toList
      | none => []

variable (c : Catalog)

/-- The unit a script's import means. A source may be imported by the name of the script that is
made from it. -/
def scriptAt? (base : String) : Option Nat :=
  let extensions := Language.implicitExtensions .typeScript
  c.probe? base extensions (some "index") <|>
    match splitLast? base "." with
    | some (stem, ext) => if scriptExtensions.contains ext then c.probe? stem extensions none else none
    | none => none

variable (directory : String)

def script (i : Import) : Option (List Link) :=
  linkTo? ((scriptBases directory i.target).findSome? (scriptAt? c)) i

def asset (i : Import) : Option (List Link) :=
  let paths := match dropHead? i.target "/" with
    | some rest => ("" :: staticRoots).filterMap (joinPath? · rest)
    | none => (joinPath? directory i.target).toList
  linkTo? (paths.findSome? c.lookup?) i

/-- Imports of style sheets. The file of a partial starts with `_`. -/
def stylesheet (i : Import) : Option (List Link) := do
  let base ← match dropHead? i.target "/" with
    | some rest => joinPath? "" rest
    | none => joinPath? directory i.target
  let extensions := Language.implicitExtensions .css
  let partial_ := match splitLast? base "/" with
    | some (parent, name) => parent ++ "/_" ++ name
    | none => "_" ++ base
  linkTo? (c.probe? base extensions (some "index") <|> c.probe? partial_ extensions none <|>
    c.probe? base extensions (some "_index")) i

def ancestors : (fuel : Nat) → String → List String
  | 0, _ => []
  | fuel + 1, directory =>
    if directory.isEmpty then [] else directory :: ancestors fuel (directoryOf directory)

def climb? : (levels : Nat) → String → Option String
  | 0, directory => some directory
  | n + 1, directory => (joinPath? directory "..").bind (climb? n)

/-- What an import of the module at a path from `base` links to: the module, the submodules among
the names, and the packages above. -/
def pythonLinks (module base : String) (i : Import) : List Link :=
  match joinPath? base module with
  | none => []
  | some path =>
    let extensions := Language.implicitExtensions .python
    let unit :=
      if module.isEmpty then
        c.probe? (trimStartWhere (· == '/') (path ++ "/__init__")) extensions none
      else c.probe? path extensions (some "__init__")
    let submodules := match i.names with
      | .everything => []
      | .names set => set.toList.filterMap fun name =>
          ((joinPath? path name).bind fun sub => c.probe? sub extensions (some "__init__")).map
            fun t => (⟨t, .everything⟩ : Link)
    let found := (unit.map fun t => (⟨t, i.names⟩ : Link)).toList ++ submodules
    if found.isEmpty then []
    else
      let segments := (splitAt '/' module).filter (!·.isEmpty)
      let packages := (List.range segments.length).filterMap fun depth =>
        if depth = 0 then none
        else
          let package := join "/" (segments.take depth)
          ((joinPath? base (package ++ "/__init__")).bind fun p => c.probe? p extensions none).map
            fun t => (⟨t, .none⟩ : Link)
      found ++ packages

/-- Imports of Python. Leading dots start from the importing package; other names are sought from
the top, the source directory, and every directory above the importing file. -/
def python (i : Import) : Option (List Link) :=
  let dots := (i.target.toList.takeWhile (· == '.')).length
  let module := replace (String.ofList (i.target.toList.drop dots)) "." "/"
  let bases :=
    if dots > 0 then (climb? (dots - 1) directory).toList
    else ["", "src"] ++ ancestors (directory.length + 1) directory
  bases.findSome? fun base =>
    let links := pythonLinks c module base i
    if links.isEmpty then none else some links

def goPackage : List CatalogEntry :=
  c.entries.filter fun e =>
    e.unit.language == .go && !e.unit.summary.testFile && directoryOf e.path == directory

def goDirectories : List String :=
  (c.entries.filter fun e => e.unit.language == .go && !e.unit.summary.testFile).map
    fun e => directoryOf e.path

variable (directories : List String)

/-- The longest of some directories that an import path ends with; the top of the project is none of
them. -/
def longestTail? (path : String) : Option String :=
  (directories.filter fun d => !d.isEmpty && hasPathTail path d).foldl (fun best d =>
    match best with
    | some b => if b.utf8ByteSize < d.utf8ByteSize then some d else some b
    | none => some d) none

/-- Imports of Go, with the directories of Go files gone through in some order. The package at the top
is known by its name. -/
def goAmong (c : Catalog) (importer : Nat) (i : Import) :
    Option (List Link) := do
  let path := trimEndWhere (· == '/') i.target
  let files ← match longestTail? directories path with
    | some directory => some (goPackage c directory)
    | none =>
      let top := goPackage c ""
      let name := Go.defaultPackageName path
      if top.any fun e => e.unit.summary.package == some name then some top else none
  return (files.filter (·.index != importer)).map fun e => ⟨e.index, i.names⟩

def go (importer : Nat) (i : Import) : Option (List Link) :=
  goAmong (goDirectories c) c importer i

def rustModule (u : SourceUnit) (directory : String) (i : Import) : Option (List Link) :=
  if i.kind != .moduleDecl then none
  else if endsWith i.target ".rs" then
    linkTo? ((joinPath? directory i.target).bind c.lookup?) i
  else do
    let ownsDirectory := ["lib.rs", "main.rs", "mod.rs", "build.rs"].contains u.fileName ||
      ["bin", "tests", "examples", "benches"].contains (lastPart "/" directory)
    let base ← if ownsDirectory then some directory else joinPath? directory u.stem
    linkTo? ((joinPath? base (i.target ++ ".rs")).bind c.lookup? <|>
      (joinPath? base (i.target ++ "/mod.rs")).bind c.lookup?) i

/-- Inclusions of C. Where the directories of headers are not known, the end of the path decides. -/
def inclusion (i : Import) : Option (List Link) :=
  match (joinPath? directory i.target).bind c.lookup? <|> (joinPath? "" i.target).bind c.lookup? with
  | some found => linkTo? (some found) i
  | none => do
    let path ← joinPath? "" i.target
    let found := (c.withTail (lastPart "/" path) path).map fun e => (⟨e.index, i.names⟩ : Link)
    if found.isEmpty then none else some found

def plainPath (extensions : List String) (i : Import) :
    Option (List Link) :=
  if startsWith i.target "~" || startsWith i.target "$" then none
  else
    let at? (base path : String) : Option Nat :=
      (joinPath? base path).bind fun p => c.probe? p extensions none
    linkTo? (match dropHead? i.target "/" with
      | some rest => at? "" rest
      | none => at? directory i.target <|> at? "" i.target) i

def fromDirectories (path : String)
    (extensions : List String) (indexStem : Option String) (i : Import) : Option (List Link) :=
  linkTo? ((directories.filterMap (joinPath? · path)).findSome? (c.probe? · extensions indexStem)) i

def ruby (i : Import) : Option (List Link) :=
  if isRelative i.target then plainPath c directory ["rb"] i
  else fromDirectories c ["", "lib", "app", directory] i.target ["rb"] none i

def lua (c : Catalog) (directory : String) (i : Import) : Option (List Link) :=
  if i.kind == .include_ then plainPath c directory ["lua"] i
  else fromDirectories c ["", "lua", "src", "lib", directory] (replace i.target "." "/") ["lua"]
    (some "init") i

/-- Imports of Dart. A package may be the project itself or lie within it. -/
def dart (c : Catalog) (directory : String) (i : Import) : Option (List Link) :=
  if startsWith i.target "dart:" then none
  else
    match dropHead? i.target "package:" with
    | some rest => do
      let (package, path) ← splitOnce? rest "/"
      let within := (c.withTail (lastPart "/" path) (package ++ "/lib/" ++ path)).head?
      linkTo? (c.lookup? ("lib/" ++ path) <|> within.map (·.index)) i
    | none => linkTo? ((joinPath? directory i.target).bind c.lookup?) i

end Deadwood.Resolve
