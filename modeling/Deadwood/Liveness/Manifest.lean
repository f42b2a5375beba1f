import Deadwood.Data.Toml
import Deadwood.Graph.Lookup

/-!
# Entry points in manifests

A project's manifests name files that are started or loaded from outside.
-/

namespace Deadwood

open Text

/-- The files and stems manifests name. -/
structure ManifestEntries where
  files : NameSet := ∅
  /-- Paths without an extension, which stand for a file with any extension, or for the index file
  of a directory. -/
  stems : NameSet := ∅

namespace ManifestEntries

instance : Inhabited ManifestEntries := ⟨{}⟩

def manifestNames : List String := ["package.json", "Cargo.toml", "pyproject.toml"]

/-- Where a path from a directory leads, if it stays within the project and leads beyond its top. -/
def locate? (directory path : String) : Option String :=
  match joinSegments? directory path with
  | none | some [] => none
  | some segments => some (join "/" segments)

variable (m : ManifestEntries)

def add (directory path : String) : ManifestEntries :=
  let path := trim path
  if path.isEmpty || containsChar path '*' || contains path "://" then m
  else
    match locate? directory path with
    | none => m
    | some path =>
      if (Language.ofPath? ⟨path⟩).isSome then { m with files := m.files.insert path }
      else { m with stems := m.stems.insert path }

def addAll (directory : String) (paths : List String) : ManifestEntries :=
  paths.foldl (fun m path => m.add directory path) m

mutual

def textsIn : Json → List String
  | .string s => [s]
  | .array items => textsInItems items
  | .object fields => textsInFields fields
  | _ => []

def textsInItems : List Json → List String
  | [] => []
  | item :: items => textsIn item ++ textsInItems items

/-- The texts in the fields of an object; a name that occurs again later does not count. -/
def textsInFields : List (String × Json) → List String
  | [] => []
  | (name, value) :: fields =>
    if fields.any (·.1 == name) then textsInFields fields else textsIn value ++ textsInFields fields

end

def lastFields : List (String × Json) → List (String × Json)
  | [] => []
  | (name, value) :: rest =>
    if rest.any (·.1 == name) then lastFields rest else (name, value) :: lastFields rest

def filesOfCommand (command : String) : List String :=
  let tokens := splitWhere (fun c => isBlank c || c == '&' || c == ';' || c == '|') command
  (tokens.map (trimWhere fun c => c == '"' || c == '\'')).filter fun token =>
    !startsWith token "-" && !containsChar token '=' && (Language.ofPath? ⟨token⟩).isSome

def pathsOfPackage (manifest : Json) : List String :=
  let direct := ["main", "module", "browser", "types", "typings"].filterMap fun key =>
    (manifest.get? key).bind Json.text?
  let nested := ["bin", "exports"].flatMap fun key => ((manifest.get? key).map textsIn).getD []
  let commands : List String := match manifest.get? "scripts" with
    | some (.object fields) => (lastFields fields).filterMap (·.2.text?)
    | _ => []
  direct ++ nested ++ commands.flatMap filesOfCommand

def textAt? (path : List String) (t : Toml) : Option String :=
  (path.foldl (fun t key => t.bind (Toml.get? key)) (some t)).bind Toml.text?

def pathsOfCargo (manifest : Toml) : List String :=
  let library := (textAt? ["lib", "path"] manifest).toList
  let targets := ["bin", "test", "bench", "example"].flatMap fun section_ =>
    (((manifest.get? section_).bind Toml.items?).getD []).filterMap (textAt? ["path"])
  library ++ targets ++ (textAt? ["package", "build"] manifest).toList

def modulesOfScripts (manifest : Toml) : List String :=
  let tables := [["project", "scripts"], ["project", "gui-scripts"], ["tool", "poetry", "scripts"]]
  let scripts := tables.flatMap fun path =>
    ((path.foldl (fun t key => t.bind (Toml.get? key)) (some manifest)).bind Toml.fields?).getD []
  (scripts.filterMap (·.2.text?)).map fun target =>
    replace ((splitAt ':' target).headD target) "." "/"

def addModule (directory : String) (m : ManifestEntries) (module : String) : ManifestEntries :=
  let m := m.add directory module
  match locate? directory "src" with
  | some source => m.add source module
  | none => m

/-- Takes in all that a manifest names. A manifest that is not well formed names nothing. -/
def addManifest (directory name text : String) : ManifestEntries :=
  match name with
  | "package.json" => ((Json.read? text).map fun j => m.addAll directory (pathsOfPackage j)).getD m
  | "Cargo.toml" => ((Toml.read? text).map fun t => m.addAll directory (pathsOfCargo t)).getD m
  | "pyproject.toml" =>
    ((Toml.read? text).map fun t => (modulesOfScripts t).foldl (addModule directory) m).getD m
  | _ => m

def indexNames : List String := ["index", "__init__", "mod", "main"]

def contains (m : ManifestEntries) (path : String) : Bool :=
  m.files.contains path ||
    match splitLast? path "." with
    | none => false
    | some (stem, _) =>
      m.stems.contains stem ||
        match splitLast? stem "/" with
        | some (directory, name) => indexNames.contains name && m.stems.contains directory
        | none => false

def isEmpty (m : ManifestEntries) : Bool := m.files.isEmpty && m.stems.isEmpty

end ManifestEntries

end Deadwood
