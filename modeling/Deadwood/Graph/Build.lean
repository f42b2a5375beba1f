import Deadwood.Graph.Basic
import Deadwood.Graph.ByIdentity
import Deadwood.Graph.ByPath

/-!
# Building the graph

* `Catalog.resolve`: the units an import depends on;
* `Catalog.implicitLinks`: the units a unit depends on without an import;
* `Graph.build`: the graph of some units.
-/

namespace Deadwood

namespace Catalog

variable (c : Catalog) (e : CatalogEntry)

/-- The units an import of a unit depends on. `none` means that no file of the project satisfies
it, an empty list that the unit uses nothing of what it imports. -/
def resolve (i : Import) : Option (List Link) :=
  let directory := directoryOf e.path
  match e.unit.language with
  | .javaScript | .typeScript => Resolve.script c directory i
  | .html => if i.kind == .asset then Resolve.asset c directory i else Resolve.script c directory i
  | .css => if i.kind == .asset then Resolve.asset c directory i else Resolve.stylesheet c directory i
  | .python => Resolve.python c directory i
  | .go => Resolve.go c e.index i
  | .rust => Resolve.rustModule c e.unit directory i
  | .java | .kotlin => Resolve.typeImport c .jvm e.unit e.index i
  | .cSharp => Resolve.typeImport c .dotNet e.unit e.index i
  | .swift => Resolve.swiftModule c i
  | .php =>
    if i.kind == .include_ then Resolve.plainPath c directory ["php"] i
    else Resolve.phpUse c e.unit e.index i
  | .c | .cpp => Resolve.inclusion c directory i
  | .ruby => Resolve.ruby c directory i
  | .dart => Resolve.dart c directory i
  | .lua => Resolve.lua c directory i
  | .shell => Resolve.plainPath c directory ["sh", "bash"] i
  | .unknown => none

def packageSiblings : List Link :=
  (c.entries.filter fun other =>
      other.index != e.index && other.unit.language == .go &&
      other.unit.summary.package == e.unit.summary.package &&
      directoryOf other.path == directoryOf e.path).map fun other =>
    ⟨other.index, .names (Resolve.mentionedExports e.unit other.unit)⟩

def headerExtensions : List String := ["h", "hh", "hpp", "hxx"]

def implementationExtensions : List String := ["c", "cc", "cpp", "cxx", "m", "mm"]

def implementations : List Link :=
  match Text.splitLast? e.path "." with
  | none => []
  | some (stem, ext) =>
    if headerExtensions.contains ext then
      implementationExtensions.filterMap fun ext =>
        (c.lookup? (stem ++ "." ++ ext)).map fun t => ⟨t, .everything⟩
    else []

/-- The units a unit depends on without an import: those that share its package, and the
implementations of a header. -/
def implicitLinks : List Link :=
  match e.unit.language with
  | .go => c.packageSiblings e
  | .c | .cpp => c.implementations e
  | .java | .kotlin =>
    match e.unit.summary.package with
    | some package => Resolve.mentionedInPackage c e.unit e.index .jvm package
    | none => []
  | .php =>
    match e.unit.summary.package with
    | some package => Resolve.mentionedInPackage c e.unit e.index .php package
    | none => []
  | .cSharp =>
    match e.unit.summary.package with
    | some package => (Resolve.enclosing (package.length + 1) package).flatMap
        (Resolve.mentionedInPackage c e.unit e.index .dotNet)
    | none => []
  | .swift => Resolve.mentionedLinks e.unit e.index (Resolve.membersOf c .swift)
  | _ => []

end Catalog

namespace Graph

/-- Adds what an import of a unit depends on. A reference of a document that no file satisfies is
not recorded, because it is mostly to an image or a font. -/
def addImport (c : Catalog) (e : CatalogEntry) (g : Graph) (i : Import) : Graph :=
  match c.resolve e i with
  | some links =>
    links.foldl (fun g link => g.addEdge e.index link.target link.names (some ⟨i.line, i.kind⟩)) g
  | none =>
    if i.kind == .asset then g else g.addUnresolved ⟨e.unit.relative, i.target, i.line⟩

def addUnit (c : Catalog) (g : Graph) (e : CatalogEntry) : Graph :=
  let g := e.unit.summary.imports.foldl (addImport c e) g
  (c.implicitLinks e).foldl (fun g link => g.addEdge e.index link.target link.names none) g

/-- The graph of all imports, siblings and implementations. -/
def build (units : List SourceUnit) : Graph :=
  let c := Catalog.ofUnits units
  c.entries.foldl (addUnit c) { units }

end Graph

end Deadwood
