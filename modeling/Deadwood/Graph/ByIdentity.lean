import Deadwood.Dialect.Basic
import Deadwood.Graph.Lookup

/-!
# Imports by identity

How the languages find a file by the package it belongs to and the names it exports. The names that
the importing unit mentions decide which units of a package it depends on.
-/

namespace Deadwood.Resolve

open Text

/-- The families of languages that import by qualified names. -/
inductive Space where
  | jvm
  | dotNet
  | php
  | swift
deriving Repr, DecidableEq

namespace Space

def of? : Language → Option Space
  | .java | .kotlin => some jvm
  | .cSharp => some dotNet
  | .php => some php
  | .swift => some swift
  | _ => none

def separator : Space → String
  | php => "\\"
  | _ => "."

end Space

variable (c : Catalog) (space : Space)

def membersOf : List CatalogEntry :=
  c.entries.filter fun e => Space.of? e.unit.language == some space

def packageMembers (package : String) : List CatalogEntry :=
  (membersOf c space).filter fun e => e.unit.summary.package == some package

def mentionedExports (u other : SourceUnit) : NameSet :=
  NameSet.ofList ((other.summary.exports.filter fun e => u.summary.references.contains e.name).map
    (·.name))

def mentionedLinks (u : SourceUnit) (importer : Nat) (members : List CatalogEntry) : List Link :=
  (members.filter (·.index != importer)).filterMap fun e =>
    let names := mentionedExports u e.unit
    if names.isEmpty then none else some ⟨e.index, .names names⟩

def mentionedInPackage (u : SourceUnit) (importer : Nat) (space : Space) (package : String) : List Link :=
  mentionedLinks u importer (packageMembers c space package)

def exporters (qualified : String) : List Nat :=
  (membersOf c space).flatMap fun e =>
    match e.unit.summary.package with
    | none => []
    | some package =>
      (e.unit.summary.exports.filter fun x => package ++ space.separator ++ x.name == qualified).map
        fun _ => e.index

/-- The units that export a qualified name, or the name of a type it belongs to: segments are
dropped from its end while more than two are left. -/
def qualifiedLinks (c : Catalog) (space : Space) (i : Import) : (fuel : Nat) → String → Option (List Link)
  | 0, _ => none
  | fuel + 1, name => do
    let (parent, last) ← splitLast? name space.separator
    match exporters c space name with
    | [] => if contains parent space.separator then qualifiedLinks c space i fuel parent else none
    | targets => return targets.map fun t => ⟨t, i.names.merge (.single last)⟩

def typeImport (u : SourceUnit) (importer : Nat) (i : Import) :
    Option (List Link) :=
  if i.names.isEverything && !(packageMembers c space i.target).isEmpty then
    some (mentionedInPackage c u importer space i.target)
  else qualifiedLinks c space i (i.target.length + 1) i.target

/-- The import of a module that is a directory of the project. The types that are mentioned make
the links. -/
def swiftModule (i : Import) : Option (List Link) :=
  if (membersOf c .swift).any fun e => (splitAt '/' e.path).dropLast.contains i.target then some []
  else none

/-- The files whose path ends with the segments of a qualified name, as many of them as possible. -/
def classFiles (segments : List String) (i : Import) : Option (List Link) :=
  let fileName := segments.getLastD "" ++ ".php"
  (List.range (segments.length - 2 + 1)).findSome? fun skip =>
    let tail := join "/" (segments.drop skip) ++ ".php"
    let found := (c.withTail fileName tail).map fun e => (⟨e.index, i.names⟩ : Link)
    if found.isEmpty then none else some found

def phpUse (u : SourceUnit) (importer : Nat) (i : Import) : Option (List Link) :=
  let target := trimStartWhere (· == '\\') i.target
  match qualifiedLinks c .php i (target.length + 1) target with
  | some links => some links
  | none =>
    if !(packageMembers c .php target).isEmpty then some (mentionedInPackage c u importer .php target)
    else classFiles c (splitAt '\\' target) i

def enclosing : (fuel : Nat) → String → List String
  | 0, _ => []
  | fuel + 1, namespace_ =>
    namespace_ :: match splitLast? namespace_ "." with
      | some (parent, _) => enclosing fuel parent
      | none => []

end Deadwood.Resolve
