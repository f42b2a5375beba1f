import Deadwood.NameSet
import Deadwood.Source.Language

/-!
# Source units

A `SourceUnit` is what is known about one source file: what it declares, exports, imports and
mentions, and the signs that it may be started from outside.
-/

namespace Deadwood

/-- The kinds of declarations. -/
inductive EntityKind where
  | class_
  | interface
  | struct
  | enum
  | trait
  | typeAlias
  | module
  | function
  | method
  | constant
  | variable_
deriving Repr, DecidableEq

namespace EntityKind

def isType : EntityKind → Bool
  | class_ | interface | struct | enum | trait | typeAlias | module => true
  | function | method | constant | variable_ => false

def displayName : EntityKind → String
  | class_ => "class"
  | interface => "interface"
  | struct => "struct"
  | enum => "enum"
  | trait => "trait"
  | typeAlias => "type alias"
  | module => "module"
  | function => "function"
  | method => "method"
  | constant => "constant"
  | variable_ => "variable"

end EntityKind

/-- Who sees a declaration. -/
inductive Visibility where
  | public_
  | internal
  | private_
deriving Repr, DecidableEq

/-- A declaration. -/
structure Entity where
  name : String
  kind : EntityKind
  visibility : Visibility := .public_
  startLine : Nat
  endLine : Nat := startLine
  byteSize : Nat := 0
  exported : Bool := false
deriving Repr, DecidableEq

/-- The entity with the extent of its text; it ends no earlier than it starts. -/
def Entity.withSpan (e : Entity) (endLine byteSize : Nat) : Entity :=
  { e with endLine := max endLine e.startLine, byteSize }

/-- A name a file offers. -/
structure Export where
  name : String
  line : Nat
deriving Repr, DecidableEq

/-- What an import takes. -/
inductive ImportedNames where
  | names (set : NameSet)
  /-- All names, or names that cannot be told. -/
  | everything
deriving DecidableEq

namespace ImportedNames

def none : ImportedNames := names ∅

def single (name : String) : ImportedNames := names (NameSet.ofList [name])

def ofList (list : List String) : ImportedNames := names (NameSet.ofList list)

def isEverything : ImportedNames → Bool
  | everything => true
  | names _ => false

def contains : ImportedNames → String → Bool
  | everything, _ => true
  | names set, name => set.contains name

def merge : ImportedNames → ImportedNames → ImportedNames
  | names s, names t => names (s.union t)
  | _, _ => everything

end ImportedNames

/-- How an import is written. -/
inductive ImportKind where
  | module
  | reExport
  | sideEffect
  | include_
  | moduleDecl
  | asset
deriving Repr, DecidableEq

def ImportKind.name : ImportKind → String
  | module => "module"
  | reExport => "re_export"
  | sideEffect => "side_effect"
  | include_ => "include"
  | moduleDecl => "module_decl"
  | asset => "asset"

def ImportKind.ofName? (name : String) : Option ImportKind :=
  [module, reExport, sideEffect, include_, moduleDecl, asset].find? (·.name == name)

/-- An import of a file. -/
structure Import where
  target : String
  names : ImportedNames
  line : Nat
  kind : ImportKind := .module
deriving DecidableEq

/-- What a reader comes upon. -/
inductive Finding where
  | function (entity : Entity)
  | type (entity : Entity)
  | exported (name : String) (line : Nat)
  | imported (import_ : Import)

/-- All that is read off a file. -/
structure Summary where
  functions : List Entity := []
  types : List Entity := []
  exports : List Export := []
  imports : List Import := []
  /-- Names used, for languages that resolve by identity. -/
  references : NameSet := ∅
  package : Option String := none
  entryFunction : Bool := false
  testFile : Bool := false
  annotations : NameSet := ∅
  calls : NameSet := ∅
  /-- Further properties, by ascending key. -/
  extras : List (String × String) := []

namespace Summary

instance : Inhabited Summary := ⟨{}⟩

variable (s : Summary)

/-- Adds an exported name; the first line that exports a name counts, and the empty name is
none. -/
def addExport (name : String) (line : Nat) : Summary :=
  if name.isEmpty || s.exports.any (·.name == name) then s
  else { s with exports := s.exports ++ [⟨name, line⟩] }

def addFunction (e : Entity) : Summary :=
  let s := if e.exported then s.addExport e.name e.startLine else s
  { s with functions := s.functions ++ [e] }

def addType (e : Entity) : Summary :=
  let s := if e.exported then s.addExport e.name e.startLine else s
  { s with types := s.types ++ [e] }

def addImport (i : Import) : Summary :=
  if (Text.trim i.target).isEmpty then s else { s with imports := s.imports ++ [i] }

def record : Finding → Summary
  | .function e => s.addFunction e
  | .type e => s.addType e
  | .exported name line => s.addExport name line
  | .imported i => s.addImport i

def recordAll (findings : List Finding) : Summary := findings.foldl record s

def putExtra (key value : String) : List (String × String) → List (String × String)
  | [] => [(key, value)]
  | (k, v) :: rest =>
    if key < k then (key, value) :: (k, v) :: rest
    else if key = k then (key, value) :: rest
    else (k, v) :: putExtra key value rest

def setExtra (key value : String) : Summary :=
  { s with extras := putExtra key value s.extras }

def extra? (key : String) : Option String := s.extras.lookup key

def setFlag (key : String) : Summary := s.setExtra key "true"

def flag (key : String) : Bool := s.extra? key == some "true"

end Summary

/-- A file with its summary. -/
structure SourceUnit where
  path : Path
  relative : Path
  language : Language
  size : Nat := 0
  lines : Nat := 0
  summary : Summary := {}
  failure : Option String := none
deriving Inhabited

namespace SourceUnit

variable (u : SourceUnit)

/-- The unit of a file that could not be read: nothing is known but the reason. -/
def failed (reason : String) : SourceUnit :=
  { u with summary := {}, failure := some reason }

def exportsName (name : String) : Bool := u.summary.exports.any (·.name == name)

def declaresType (name : String) : Bool := u.summary.types.any (·.name == name)

def fileName (u : SourceUnit) : String := u.relative.fileName

def stem (u : SourceUnit) : String := u.relative.stem

def relText : String := u.relative.slashed

end SourceUnit

end Deadwood
