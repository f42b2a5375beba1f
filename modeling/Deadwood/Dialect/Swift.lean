import Deadwood.Dialect.Basic

/-!
# Swift

Modules are imported by name, and the files of a module find each other by the types they declare.
-/

namespace Deadwood.Swift

open Text

def importHead : Pattern :=
  r"(?m)^[ \t]*(?:@\w+[ \t]+)*import[ \t]+(?:(?:class|struct|enum|protocol|func|var|let|typealias)[ \t]+)?([\w.]+)"

def declarationHead : Pattern :=
  r"(?m)^[ \t]*((?:(?:@\w+(?:\([^)]*\))?|public|open|internal|private|fileprivate|final|static|class|override|mutating|nonisolated|indirect|convenience|required|lazy|weak|dynamic)[ \t]+)*)(class|struct|enum|protocol|actor|extension|typealias|func|let|var)[ \t]+([A-Za-z_]\w*)"

def attributeHead : Pattern := r"@(\w+)"

def imports (m : MaskedSource) : List Finding :=
  (importHead.findAll m.code).map fun hit =>
    .imported
      { target := (splitAt '.' (hit.groupText 1)).headD "", names := .everything
        line := m.lineOf hit.start }

def visibilityOf (modifiers : String) : Visibility :=
  if contains modifiers "private" then .private_
  else if contains modifiers "public" || contains modifiers "open" then .public_
  else .internal

def kindOf (keyword : String) : EntityKind :=
  match keyword with
  | "struct" => .struct
  | "enum" => .enum
  | "protocol" => .interface
  | "typealias" => .typeAlias
  | _ => .class_

/-- What a declaration adds. Functions count at the outermost level and in its types. -/
def declaration (m : MaskedSource) (depths : List Nat) (hit : Match) : Except Fault (List Finding) := do
  let depth ← m.depthAt depths hit.start
  let visibility := visibilityOf (hit.groupText 1)
  let name := hit.groupText 3
  let exported := depth = 0 && visibility != .private_
  match hit.groupText 2 with
  | "extension" => return []
  | "func" =>
    if depth > 1 then return []
    else return [.function
      { m.entity name (if depth = 0 then .function else .method) hit.start hit.stop with
        visibility, exported }]
  | "let" | "var" => return if exported then [.exported name (m.lineOf hit.start)] else []
  | "typealias" =>
    return [.type
      { m.entityTo name .typeAlias hit.start hit.stop with
        visibility, exported }]
  | keyword =>
    return [.type
      { m.entity name (kindOf keyword) hit.start hit.stop with
        visibility, exported }]

def extended (hits : List Match) : List String :=
  (hits.filter (·.groupText 2 == "extension")).map (·.groupText 3)

def mainAttributes : List String := ["main", "UIApplicationMain", "NSApplicationMain"]

def read (place : Place) (text : String) : Except Fault Summary := do
  let m := MaskedSource.ofText .swift text
  let declarations ← eachMatch declarationHead m.code (declaration m (braceDepths m.code))
  let attributes := NameSet.ofList ((attributeHead.findAll m.code).map (·.groupText 1))
  let found := Summary.recordAll {} (imports m ++ declarations)
  return { found with
    annotations := attributes
    entryFunction := mainAttributes.any attributes.contains
    references := (NameSet.ofList (extended (declarationHead.findAll m.code))).union (capitalized (identifiers m.code))
    calls := callNames m.code
    testFile := endsWith place.fileName "Tests.swift" || place.isWithin "tests" ||
      found.imports.any (·.target == "XCTest") }

def entryReason? (u : SourceUnit) : Option EntryReason :=
  match u.fileName with
  | "main.swift" => some (.convention "top-level code")
  | "Package.swift" => some (.convention "package manifest")
  | "AppDelegate.swift" | "SceneDelegate.swift" => some (.convention "application delegate")
  | _ => none

end Deadwood.Swift
