import Deadwood.Dialect.Basic

/-!
# Dart

Libraries are imported by path, exported again, or made of parts. Names that start with `_` are
private.
-/

namespace Deadwood.Dart

open Text

def directive : Pattern := r#"(?m)^[ \t]*(import|export|part)[ \t]+['"]([^'"\n]+)['"]([^;]*);"#

def showClause : Pattern := r"\bshow[ \t\n]+([\w, \t\n]+?)(?:\bhide\b|$)"

def typeHead : Pattern :=
  r"(?m)^[ \t]*(?:(?:abstract|base|final|sealed|interface|mixin)[ \t]+)*(class|mixin|enum|extension|typedef)[ \t]+(\w+)"

def functionHead : Pattern :=
  r"(?m)^(?:(?:external|static)[ \t]+)?(?:[\w<>?,\[\] ]+[ \t]+)?(get[ \t]+)?([A-Za-z_]\w*)[ \t]*(?:<[^>]*>)?\("

def variableHead : Pattern :=
  r"(?m)^(?:(?:final|const|late|var|static)[ \t]+)+(?:[\w<>?,]+[ \t]+)?([A-Za-z]\w*)[ \t]*(?:=|;)"

def metadataHead : Pattern := r"(?m)^[ \t]*@(\w+)"

def shownNames (clause : String) : ImportedNames :=
  match showClause.find? clause with
  | some hit =>
    .ofList (((splitAt ',' (hit.groupText 1)).map trim).filter (!·.isEmpty))
  | none => .everything

def listedNames : ImportedNames → List String
  | .names set => set.toList
  | .everything => []

variable (m : MaskedSource)

def directives : List Finding :=
  (directive.findAll m.literate).flatMap fun hit =>
    let target := hit.groupText 2
    let line := m.lineOf hit.start
    let names := shownNames (hit.groupText 3)
    match hit.groupText 1 with
    | "part" => [.imported { target, names := .everything, line, kind := .moduleDecl }]
    | "export" =>
      (listedNames names).map (Finding.exported · line) ++
        [.imported { target, names, line, kind := .reExport }]
    | _ => [.imported { target, names, line }]

def kindOf (keyword : String) : EntityKind :=
  match keyword with
  | "enum" => .enum
  | "mixin" => .trait
  | "typedef" => .typeAlias
  | _ => .class_

def entityOf (hit : Match) (name : String) (kind : EntityKind) : Entity :=
  let isPrivate := startsWith name "_"
  { m.entity name kind hit.start hit.stop with
    visibility := if isPrivate then .private_ else .public_
    exported := !isPrivate }

variable (depths : List Nat)

def types : Except Fault (List Finding) :=
  m.outermost depths typeHead fun hit =>
    return [.type (entityOf m hit (hit.groupText 2) (kindOf (hit.groupText 1)))]

/-- Words that may stand before a parenthesis at the outermost level without declaring a
function. -/
def notFunctions : List String := ["if", "for", "while", "switch", "return", "assert"]

def functions : Except Fault (List Entity) :=
  m.outermost depths functionHead fun hit =>
    let name := hit.groupText 2
    if notFunctions.contains name then return [] else return [entityOf m hit name .function]

def declaredVariables : Except Fault (List Finding) :=
  m.outermost depths variableHead fun hit =>
    return [.exported (hit.groupText 1) (m.lineOf hit.start)]

def read (place : Place) (text : String) : Except Fault Summary := do
  let m := MaskedSource.ofText .slashed text
  let depths := braceDepths m.code
  let types ← types m depths
  let functions ← functions m depths
  let variables_ ← declaredVariables m depths
  return { Summary.recordAll {} (directives m ++ types ++ functions.map .function ++ variables_) with
    entryFunction := functions.any (·.name == "main")
    testFile := endsWith place.fileName "_test.dart" || place.isWithin "test" ||
      place.isWithin "integration_test"
    annotations := NameSet.ofList ((metadataHead.findAll m.code).map (·.groupText 1))
    calls := callNames m.code }

def entryReason? (u : SourceUnit) : Option EntryReason :=
  let rel := u.relText
  if startsWith rel "bin/" || startsWith rel "tool/" || startsWith rel "web/" then
    some (.convention "dart executable")
  else none

end Deadwood.Dart
