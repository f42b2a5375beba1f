import Deadwood.Dialect.Basic

/-!
# PHP

Files are included by path; classes are used by their qualified names.
-/

namespace Deadwood.Php

open Text

def namespaceClause : Pattern := r"(?m)^[ \t]*namespace[ \t]+([\w\\]+)"

def inclusion : Pattern :=
  r#"\b(?:require_once|include_once|require|include)\b[ \t(]*((?:__DIR__|dirname\(__FILE__\))[ \t]*\.[ \t]*)?['"]([^'"\n]+)['"]"#

def singleUse : Pattern :=
  r"(?m)^[ \t]*use[ \t]+(?:function[ \t]+|const[ \t]+)?([\w\\]+)(?:[ \t]+as[ \t]+\w+)?[ \t]*;"

def groupUse : Pattern := r"(?m)^[ \t]*use[ \t]+([\w\\]+)\\\x7b([^\x7d]*)\x7d[ \t]*;"

def typeHead : Pattern :=
  r"(?m)^[ \t]*(?:(?:abstract|final|readonly)[ \t]+)*(class|interface|trait|enum)[ \t]+(\w+)"

def functionHead : Pattern :=
  r"(?m)^[ \t]*(?:(?:public|private|protected|static|abstract|final)[ \t]+)*function[ \t]+&?(\w+)"

def constantHead : Pattern := r"(?m)^[ \t]*const[ \t]+(\w+)[ \t]*="

def attributeHead : Pattern := r"(?m)^[ \t]*#\[\\?([\w\\]+)"

def unrooted (name : String) : String := trimStartWhere (· == '\\') name

variable (m : MaskedSource)

def inclusions : List Finding :=
  (inclusion.findAll m.literate).map fun hit =>
    let path := hit.groupText 2
    .imported
      { target := if hit.hasGroup 1 then "./" ++ trimStartWhere (· == '/') path else path
        names := .everything
        line := m.lineOf hit.start
        kind := .include_ }

variable (depths : List Nat)

/-- The names that are used one by one. Within a class, a use composes a trait and does not
count. -/
def singleUses : Except Fault (List Finding) :=
  m.outermost depths singleUse fun hit =>
    let path := unrooted (hit.groupText 1)
    return [.imported
      { target := path, names := .single (lastPart "\\" path), line := m.lineOf hit.start }]

def groupUses : List Finding :=
  (groupUse.findAll m.code).flatMap fun hit =>
    let above := unrooted (hit.groupText 1)
    (splitAt ',' (hit.groupText 2)).filterMap fun member =>
      ((words member).head?).map fun member => .imported
        { target := above ++ "\\" ++ member, names := .single (lastPart "\\" member)
          line := m.lineOf hit.start }

def kindOf (keyword : String) : EntityKind :=
  match keyword with
  | "interface" => .interface
  | "trait" => .trait
  | "enum" => .enum
  | _ => .class_

/-- The classes, interfaces, traits and enums. -/
def types : Except Fault (List Finding) :=
  m.outermost depths typeHead fun hit =>
    return [.type
      { m.entity (hit.groupText 2) (kindOf (hit.groupText 1)) hit.start hit.stop with
        exported := true }]

def functions : Except Fault (List Finding) :=
  eachMatch functionHead m.code fun hit => do
    let outermost := (← m.depthAt depths hit.start) = 0
    return [.function
      { m.entity (hit.groupText 1) (if outermost then .function else .method) hit.start hit.stop with
        exported := outermost }]

def constants : Except Fault (List Finding) :=
  m.outermost depths constantHead fun hit =>
    return [.exported (hit.groupText 1) (m.lineOf hit.start)]

/-- The names of attributes. They are sought in the whole text, because `#` opens a comment. -/
def attributes (text : String) : NameSet :=
  NameSet.ofList ((attributeHead.findAll text).map fun hit => lastPart "\\" (hit.groupText 1))

def read (place : Place) (text : String) : Except Fault Summary := do
  let m := MaskedSource.ofText .php text
  let depths ← scopeDepths ["namespace"] m.code
  let singleUses ← singleUses m depths
  let declarations := (← types m depths) ++ (← functions m depths) ++ (← constants m depths)
  return { Summary.recordAll {} (inclusions m ++ singleUses ++ groupUses m ++ declarations) with
    package := (namespaceClause.find? m.code).map fun hit => unrooted (hit.groupText 1)
    testFile := endsWith place.fileName "Test.php" || place.isWithin "tests" ||
      place.isWithin "test"
    annotations := attributes text
    references := capitalized (identifiers m.code)
    calls := callNames m.code }

def loadedDirectories : List String :=
  ["public", "routes", "config", "migrations", "seeders", "views", "templates"]

def entryReason? (u : SourceUnit) : Option EntryReason :=
  let depth := u.relative.components.length
  if depth = 1 then some (.convention "web document")
  else if ((splitAt '/' u.relText).take (depth - 1)).any loadedDirectories.contains then
    some (.convention "framework-loaded script")
  else if ["index.php", "functions.php", "wp-config.php"].contains u.fileName then
    some (.convention "web document")
  else none

end Deadwood.Php
