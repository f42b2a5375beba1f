import Deadwood.Dialect.Basic

/-!
# C#

Namespaces are imported by name, and files find each other by the types they declare.
-/

namespace Deadwood.CSharp

open Text

def namespaceClause : Pattern := r"(?m)^[ \t]*namespace[ \t]+([\w.]+)"

def usingDirective : Pattern :=
  r"(?m)^[ \t]*(?:global[ \t]+)?using[ \t]+(static[ \t]+)?(?:(\w+)[ \t]*=[ \t]*)?([\w.]+)[ \t]*;"

def typeHead : Pattern :=
  r"(?m)^[ \t]*((?:(?:public|internal|private|protected|static|abstract|sealed|partial|readonly|unsafe|new|file|ref)[ \t]+)*)(class|interface|struct|enum|record(?:[ \t]+(?:class|struct))?|delegate[ \t]+[\w<>\[\],.? ]+?)[ \t]+(\w+)"

def mainFunction : Pattern :=
  r"(?m)^[ \t]*(?:(?:public|private|internal|static|async)[ \t]+)*static[ \t]+(?:async[ \t]+)?(?:void|int|Task|Task<int>)[ \t]+Main[ \t]*\("

def attributeHead : Pattern := r"(?m)^[ \t]*\[([\w.]+)"

/-- The namespaces and types that are imported. A static or named import is one of a type. -/
def usings (m : MaskedSource) : List Finding :=
  (usingDirective.findAll m.code).map fun hit =>
    let target := hit.groupText 3
    let names : ImportedNames :=
      if hit.hasGroup 1 || hit.hasGroup 2 then .single (lastPart "." target) else .everything
    .imported { target, names, line := m.lineOf hit.start }

def visibilityOf (modifiers : String) : Visibility :=
  if contains modifiers "private" || contains modifiers "file " then .private_
  else if contains modifiers "public" then .public_
  else .internal

def kindOf (keyword : String) : EntityKind :=
  if keyword == "interface" then .interface
  else if keyword == "enum" then .enum
  else if keyword == "struct" then .struct
  else if startsWith keyword "delegate" then .typeAlias
  else .class_

def types (m : MaskedSource) : Except Fault (List Finding) := do
  let depths ← scopeDepths ["namespace"] m.code
  eachMatch typeHead m.code fun hit => do
    let visibility := visibilityOf (hit.groupText 1)
    let depth ← m.depthAt depths hit.start
    return [.type
      { m.entity (hit.groupText 3) (kindOf (hit.groupText 2)) hit.start hit.stop with
        visibility
        exported := depth = 0 && visibility != .private_ }]

def attributes (code : String) : NameSet :=
  NameSet.ofList <| (attributeHead.findAll code).map fun hit =>
    let name := lastPart "." (hit.groupText 1)
    (dropTail? name "Attribute").getD name

def testAttributes : List String := ["Fact", "Theory", "Test", "TestMethod", "TestFixture"]

def read (place : Place) (text : String) : Except Fault Summary := do
  let m := MaskedSource.ofText .slashed text
  let attributes := attributes m.code
  let types ← types m
  return { Summary.recordAll {} (usings m ++ types) with
    package := (namespaceClause.find? m.code).map (·.groupText 1)
    entryFunction := mainFunction.occursIn m.code
    annotations := attributes
    testFile := endsWith place.fileName "Tests.cs" || endsWith place.fileName "Test.cs" ||
      place.directories.any (fun d => endsWith d ".tests" || d == "tests") ||
      testAttributes.any attributes.contains
    references := capitalized (identifiers m.code)
    calls := callNames m.code }

def entryReason? (u : SourceUnit) : Option EntryReason :=
  if ["Program.cs", "Startup.cs", "AssemblyInfo.cs", "GlobalUsings.cs"].contains u.fileName then
    some (.convention "application host")
  else none

end Deadwood.CSharp
