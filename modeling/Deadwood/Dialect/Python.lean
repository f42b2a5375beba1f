import Deadwood.Dialect.Basic

/-!
# Python

Modules are imported by dotted names. What a module declares at its outermost level is exported
unless its name starts with `_`; the list `__all__`, where there is one, says it instead.
-/

namespace Deadwood.Python

open Text

def fromImport : Pattern :=
  r"(?m)^[ \t]*from[ \t]+(\.*[\w.]*)[ \t]+import[ \t]+(\([^)]*\)|(?:[^\n\\]|\\\n)+)"

def plainImport : Pattern := r"(?m)^[ \t]*import[ \t]+([^\n]+)"

def dynamicImport : Pattern := r#"\b(?:import_module|__import__)\(\s*['"]([\w.]+)['"]"#

def definitionHead : Pattern := r"^([ \t]*)(?:async[ \t]+)?(def|class)[ \t]+(\w+)"

def constantAssignment : Pattern := r"^([A-Z][A-Z0-9_]*)[ \t]*(?::[^=\n]*)?=[^=]"

def exportList : Pattern := r"(?ms)^__all__[ \t]*(?::[^=]*)?\+?=[ \t]*[\[(](.*?)[\])]"

def quotedName : Pattern := r#"['"](\w+)['"]"#

def mainGuard : Pattern := r#"(?m)^if[ \t]+__name__[ \t]*==[ \t]*['"]__main__['"]"#

def decorator : Pattern := r"(?m)^[ \t]*@([\w.]+)"

def clauseNames (clause : String) : ImportedNames :=
  let clause := trimWhere (fun c => c == '(' || c == ')' || isBlank c) clause
  if startsWith clause "*" then .everything
  else .ofList <| (splitAt ',' clause).filterMap fun part =>
    (words (trimWhere (· == '\\') (trim part))).head?

def imports (m : MaskedSource) : List Finding :=
  let named := (fromImport.findAll m.code).map fun hit =>
    Finding.imported
      { target := hit.groupText 1, names := clauseNames (hit.groupText 2), line := m.lineOf hit.start }
  let plain := (plainImport.findAll m.code).flatMap fun hit =>
    (splitAt ',' (hit.groupText 1)).filterMap fun part =>
      ((words part).head?).map fun name => Finding.imported
        { target := trimEndWhere (· == ';') name, names := .everything
          line := m.lineOf hit.start }
  let dynamic := (dynamicImport.findAll m.literate).map fun hit =>
    Finding.imported
      { target := hit.groupText 1, names := .everything, line := m.lineOf hit.start }
  named ++ plain ++ dynamic

def visibilityOf (name : String) : Visibility :=
  if startsWith name "_" && !startsWith name "__" then .private_ else .public_

/-- The function or class whose head is on line `i` of `all`, outside or inside a class. -/
def definition (all : List String) (i last : Nat) (hit : Match) (inClass : Bool) :
    Except Fault (List Finding) := do
  let name := hit.groupText 3
  let outermost := (hit.groupText 1).isEmpty
  let isClass := hit.groupText 2 == "class"
  let entity : Entity :=
    { name
      kind := if isClass then .class_ else if outermost then .function else .method
      visibility := visibilityOf name
      startLine := i + 1
      exported := outermost && !startsWith name "_" }
  let entity := entity.withSpan (last + 1) (← bytesOfLines all i last)
  return if isClass then [.type entity] else if outermost || inClass then [.function entity] else []

/-- What the lines from number `i` on declare; the latest class at the outermost level reaches to
line `classEnd`. -/
def declarationsFrom (all : List String) (i : Nat) (classEnd : Option Nat) :
    List String → Except Fault (List Finding)
  | [] => return []
  | line :: rest => do
    match definitionHead.find? line with
    | some hit =>
      let last := indentBlockEnd all i
      let found ← definition all i last hit (classEnd.any (i ≤ ·))
      let classEnd :=
        if hit.groupText 2 == "class" && (hit.groupText 1).isEmpty then some last else classEnd
      return found ++ (← declarationsFrom all (i + 1) classEnd rest)
    | none =>
      match constantAssignment.find? line with
      | some hit => return .exported (hit.groupText 1) (i + 1) :: (← declarationsFrom all (i + 1) classEnd rest)
      | none => declarationsFrom all (i + 1) classEnd rest

def declarations (code : String) : Except Fault (List Finding) :=
  declarationsFrom (lines code) 0 none (lines code)

/-- The names of a list of exported names. A name that was found before keeps its line. -/
def listedExports (m : MaskedSource) (s : Summary) (hit : Match) : List Export :=
  let names := NameSet.ofList ((quotedName.findAll (hit.groupText 1)).map (·.groupText 1))
  let lineFor (name : String) : Nat :=
    ((s.exports.find? (·.name == name)).map (·.line)).getD (m.lineOf hit.start)
  (Summary.recordAll {} (names.toList.map fun name => .exported name (lineFor name))).exports

def markListed (listed : List Export) (e : Entity) : Entity :=
  { e with exported := listed.any (·.name == e.name) }

def applyExportList (m : MaskedSource) (s : Summary) : Summary :=
  match exportList.find? m.literate with
  | none => s
  | some hit =>
    let listed := listedExports m s hit
    { s with
      exports := listed
      functions := s.functions.map (markListed listed)
      types := s.types.map (markListed listed) }

def decorators (code : String) : NameSet :=
  NameSet.ofList <| (decorator.findAll code).flatMap fun hit =>
    [hit.groupText 1, lastPart "." (hit.groupText 1)]

def read (place : Place) (text : String) : Except Fault Summary := do
  let m := MaskedSource.ofText .python text
  let name := place.fileName
  let declarations ← declarations m.code
  return { applyExportList m (Summary.recordAll {} (imports m ++ declarations)) with
    entryFunction := mainGuard.occursIn m.literate
    testFile := startsWith name "test_" || endsWith name "_test.py" ||
      name == "conftest.py" || place.isWithin "tests" || place.isWithin "test"
    annotations := decorators m.code
    calls := callNames m.code }

def toolScripts : List String := ["setup", "manage", "noxfile", "fabfile", "tasks", "__main__"]

def frameworkModules : List String :=
  ["settings", "urls", "wsgi", "asgi", "models", "admin", "apps", "signals", "tasks", "celery",
    "conftest"]

def entryReason? (u : SourceUnit) : Option EntryReason :=
  let stem := u.stem
  let rel := u.relText
  if toolScripts.contains stem then some (.convention (stem ++ ".py"))
  else if ["main", "app", "wsgi", "asgi", "cli"].contains stem &&
      (u.relative.components.length = 1 || startsWith rel "src/") then
    some (.convention (stem ++ " module"))
  else if frameworkModules.contains stem || contains rel "/migrations/" ||
      contains rel "/management/commands/" then
    some (.convention "framework-loaded module")
  else none

end Deadwood.Python
