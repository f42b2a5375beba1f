import Deadwood.Dialect.Basic

/-!
# Lua

A module is a table that the file returns; its fields are what the file exports. Functions outside
of any table are global.
-/

namespace Deadwood.Lua

open Text

def loadCall : Pattern := r#"\b(require|dofile|loadfile)[ \t]*\(?[ \t]*['"]([^'"\n]+)['"]"#

def returned : Pattern := r"(?m)^return[ \t]+(\w+)[ \t]*$"

def functionHead : Pattern := r"^([ \t]*)(local[ \t]+)?function[ \t]+([\w.:]+)[ \t]*\("

def fieldAssignment : Pattern := r"^(\w+)\.(\w+)[ \t]*="

def loads (m : MaskedSource) : List Finding :=
  (loadCall.findAll m.literate).map fun hit =>
    .imported
      { target := hit.groupText 2, names := .everything, line := m.lineOf hit.start
        kind := if hit.groupText 1 == "require" then .module else .include_ }

def moduleTable? (code : String) : Option String :=
  ((returned.findAll code).getLast?).map (·.groupText 1)

def splitOwner (name : String) : Except Fault (Option String × String) :=
  match findLastWhere? (fun c => c == '.' || c == ':') name with
  | some mark => do return (some (← textBetween name 0 mark), ← textFrom name (mark + 1))
  | none => return (none, name)

def functionAt (lines : List String) (table : Option String) (i : Nat) (hit : Match) :
    Except Fault Entity := do
  let isLocal := hit.hasGroup 2
  let (owner, name) ← splitOwner (hit.groupText 3)
  let visible := match owner with
    | some owner => table == some owner
    | none => true
  let last := keywordBlockEnd lines i ["function", "do", "if"] "end"
  let entity : Entity :=
    { name
      kind := if owner.isSome then .method else .function
      visibility := if isLocal then .private_ else .public_
      startLine := i + 1
      exported := (hit.groupText 1).isEmpty && !isLocal && visible }
  return entity.withSpan (last + 1) (← bytesOfLines lines i (min last (← minus lines.length 1)))

def declarationAt (lines : List String) (table : Option String) (i : Nat) (line : String) :
    Except Fault (Option Finding) := do
  match functionHead.find? line with
  | some hit => return some (.function (← functionAt lines table i hit))
  | none =>
    match fieldAssignment.find? line with
    | some hit =>
      return if table == some (hit.groupText 1) then some (.exported (hit.groupText 2) (i + 1)) else none
    | none => return none

def declarations (code : String) : Except Fault (List Finding) := do
  let lines := lines code
  let table := moduleTable? code
  let found ← lines.zipIdx.mapM fun (line, i) => declarationAt lines table i line
  return found.filterMap id

def read (place : Place) (text : String) : Except Fault Summary := do
  let m := MaskedSource.ofText .lua text
  let name := place.fileName
  let declarations ← declarations m.code
  return { Summary.recordAll {} (loads m ++ declarations) with
    testFile := endsWith name "_spec.lua" || endsWith name "_test.lua" ||
      startsWith name "test_" || place.isWithin "spec" || place.isWithin "tests"
    calls := callNames m.code }

def entryReason? (u : SourceUnit) : Option EntryReason :=
  if ["main.lua", "conf.lua", "init.lua"].contains u.fileName && u.relative.components.length = 1 then
    some (.convention "runtime entry script")
  else if startsWith u.relText "plugin/" then some (.convention "editor plugin")
  else none

end Deadwood.Lua
