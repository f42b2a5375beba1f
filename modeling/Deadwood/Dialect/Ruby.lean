import Deadwood.Dialect.Basic

/-!
# Ruby

Files are required by path; classes, modules and outermost methods can be used from everywhere.
-/

namespace Deadwood.Ruby

open Text

def loadCall : Pattern :=
  r#"(?m)\b(require_relative|require|load|autoload[ \t(]*:\w+[ \t]*,)[ \t(]*['"]([^'"\n]+)['"]"#

def definitionHead : Pattern := r"^([ \t]*)(def|class|module)[ \t]+(?:self\.)?([\w:]+[?!=]?)"

def mainGuard : Pattern :=
  r"(?m)^if[ \t]+(?:__FILE__[ \t]*==[ \t]*\$(?:0|PROGRAM_NAME)|\$(?:0|PROGRAM_NAME)[ \t]*==[ \t]*__FILE__)"

def loads (m : MaskedSource) : List Finding :=
  (loadCall.findAll m.literate).map fun hit =>
    let keyword := hit.groupText 1
    let target := hit.groupText 2
    .imported
      { target := if keyword == "require_relative" && !startsWith target "." then "./" ++ target else target
        names := .everything
        line := m.lineOf hit.start
        kind := if keyword == "load" then .include_ else .module }

def declarationAt (lines : List String) (i : Nat) (line : String) : Except Fault (Option Finding) := do
  match definitionHead.find? line with
  | none => return none
  | some hit =>
    let outermost := (hit.groupText 1).isEmpty
    let last := keywordBlockEnd lines i ["def", "class", "module", "do", "begin", "case"] "end"
    let size ← bytesOfLines lines i (min last (← minus lines.length 1))
    let entity (kind : EntityKind) (exported : Bool) : Entity :=
      Entity.withSpan
        { name := lastPart "::" (hit.groupText 3), kind, startLine := i + 1, exported }
        (last + 1) size
    return some (match hit.groupText 2 with
      | "def" => .function (entity (if outermost then .function else .method) outermost)
      | "module" => .type (entity .module true)
      | _ => .type (entity .class_ true))

def declarations (code : String) : Except Fault (List Finding) := do
  let lines := lines code
  let found ← lines.zipIdx.mapM fun (line, i) => declarationAt lines i line
  return found.filterMap id

def read (place : Place) (text : String) : Except Fault Summary := do
  let m := MaskedSource.ofText .ruby text
  let name := place.fileName
  let declarations ← declarations m.code
  return { Summary.recordAll {} (loads m ++ declarations) with
    entryFunction := mainGuard.occursIn m.code
    testFile := endsWith name "_spec.rb" || endsWith name "_test.rb" ||
      startsWith name "test_" || place.isWithin "spec" || place.isWithin "test"
    calls := callNames m.code }

def autoloadedDirectories : List String :=
  ["app/controllers/", "app/models/", "app/helpers/", "app/jobs/", "app/mailers/", "app/channels/",
    "app/views/", "app/workers/", "config/", "db/", "lib/tasks/"]

def entryReason? (u : SourceUnit) : Option EntryReason :=
  let rel := u.relText
  if ["Rakefile", "Gemfile", "config.ru", "Guardfile"].contains u.fileName then
    some (.convention u.fileName)
  else if startsWith rel "bin/" || startsWith rel "exe/" then
    some (.convention "executable")
  else if autoloadedDirectories.any (startsWith rel ·) || endsWith rel ".rake" then
    some (.convention "framework-loaded file")
  else none

end Deadwood.Ruby
