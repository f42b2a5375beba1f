import Deadwood.Dialect.Basic

/-!
# Shell scripts

A script sources other scripts and declares functions. Scripts at the top of a project and in the
usual directories for scripts are run by hand.
-/

namespace Deadwood.Shell

open Text

def besideScript : Pattern :=
  r"^(?:\$\(dirname[^)]*\)|\$\x7bBASH_SOURCE[^\x7d]*\x7d|\$\x7b?(?:DIR|SCRIPT_DIR|HERE|ROOT|BASEDIR)\x7d?)/(.+)$"

def sourceCommand : Pattern :=
  r#"(?m)(?:^|[;&|][ \t]*|\bthen[ \t]+|\bdo[ \t]+|\belse[ \t]+)[ \t]*(?:source|\.)[ \t]+("[^"\n]+"|'[^'\n]+'|[^ \t;\n]+)"#

def functionHead : Pattern :=
  r"(?m)^[ \t]*(?:function[ \t]+([\w:.-]+)(?:[ \t]*\(\))?|([\w:.-]+)[ \t]*\(\))[ \t]*\x7b?"

/-- The path that a sourced word stands for, unless it is computed when the script runs. -/
def sourcedPath? (word : String) : Option String :=
  let path := trimWhere (fun c => c == '"' || c == '\'') word
  if !containsChar path '$' then some path
  else do
    let rest := (← besideScript.find? path).groupText 1
    if containsChar rest '$' then none else some ("./" ++ rest)

def sources (m : MaskedSource) : List Finding :=
  (sourceCommand.findAll m.literate).filterMap fun hit =>
    (sourcedPath? (hit.groupText 1)).map fun target =>
      .imported { target, names := .everything, line := m.lineOf hit.stop, kind := .include_ }

def functions (m : MaskedSource) : List Finding :=
  (functionHead.findAll m.code).filterMap fun hit =>
    (hit.group? 1 <|> hit.group? 2).map fun name =>
      .function { m.entity name.text .function hit.start hit.stop with exported := true }

def read (place : Place) (text : String) : Summary :=
  let m := MaskedSource.ofText .shell text
  let name := place.fileName
  { Summary.recordAll {} (sources m ++ functions m) with
    testFile := startsWith name "test_" || endsWith name "_test.sh" ||
      place.isWithin "tests" || place.isWithin "test"
    calls := callNames m.code }

def scriptDirectories : List String :=
  ["bin", "scripts", "script", "ci", "tools", "hack", ".github", ".husky"]

def entryReason? (u : SourceUnit) : Option EntryReason :=
  let first := (splitAt '/' u.relText).headD ""
  if u.relative.components.length = 1 || scriptDirectories.contains first then
    some (.convention "script")
  else none

end Deadwood.Shell
