import Deadwood.Dialect.Basic

/-!
# Rust

A file attaches other files as modules and declares items. Items at the outermost level that are
not private can be used from other files.
-/

namespace Deadwood.Rust

open Text

def moduleDeclaration : Pattern := r"(?m)^[ \t]*(?:pub(?:\([^)]*\))?[ \t]+)?mod[ \t]+(\w+)[ \t]*;"

def pathAttribute : Pattern := r##"#\[path[ \t]*=[ \t]*"([^"]+)"\]"##

def itemHead : Pattern :=
  r##"(?m)^[ \t]*(pub(?:\([^)]*\))?[ \t]+)?(?:(?:default|async|const|unsafe|extern[ \t]+"[^"]*"|extern)[ \t]+)*(fn|struct|enum|trait|type|union|mod|const|static)[ \t]+(?:mut[ \t]+)?(\w+)"##

def exportedMacro : Pattern := r"#\[macro_export\][\s]*macro_rules![ \t]*(\w+)"

def mainFunction : Pattern := r"(?m)^(?:async[ \t]+)?fn[ \t]+main[ \t]*\("

def attributeHead : Pattern := r"#!?\[([\w:]+)"

variable (m : MaskedSource)

/-- The files that are attached as modules. An attribute on the line before may name the file. -/
def modules : List Finding :=
  (moduleDeclaration.findAll m.code).map fun hit =>
    let line := m.lineOf hit.start
    let above :=
      if line > 1 then
        (cut? m.literate (m.index.offsetOf (line - 1)) (m.index.offsetOf line)).getD ""
      else ""
    let target := match pathAttribute.find? above with
      | some given => given.groupText 1
      | none => hit.groupText 1
    .imported { target, names := .everything, line, kind := .moduleDecl }

def visibilityOf (qualifier : Option Span) : Visibility :=
  match qualifier with
  | some span => if trim span.text == "pub" then .public_ else .internal
  | none => .private_

def kindOf (keyword : String) (depth : Nat) : EntityKind :=
  match keyword with
  | "fn" => if depth = 0 then .function else .method
  | "struct" | "union" => .struct
  | "enum" => .enum
  | "trait" => .trait
  | "type" => .typeAlias
  | "mod" => .module
  | "const" => .constant
  | _ => .variable_

/-- What an item adds. Within a block only functions count, and only in the first one. -/
def item (depths : List Nat) (hit : Match) : Except Fault (List Finding) := do
  let depth ← m.depthAt depths hit.start
  let kind := kindOf (hit.groupText 2) depth
  let visibility := visibilityOf (hit.group? 1)
  let name := hit.groupText 3
  let exported := depth = 0 && visibility != .private_
  let entity :=
    { m.entity name kind hit.start hit.stop with visibility := visibility, exported }
  if depth > 0 && kind != .method then return []
  else
    match kind with
    | .method => return if depth > 1 then [] else [.function entity]
    | .function => return [.function entity]
    | .constant | .variable_ =>
      return if exported then [.exported name (m.lineOf hit.start)] else []
    | _ => return [.type entity]

def items : Except Fault (List Finding) :=
  eachMatch itemHead m.code (item m (braceDepths m.code))

def macros : List Finding :=
  (exportedMacro.findAll m.code).map fun hit => .exported (hit.groupText 1) (m.lineOf hit.start)

def isProgramRoot (rel : String) : Bool :=
  rel == "main.rs" || endsWith rel "src/main.rs" || contains rel "src/bin/" ||
    startsWith rel "examples/" || startsWith rel "benches/" ||
    contains rel "/examples/"

def read (place : Place) (text : String) : Except Fault Summary := do
  let m := MaskedSource.ofText .rust text
  let rel := place.relative.slashed
  let items ← items m
  return { Summary.recordAll {} (modules m ++ items ++ macros m) with
    entryFunction := isProgramRoot rel && mainFunction.occursIn m.code
    testFile := startsWith rel "tests/" || contains rel "/tests/"
    annotations := NameSet.ofList ((attributeHead.findAll m.code).map (·.groupText 1))
    calls := callNames m.code }

def entryReason? (u : SourceUnit) : Option EntryReason :=
  let rel := u.relText
  if rel == "build.rs" || endsWith rel "/build.rs" then some (.convention "build script")
  else if rel == "lib.rs" || endsWith rel "src/lib.rs" then some (.convention "library root")
  else if startsWith rel "benches/" || startsWith rel "examples/" ||
      contains rel "fuzz_targets/" then
    some (.convention "cargo target")
  else none

end Deadwood.Rust
