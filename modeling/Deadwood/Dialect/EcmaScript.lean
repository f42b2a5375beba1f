import Deadwood.Dialect.Basic

/-!
# JavaScript and TypeScript

Modules import and export names in two manners: by import and export declarations, and by `require`
calls and assignments to `exports`. Names of the first manner can be given new ones on the way.
-/

namespace Deadwood.EcmaScript

open Text

def importDeclaration : Pattern :=
  r#"\bimport\s+(?:type\s+)?([^'";]*?)\s*\bfrom\s*['"]([^'"\n]+)['"]"#

def bareImport : Pattern := r#"\bimport\s*['"]([^'"\n]+)['"]"#

def exportFrom : Pattern :=
  r#"\bexport\s+(?:type\s+)?(\*(?:\s*as\s+[\w$]+)?|\x7b[^\x7d]*\x7d)\s*from\s*['"]([^'"\n]+)['"]"#

def destructuredRequire : Pattern :=
  r#"\b(?:const|let|var)\s*\x7b([^\x7d]*)\x7d\s*=\s*require\s*\(\s*['"]([^'"\n]+)['"]\s*\)"#

def loadCall : Pattern := r#"\b(require|import)\s*\(\s*['"]([^'"\n]+)['"]\s*\)"#

def functionHead : Pattern :=
  r"(?m)^[ \t]*(export\s+)?(default\s+)?(?:declare\s+)?(?:async\s+)?function\s*\*?\s*([\w$]+)"

def classHead : Pattern :=
  r"(?m)^[ \t]*(export\s+)?(default\s+)?(?:declare\s+)?(?:abstract\s+)?class\s+([\w$]+)"

def typeHead : Pattern :=
  r"(?m)^[ \t]*(export\s+)?(?:declare\s+)?(interface|type|enum|const\s+enum|namespace|module)\s+([\w$]+)"

def variableHead : Pattern := r"(?m)^[ \t]*(export\s+)?(?:declare\s+)?(const|let|var)\s+([\w$]+)"

def defaultExport : Pattern := r"(?m)^[ \t]*export\s+default\b"

def exportList : Pattern := r"\bexport\s+(?:type\s+)?(\x7b[^\x7d]*\x7d)(\s*from\b)?"

def exportsField : Pattern := r"(?m)^[ \t]*(?:module\.)?exports\.([\w$]+)\s*="

def exportsObject : Pattern := r"(?m)^[ \t]*module\.exports\s*=\s*(\x7b)?"

def decorator : Pattern := r"(?m)^[ \t]*@([A-Za-z_$][\w$]*)"

def bracedName? (piece : String) : Option (String × String) :=
  let piece := trim piece
  let piece := trim ((dropHead? piece "type ").getD piece)
  if piece.isEmpty then none
  else
    match splitOnce? piece " as " with
    | some (own, given) => some (trim own, trim given)
    | none => some (piece, piece)

def bracedNames (clause : String) : List (String × String) :=
  let inner := trimEndWhere (· == '}') (trimStartWhere (· == '{') (trim clause))
  (splitAt ',' inner).filterMap bracedName?

/-- What stands in a clause before its first brace, and what stands from there on. -/
def splitClause (clause : String) : Except Fault (String × String) :=
  match findWhere? (· == '{') clause with
  | some brace => do return (← textBetween clause 0 brace, ← textFrom clause brace)
  | none => return (clause, "")

def clauseNames (clause : String) : Except Fault ImportedNames := do
  let clause := trim clause
  if containsChar clause '*' then return .everything
  else
    let (defaultPart, braces) ← splitClause clause
    let default := trim (trimEndWhere (· == ',') (trim defaultPart))
    return .ofList ((if default.isEmpty then [] else ["default"]) ++ (bracedNames braces).map (·.1))

variable (m : MaskedSource)

def importDeclarations : Except Fault (List (Finding × Span)) :=
  eachMatch importDeclaration m.literate fun hit => do
    let names ← clauseNames (hit.groupText 1)
    return [(.imported { target := hit.groupText 2, names, line := m.lineOf hit.start }, hit.whole)]

def bareImports : List Finding :=
  (bareImport.findAll m.literate).map fun hit =>
    .imported
      { target := hit.groupText 1, names := .none, line := m.lineOf hit.start, kind := .sideEffect }

def exportsFrom : List Finding :=
  (exportFrom.findAll m.literate).flatMap fun hit =>
    let line := m.lineOf hit.start
    let clause := hit.groupText 1
    let import_ (names : ImportedNames) : Finding :=
      .imported { target := hit.groupText 2, names, line, kind := .reExport }
    if startsWith clause "*" then
      let given := match splitOnce? clause " as " with
        | some (_, given) => [Finding.exported (trim given) line]
        | none => []
      given ++ [import_ .everything]
    else
      let names := bracedNames clause
      names.map (fun (_, given) => Finding.exported given line) ++ [import_ (.ofList (names.map (·.1)))]

/-- The imports by `require` calls whose fields are taken apart, with the pieces of text they
take. -/
def destructuredRequires : List (Finding × Span) :=
  (destructuredRequire.findAll m.literate).map fun hit =>
    let names := (splitAt ',' (hit.groupText 1)).filterMap fun part =>
      let name := trim ((splitAt ':' part).headD "")
      if name.isEmpty || startsWith name "..." then none else some name
    (.imported { target := hit.groupText 2, names := .ofList names, line := m.lineOf hit.start },
      hit.whole)

def loadCalls (taken : List Span) : List Finding :=
  (loadCall.findAll m.literate).filterMap fun hit =>
    if taken.any fun span => span.start ≤ hit.start && hit.stop ≤ span.stop then none
    else some (.imported
      { target := hit.groupText 2, names := .everything, line := m.lineOf hit.start })

def imports : Except Fault (List Finding) := do
  let declared ← importDeclarations m
  let destructured := destructuredRequires m
  return declared.map (·.1) ++ bareImports m ++ exportsFrom m ++ destructured.map (·.1) ++
    loadCalls m ((declared ++ destructured).map (·.2))

/-- The functions or classes that `head` finds at the outermost level. A default one is exported
under the name `default` only. -/
def defaultable (depths : List Nat) (head : Pattern) (kind : EntityKind)
    (wrap : Entity → Finding) : Except Fault (List Finding) :=
  m.outermost depths head fun hit =>
    let entity := m.entity (hit.groupText 3) kind hit.start hit.start
    if hit.hasGroup 2 then return [.exported "default" entity.startLine, wrap entity]
    else return [wrap { entity with exported := hit.hasGroup 1 }]

def kindOf (keyword : String) : EntityKind :=
  match keyword with
  | "interface" => .interface
  | "type" => .typeAlias
  | "namespace" | "module" => .module
  | _ => .enum

def types (typed : Bool) (m : MaskedSource) (depths : List Nat) : Except Fault (List Finding) :=
  if typed then
    m.outermost depths typeHead fun hit =>
      return [.type
        { m.entity (hit.groupText 3) (kindOf (hit.groupText 2)) hit.start hit.start with
          exported := hit.hasGroup 1 }]
  else return []

/-- The variables at the outermost level. One whose line holds a function is a function. -/
def declaredVariables (depths : List Nat) : Except Fault (List Finding) :=
  m.outermost depths variableHead fun hit => do
    let name := hit.groupText 3
    let restOfLine := (lines (← textFrom m.code hit.stop)).headD ""
    if contains restOfLine "=>" || contains restOfLine "function" then
      return [.function { m.entity name .function hit.start hit.start with exported := hit.hasGroup 1 }]
    else if hit.hasGroup 1 then return [.exported name (m.lineOf hit.start)]
    else return []

/-- Cuts the body of an object literal at its outermost commas; `depth` counts open brackets and
`piece` is the current piece, backwards. -/
def objectParts (depth : Nat) (piece : List Char) : List Char → List (List Char)
  | [] => [piece.reverse]
  | c :: cs =>
    if c == '{' || c == '(' || c == '[' then objectParts (depth + 1) (c :: piece) cs
    else if c == '}' || c == ')' || c == ']' then objectParts (depth - 1) (c :: piece) cs
    else if c == ',' && depth = 0 then piece.reverse :: objectParts depth [] cs
    else objectParts depth (c :: piece) cs

def dropHeads (head : List Char) : (fuel : Nat) → List Char → List Char
  | 0, cs => cs
  | fuel + 1, cs =>
    match afterHead? head cs with
    | some rest => dropHeads head fuel rest
    | none => cs

def objectKey? (part : List Char) : Option String :=
  let entry := trim (String.ofList part)
  let key := trim ((splitWhere (fun c => c == ':' || c == '(') entry).headD "")
  let key := dropHeads "async ".toList key.length key.toList
  let key := trim (String.ofList (dropHeads "...".toList key.length key))
  if !key.isEmpty && key.toList.all isNameChar then some key else none

def objectKeys (body : String) : List String := (objectParts 0 [] body.toList).filterMap objectKey?

/-- The body of the object literal whose opening brace is at an offset. Without a closing brace, the
last byte of the code stands for it. -/
def objectBody (code : String) (brace : Nat) : Except Fault String := do
  let lastByte ← minus code.utf8ByteSize 1
  let stop := (blockEnd? code brace).getD lastByte
  textBetween code (brace + 1) (max stop (brace + 1))

def exportsObjects : Except Fault (List Finding) :=
  eachMatch exportsObject m.code fun hit => do
    let line := m.lineOf hit.start
    match hit.group? 1 with
    | none => return [Finding.exported "default" line]
    | some brace => return (objectKeys (← objectBody m.code brace.start)).map (Finding.exported · line)

def exports : Except Fault (List Finding) := do
  let default := (defaultExport.findAll m.code).map fun hit =>
    Finding.exported "default" (m.lineOf hit.start)
  let listed := (exportList.findAll m.code).flatMap fun hit =>
    if hit.hasGroup 2 then []
    else (bracedNames (hit.groupText 1)).map fun (_, given) =>
      Finding.exported given (m.lineOf hit.start)
  let fields := (exportsField.findAll m.code).map fun hit =>
    Finding.exported (hit.groupText 1) (m.lineOf hit.start)
  return default ++ listed ++ fields ++ (← exportsObjects m)

def testMarks : List String := [".test.", ".spec.", "_test.", ".e2e.", ".stories."]

def testDirectories : List String := ["__tests__", "__mocks__", "test", "tests", "e2e", "cypress"]

def mainTests : List String :=
  ["require.main === module", "require.main == module", "import.meta.main"]

def findings (typed : Bool) (m : MaskedSource) : Except Fault (List Finding) := do
  let depths := braceDepths m.code
  let imports ← imports m
  let functions ← defaultable m depths functionHead .function .function
  let classes ← defaultable m depths classHead .class_ .type
  let types ← types typed m depths
  let variables_ ← declaredVariables m depths
  let exports ← exports m
  return imports ++ functions ++ classes ++ types ++ variables_ ++ exports

/-- Reads a script, with types if it is `typed`. -/
def read (typed : Bool) (place : Place) (text : String) : Except Fault Summary := do
  let m := MaskedSource.ofText .slashed text
  let found ← findings typed m
  return { Summary.recordAll {} found with
    testFile := testMarks.any (contains place.fileName ·) || testDirectories.any place.isWithin
    entryFunction := mainTests.any (contains m.code ·)
    annotations := NameSet.ofList ((decorator.findAll m.code).map (·.groupText 1))
    calls := callNames m.code }

def rootStems : List String := ["index", "main", "app", "server", "cli"]

def configuredTools : List String :=
  ["webpack", "vite", "vitest", "jest", "rollup", "babel", "next", "nuxt", "svelte", "tailwind",
    "postcss", "eslint", "prettier", "playwright", "cypress", "astro", "remix", "karma", "gulpfile",
    "gruntfile", "metro", "tsup", "esbuild", "commitlint", "stylelint"]

def routeStems : List String :=
  ["page", "layout", "route", "loading", "error", "not-found", "template", "default", "middleware",
    "global-error", "head"]

def isToolConfiguration (stem : String) : Bool :=
  let lower := lowerName stem
  endsWith stem ".config" || startsWith stem "." ||
    configuredTools.any fun tool => lower == tool || startsWith lower (tool ++ ".")

def entryReason? (u : SourceUnit) : Option EntryReason :=
  let rel := u.relText
  let base := (splitAt '.' u.stem).headD ""
  let parent := ((u.relative.parent?).map Path.slashed).getD ""
  let segments := splitAt '/' rel
  let directories := segments.dropLast
  if rootStems.contains base && (parent.isEmpty || parent == "src") then
    some (.convention (base ++ " module"))
  else if isToolConfiguration u.stem then some (.convention "tool configuration")
  else if endsWith u.fileName ".d.ts" then some (.convention "ambient declarations")
  else if ["sw", "service-worker", "serviceWorker"].contains base then
    some (.convention "service worker")
  else if directories.contains "pages" ||
      (directories.contains "app" && routeStems.contains base) ||
      (directories.contains "routes" && startsWith base "+") then
    some (.convention "framework route")
  else if startsWith rel "api/" || startsWith rel "server/api/" ||
      startsWith rel "src/middleware" || base == "middleware" then
    some (.convention "serverless handler")
  else if segments.head? == some "bin" || segments.head? == some "scripts" then
    some (.convention "script")
  else none

end Deadwood.EcmaScript
