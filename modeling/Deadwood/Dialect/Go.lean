import Deadwood.Dialect.Basic

/-!
# Go

Packages are imported by path and used by qualified names; a name is exported if it starts with a
capital letter. The files of one package see each other's names.
-/

namespace Deadwood.Go

open Text

def packageClause : Pattern := r"(?m)^package[ \t]+(\w+)"

def singleImport : Pattern := r#"(?m)^[ \t]*import[ \t]+([\w.]+[ \t]+)?"([^"\n]+)""#

def importGroup : Pattern := r"(?m)^[ \t]*import[ \t]*\(([^)]*)\)"

def importLine : Pattern := r#"(?m)^[ \t]*([\w.]+[ \t]+)?"([^"\n]+)""#

def functionHead : Pattern := r"(?m)^func[ \t]*(\([^)]*\))?[ \t]*(\w+)"

def singleDeclaration : Pattern := r"(?m)^(type|var|const)[ \t]+(\w+)"

def declarationGroup : Pattern := r"(?m)^(type|var|const)[ \t]*\("

def groupMember : Pattern := r"(?m)^[ \t]+(\w+)"

def mainFunction : Pattern := r"(?m)^func[ \t]+main[ \t]*\([ \t]*\)"

def isExported (name : String) : Bool := name.toList.head?.any isUpper

/-- The segment is a major version, such as `v5`. -/
def isMajorVersion (segment : String) : Bool :=
  match segment.toList with
  | 'v' :: d :: ds => (d :: ds).all isAsciiDigit
  | _ => false

/-- The name by which an imported package is called unless the import gives another. -/
def defaultPackageName (path : String) : String :=
  let name := match (splitAt '/' path).reverse with
    | last :: above :: _ => if isMajorVersion last then above else last
    | [last] => last
    | [] => path
  trimEndText (lastPart "-" name) ".go"

def endsInName (text : String) : Bool :=
  text.toList.getLast?.any fun c => isAsciiAlphanumeric c || c == '_' || c == '.'

def qualifiedUsesFrom (code needle : String) : (fuel offset : Nat) → Except Fault (List String)
  | 0, _ => return []
  | fuel + 1, offset => do
    match find? (← textFrom code offset) needle with
    | none => return []
    | some skipped =>
      let start := offset + skipped
      let stop := start + needle.utf8ByteSize
      let isPart := endsInName (← textBetween code 0 start)
      let name := (← textFrom code stop).toList.takeWhile fun c => isAlphanumeric c || c == '_'
      let rest ← qualifiedUsesFrom code needle fuel stop
      return if isPart || name.isEmpty then rest else String.ofList name :: rest

def qualifiedUses (code package : String) : Except Fault NameSet := do
  return NameSet.ofList (← qualifiedUsesFrom code (package ++ ".") code.length 0)

/-- One import with its alias. -/
structure ImportSpec where
  alias_ : Option String
  path : String
  line : Nat

def aliasOf (hit : Match) : Option String := (hit.group? 1).map fun span => trim span.text

variable (m : MaskedSource)

def singleSpecs : List ImportSpec :=
  (singleImport.findAll m.literate).map fun hit =>
    ⟨aliasOf hit, hit.groupText 2, m.lineOf hit.start⟩

def groupSpecs : Except Fault (List ImportSpec) :=
  eachMatch importGroup m.literate fun group =>
    let body := (group.group? 1).getD group.whole
    eachMatch importLine body.text fun hit => do
      let last ← minus (body.start + hit.stop) 1
      return [⟨aliasOf hit, hit.groupText 2, m.lineOf last⟩]

def ImportSpec.toImport (code : String) (spec : ImportSpec) : Except Fault Import :=
  match spec.alias_ with
  | some "_" => return { target := spec.path, names := .none, line := spec.line, kind := .sideEffect }
  | some "." => return { target := spec.path, names := .everything, line := spec.line }
  | alias_ => do
    let names ← qualifiedUses code (alias_.getD (defaultPackageName spec.path))
    return { target := spec.path, names := .names names, line := spec.line }

def imports : Except Fault (List Finding) := do
  let specs := singleSpecs m ++ (← groupSpecs m)
  specs.mapM fun spec => do return .imported (← spec.toImport m.code)

/-- The functions and methods that are declared. Methods are reached through values, so their names
are not exported. -/
def functions : Except Fault (List Finding) :=
  eachMatch functionHead m.code fun hit => do
    let name := hit.groupText 2
    let isMethod := hit.hasGroup 1
    let stop := (blockEnd? m.code hit.start).getD hit.stop
    let size ← minus stop hit.start
    return [.function
      { m.entityTo name (if isMethod then .method else .function) hit.start stop with
        byteSize := size + 1
        visibility := if isExported name then .public_ else .private_
        exported := !isMethod && isExported name }]

def typeAt (name : String) (start : Nat) : Except Fault Entity := do
  let firstLine := (lines (← textFrom m.code start)).headD ""
  let stop :=
    if containsChar firstLine '{' then (blockEnd? m.code start).getD start
    else start + (firstLine.utf8ByteSize - 1)
  let kind := if contains firstLine "interface" then .interface else .struct
  return { m.entityTo name kind start stop with exported := isExported name }

def declared (keyword name : String) (start : Nat) : Except Fault (List Finding) := do
  if name == "_" then return []
  else if keyword == "type" then return [.type (← typeAt m name start)]
  else if isExported name then return [.exported name (m.lineOf start)]
  else return []

def singleDeclarations : Except Fault (List Finding) :=
  m.outermost (braceDepths m.code) singleDeclaration fun hit =>
    declared m (hit.groupText 1) (hit.groupText 2) hit.start

/-- The body of a group that starts at an offset: to its closing line, or else to the end of the
code. -/
def groupBody (code : String) (start : Nat) : Except Fault String := do
  match find? (← textFrom code start) "\n)" with
  | some length => textBetween code start (start + length)
  | none => textBetween code start code.utf8ByteSize

def groupDeclarations : Except Fault (List Finding) :=
  eachMatch declarationGroup m.code fun group => do
    let body ← groupBody m.code group.stop
    let depths := braceDepths body
    eachMatch groupMember body fun hit => do
      let name := (hit.group? 1).getD hit.whole
      let line := feeds (← textBetween body 0 name.start)
      if depths.getD line 0 > 0 then return []
      else declared m (group.groupText 1) name.text (group.stop + name.start)

/-- The file is left out of builds. The mark has to stand in a literal, because comments are
hidden. -/
def isBuildIgnored (literate : String) : Bool :=
  (lines literate).any fun line => startsWith (trimStart line) "//go:build ignore"

def withProperties (package : Option String) (ignored : Bool) (s : Summary) : Summary :=
  let s := match package with
    | some name => s.setExtra "go.package" name
    | none => s
  if ignored then s.setFlag "go.build_ignore" else s

def read (place : Place) (text : String) : Except Fault Summary := do
  let m := MaskedSource.ofText .slashed text
  let package := (packageClause.find? m.code).map (·.groupText 1)
  let imports ← imports m
  let functions ← functions m
  let declarations := (← singleDeclarations m) ++ (← groupDeclarations m)
  let found := Summary.recordAll {} (imports ++ functions ++ declarations)
  return { withProperties package (isBuildIgnored m.literate) found with
    package
    entryFunction := package == some "main" && mainFunction.occursIn m.code
    testFile := endsWith place.fileName "_test.go"
    references := identifiers m.code
    calls := callNames m.code }

end Deadwood.Go
