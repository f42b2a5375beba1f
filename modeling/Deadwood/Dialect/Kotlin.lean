import Deadwood.Dialect.Basic
import Deadwood.Grammar.Tree

/-!
# Kotlin

Files find each other by package and name. Classes, objects, functions, properties and type aliases
at the outermost level are exported unless they are private.
-/

namespace Deadwood.Kotlin

open Text

variable (source : String) (t : Tree Part)

def textOf? (label : Part) : Option String :=
  (t.child? label).map (·.textIn source)

def visibilityOf : Visibility :=
  let words := (t.childrenWith .modifiers).flatMap fun modifiers => modifiers.children.filterMap fun
    | .leaf token => some token.text
    | .node _ _ => none
  match words.find? fun word => word == "private" || word == "internal" with
  | some "private" => .private_
  | some _ => .internal
  | none => .public_

def markerName (text : String) : String :=
  let text := trimStartWhere (· == '@') text
  let head := (splitWhere (fun c => c == '(' || isBlank c) text).headD ""
  lastPart "." (lastPart ":" head)

def markersOf : List String :=
  ((t.childrenWith .modifiers).flatMap fun modifiers =>
    (modifiers.childrenWith .marker).map fun m => markerName (m.textIn source)).filter (!·.isEmpty)

def classKind : EntityKind :=
  let modifiers := (textOf? source t .modifiers).getD ""
  if contains modifiers "enum" then .enum
  else if contains modifiers "annotation" || t.hasLeaf "interface" then .interface
  else .class_

variable (index : LineIndex)

def entityOf (t : Tree Part) (name : String) (kind : EntityKind) : Entity :=
  Entity.withSpan { name, kind, startLine := index.lineOf t.start }
    (index.lineOf t.stop) (t.stop - t.start)

/-- A declaration with its tree. -/
structure Declared where
  finding : Finding
  tree : Tree Part

def declaredBy (outermost : Bool) (t : Tree Part) :
    List Declared :=
  let visibility := visibilityOf t
  let exported := outermost && visibility != .private_
  let withVisibility (e : Entity) : Entity := { e with visibility := visibility, exported }
  match t.label? with
  | some .classDeclaration =>
    let name := (textOf? source t .typeName).getD ""
    [⟨.type (withVisibility (entityOf index t name (classKind source t))), t⟩]
  | some .objectDeclaration =>
    let name := (textOf? source t .typeName).getD ""
    [⟨.type (withVisibility (entityOf index t name .class_)), t⟩]
  | some .functionDeclaration =>
    let name := (textOf? source t .name).getD ""
    let kind := if outermost then .function else .method
    [⟨.function (withVisibility (entityOf index t name kind)), t⟩]
  | some .propertyDeclaration =>
    if exported then
      (t.childrenWith .variableName).filterMap fun v =>
        (textOf? source v .name).map fun name => ⟨.exported name (index.lineOf t.start), t⟩
    else []
  | some .typeAlias =>
    let name := (textOf? source t .typeName).getD ""
    [⟨.type { entityOf index t name .typeAlias with exported := exported }, t⟩]
  | _ => []

mutual

def declaredIn (source : String) (index : LineIndex) (outermost : Bool) : Tree Part → List Declared
  | .leaf _ => []
  | .node label children =>
    declaredBy source index outermost (.node label children) ++
      (match label with
        | .classDeclaration | .objectDeclaration | .companion => declaredInBodies source index children
        | .body => declaredInAll source index children
        | _ => [])

def declaredInAll (source : String) (index : LineIndex) : List (Tree Part) → List Declared
  | [] => []
  | t :: ts => declaredIn source index false t ++ declaredInAll source index ts

def declaredInBodies (source : String) (index : LineIndex) : List (Tree Part) → List Declared
  | [] => []
  | t :: ts =>
    (if t.label? == some .body then declaredIn source index false t else []) ++
      declaredInBodies source index ts

end

def importOf (t : Tree Part) : Option Import :=
  (textOf? source t .qualifiedName).map fun path =>
    { target := path
      names := if (t.child? .wildcard).isSome then .everything else .single (lastPart "." path)
      line := index.lineOf t.start }

def mentioned (parts : List (Tree Part)) : NameSet :=
  NameSet.ofList <| parts.filterMap fun
    | .node .typeName [.leaf t] => some t.text
    | .node .name [.leaf t] => some t.text
    | _ => none

def called (parts : List (Tree Part)) : NameSet :=
  NameSet.ofList <| parts.filterMap fun
    | .node .calledName [.node .name [.leaf t]] => some t.text
    | _ => none

def isMain (d : Declared) : Bool :=
  match d.finding with
  | .function entity => entity.kind == .function && entity.name == "main"
  | _ => false

def markersOfDeclared (d : Declared) : List String :=
  match d.tree.label? with
  | some .classDeclaration | some .objectDeclaration | some .functionDeclaration =>
    markersOf source d.tree
  | _ => []

/-- Reads a file off its syntax trees. -/
def read [TreeReader] (place : Place) (text : String) : Summary :=
  let index := LineIndex.ofText text
  let trees := TreeReader.kotlin text
  let declared := trees.flatMap (declaredIn text index true)
  let imports := (trees.filter (·.label? == some .importHeader)).filterMap (importOf text index)
  let parts := Tree.partsOf trees
  let annotations := NameSet.ofList (declared.flatMap (markersOfDeclared text))
  let name := place.fileName
  let rel := place.relative.slashed
  { Summary.recordAll {} (imports.map .imported ++ declared.map (·.finding)) with
    package := (trees.find? (·.label? == some .package)).bind (textOf? text · .qualifiedName)
    entryFunction := declared.any isMain
    annotations
    references := mentioned parts
    calls := called parts
    testFile := contains rel "src/test/" || contains rel "src/androidTest/" ||
      endsWith name "Test.kt" || endsWith name "Tests.kt" || annotations.contains "Test" }

def entryReason? (u : SourceUnit) : Option EntryReason :=
  if endsWith u.fileName ".gradle.kts" then some (.convention "build script") else none

end Deadwood.Kotlin
