import Deadwood.Dialect.Basic
import Deadwood.Grammar.Tree

/-!
# Java

Files find each other by package and type. Types at the outermost level are exported unless they
are private; methods are listed but not exported.
-/

namespace Deadwood.Java

open Text

def modifierWordsOf (t : Tree Part) : List String :=
  (t.childrenWith .modifiers).flatMap fun modifiers => modifiers.children.filterMap fun
    | .leaf token => some token.text
    | .node _ _ => none

def annotationsOf (source : String) (t : Tree Part) : List String :=
  (t.childrenWith .modifiers).flatMap fun modifiers =>
    ((modifiers.childrenWith .marker).filterMap (·.child? .annotationName)).map fun name =>
      lastPart "." (name.textIn source)

def visibilityOf (t : Tree Part) : Visibility :=
  let words := modifierWordsOf t
  if words.contains "private" then .private_
  else if words.contains "public" || words.contains "protected" then .public_
  else .internal

def typeKind? : Part → Option EntityKind
  | .classDeclaration => some .class_
  | .interfaceDeclaration => some .interface
  | .enumDeclaration => some .enum
  | .recordDeclaration => some .struct
  | _ => none

def entityOf (source : String) (index : LineIndex) (t : Tree Part) (kind : EntityKind) : Entity :=
  let name := ((t.child? .declaredName).map (·.textIn source)).getD ""
  Entity.withSpan
    { name, kind, visibility := visibilityOf t, startLine := index.lineOf t.start }
    (index.lineOf t.stop) (t.stop - t.start)

/-- A declaration with its tree. -/
structure Declared where
  finding : Finding
  tree : Tree Part

mutual

/-- The types and methods that a tree declares. The bodies of methods are not entered. -/
def declaredIn (source : String) (index : LineIndex) (outermost : Bool) : Tree Part → List Declared
  | .leaf _ => []
  | .node label children =>
    let tree := Tree.node label children
    match typeKind? label with
    | some kind =>
      let entity := entityOf source index tree kind
      let exported := outermost && entity.visibility != .private_
      ⟨.type { entity with exported := exported }, tree⟩ :: declaredInBodies source index children
    | none =>
      match label with
      | .method | .constructor => [⟨.function (entityOf source index tree .method), tree⟩]
      | .block => []
      | _ => declaredInAll source index outermost children

def declaredInAll (source : String) (index : LineIndex) (outermost : Bool) :
    List (Tree Part) → List Declared
  | [] => []
  | t :: ts => declaredIn source index outermost t ++ declaredInAll source index outermost ts

def declaredInBodies (source : String) (index : LineIndex) : List (Tree Part) → List Declared
  | [] => []
  | t :: ts =>
    (if t.label? == some .body then declaredIn source index false t else []) ++
      declaredInBodies source index ts

end

/-- The import of an import declaration. A static import names a member of a type. -/
def importOf (source : String) (index : LineIndex) (t : Tree Part) : Option Import :=
  (t.child? .qualifiedName).map fun name =>
    let path := name.textIn source
    let line := index.lineOf t.start
    if t.hasLeaf "*" then { target := path, names := .everything, line }
    else if t.hasLeaf "static" then
      match splitLast? path "." with
      | some (owner, member) => { target := owner, names := .single member, line }
      | none => { target := path, names := .everything, line }
    else { target := path, names := .single (lastPart "." path), line }

def mentioned (parts : List (Tree Part)) : NameSet :=
  NameSet.ofList <| parts.filterMap fun
    | .node .typeName [.leaf t] => some t.text
    | .node .name [.leaf t] => if t.text.toList.head?.any isAsciiUpper then some t.text else none
    | _ => none

def called (parts : List (Tree Part)) : NameSet :=
  NameSet.ofList <| parts.filterMap fun
    | .node .calledName [.node .name [.leaf t]] => some t.text
    | _ => none

def isMain (d : Declared) : Bool :=
  match d.finding with
  | .function entity =>
    let words := modifierWordsOf d.tree
    entity.name == "main" && words.contains "static" && words.contains "public"
  | _ => false

/-- Reads a file off its syntax trees. -/
def read [TreeReader] (place : Place) (text : String) : Summary :=
  let index := LineIndex.ofText text
  let trees := TreeReader.java text
  let declared := declaredInAll text index true trees
  let imports := (trees.filter (·.label? == some .importDeclaration)).filterMap (importOf text index)
  let package := (trees.find? (·.label? == some .package)).bind fun t =>
    (t.child? .qualifiedName).map (·.textIn text)
  let parts := Tree.partsOf trees
  let annotations := NameSet.ofList (declared.flatMap fun d => annotationsOf text d.tree)
  let name := place.fileName
  { Summary.recordAll {} (imports.map .imported ++ declared.map (·.finding)) with
    package
    entryFunction := declared.any isMain
    annotations
    references := mentioned parts
    calls := called parts
    testFile := contains place.relative.slashed "src/test/" || endsWith name "Test.java" ||
      endsWith name "Tests.java" || endsWith name "IT.java" || annotations.contains "Test" }

def entryReason? (u : SourceUnit) : Option EntryReason :=
  if u.fileName == "module-info.java" || u.fileName == "package-info.java" then
    some (.convention "module descriptor")
  else none

end Deadwood.Java
