import Deadwood.Dialect.Basic

/-!
# C, C++ and Objective-C

Files include each other's text. Functions that are not static, types, and macros can be used by
all files that include them.
-/

namespace Deadwood.CFamily

open Text

def inclusion : Pattern :=
  r##"(?m)^[ \t]*#[ \t]*(?:include|import)[ \t]*(?:"([^"\n]+)"|<([^>\n]+)>)"##

def functionHead : Pattern :=
  r"(?m)^[ \t]*((?:[\w*&:<>,~]+[ \t*&]+)+)\**&?((?:\w+::)*~?[A-Za-z_]\w*)[ \t]*\("

def cppTypeHead : Pattern :=
  r"(?m)^[ \t]*(?:typedef[ \t]+)?(?:template[ \t]*<[^>]*>[ \t]*)?(struct|class|enum(?:[ \t]+class)?|union)[ \t]+(\w+)[ \t]*[:\x7b\n]"

def cTypeHead : Pattern :=
  r"(?m)^[ \t]*(?:typedef[ \t]+)?(struct|enum|union)[ \t]+(\w+)[ \t]*[\x7b\n]"

def typedefTail : Pattern := r"(?m)^\x7d[ \t]*(\w+)[ \t]*;"

def simpleTypedef : Pattern := r"(?m)^[ \t]*typedef[^;\x7b\x7d]*?\b(\w+)[ \t]*(?:\[[^\]]*\])?;"

def macroHead : Pattern := r"(?m)^[ \t]*#[ \t]*define[ \t]+(\w+)"

def objectiveHead : Pattern := r"(?m)^@(interface|implementation|protocol)[ \t]+(\w+)"

def notFunctions : List String :=
  ["if", "while", "for", "switch", "return", "else", "do", "sizeof", "case", "typedef",
    "define", "defined", "catch", "delete", "new", "throw", "static_assert", "decltype"]

def mainNames : List String := ["main", "wmain", "WinMain"]

variable (m : MaskedSource)

def inclusions : List Finding :=
  (inclusion.findAll m.literate).filterMap fun hit =>
    (hit.group? 1 <|> hit.group? 2).map fun target =>
      .imported
        { target := target.text, names := .everything, line := m.lineOf hit.start, kind := .include_ }

variable (depths : List Nat)

def functions : Except Fault (List Entity) :=
  m.outermost depths functionHead fun hit =>
    let name := hit.groupText 2
    let typeWords := words (hit.groupText 1)
    if notFunctions.contains (typeWords.headD "") || notFunctions.contains name then return []
    else
      let isStatic := typeWords.contains "static"
      let isMethod := contains name "::"
      return [
        { m.entity (lastPart "::" name) (if isMethod then .method else .function) hit.start
            hit.stop with
          visibility := if isStatic then .private_ else .public_
          exported := !isStatic && !isMethod }]

def kindOf (keyword : String) : EntityKind :=
  if keyword == "class" then .class_
  else if startsWith keyword "enum" then .enum
  else .struct

def types (cpp : Bool) : Except Fault (List Finding) :=
  m.outermost depths (if cpp then cppTypeHead else cTypeHead) fun hit =>
    return [.type
      { m.entity (hit.groupText 2) (kindOf (hit.groupText 1)) hit.start hit.stop with
        exported := true }]

def typedefTails : List Finding :=
  (typedefTail.findAll m.code).map fun hit => .exported (hit.groupText 1) (m.lineOf hit.start)

def simpleTypedefs : Except Fault (List Finding) :=
  m.outermost depths simpleTypedef fun hit =>
    return [.exported (hit.groupText 1) (m.lineOf hit.start)]

def isGuard (name : String) : Bool :=
  endsWith name "_H" || endsWith name "_H_" || endsWith name "_HPP"

def macros : List Finding :=
  (macroHead.findAll m.code).filterMap fun hit =>
    if isGuard (hit.groupText 1) then none
    else some (.exported (hit.groupText 1) (m.lineOf hit.start))

def objectiveTypes : Except Fault (List Finding) :=
  eachMatch objectiveHead m.code fun hit => do
    let stop := match find? (← textFrom m.code hit.start) "@end" with
      | some length => hit.start + length
      | none => hit.stop
    let kind := if hit.groupText 1 == "protocol" then .interface else .class_
    let size ← minus stop hit.start
    return [.type
      { m.entityTo (hit.groupText 2) kind hit.start stop with byteSize := size + 4, exported := true }]

def read (cpp : Bool) (place : Place) (text : String) : Except Fault Summary := do
  let m := MaskedSource.ofText .slashed text
  let depths ← scopeDepths ["namespace", "extern"] m.code
  let functions ← functions m depths
  let types ← types m depths cpp
  let simpleTypedefs ← simpleTypedefs m depths
  let objectiveTypes ← objectiveTypes m
  let name := lowerName place.fileName
  return { Summary.recordAll {}
      (inclusions m ++ functions.map .function ++ types ++ typedefTails m ++ simpleTypedefs ++
        macros m ++ objectiveTypes) with
    entryFunction := functions.any (mainNames.contains ·.name)
    testFile := startsWith name "test_" || contains name "_test." ||
      contains name "_unittest." || contains name "_tests." ||
      place.isWithin "test" || place.isWithin "tests"
    calls := callNames m.code }

end Deadwood.CFamily
