import Deadwood.Dialect.EcmaScript

/-!
# Documents and style sheets

Documents and style sheets declare nothing; they refer to other files by path. A document may hold
scripts, which import like any other script.
-/

namespace Deadwood.Markup

open Text

def reference : Pattern :=
  r#"(?i)<(script|link|img|source|iframe|a|embed|video|audio)\b[^>]*?\b(src|href)[ \t]*=[ \t]*["']([^"']+)["']"#

def inlineScript : Pattern := r"(?is)<script\b[^>]*>(.*?)</script>"

def sheetImport : Pattern :=
  r#"(?m)@(?:import|use|forward)[ \t]+(?:url\([ \t]*)?["']?([^"')\s;]+)["']?"#

def sheetUrl : Pattern := r#"url\([ \t]*["']?([^"')]+)["']?[ \t]*\)"#

def remoteHeads : List String := ["#", "//", "data:", "mailto:", "javascript:", "\x7b\x7b"]

def localPath? (raw : String) : Except Fault (Option String) := do
  let raw := trim raw
  if raw.isEmpty || remoteHeads.any (startsWith raw ·) || contains raw "://" then return none
  else
    let stop := (findWhere? (fun c => c == '?' || c == '#') raw).getD raw.utf8ByteSize
    let path ← textBetween raw 0 stop
    return if path.isEmpty then none else some path

def isAnchorTag (tag : String) : Bool := tag == "a" || tag == "A"

variable (index : LineIndex)

/-- The files that the elements of a document refer to. A link counts if it leads to a document. -/
def references (masked : String) : Except Fault (List Finding) :=
  eachMatch reference masked fun hit => do
    match ← localPath? (hit.groupText 3) with
    | none => return []
    | some path =>
      if isAnchorTag (hit.groupText 1) && !endsWith path ".html" && !endsWith path ".htm" then
        return []
      else
        return [.imported
          { target := path, names := .everything, line := index.lineOf hit.start, kind := .asset }]

def scriptImports (place : Place) (index : LineIndex) (masked : String) :
    Except Fault (List Finding) :=
  eachMatch inlineScript masked fun hit => do
    let body := (hit.group? 1).getD hit.whole
    if (trim body.text).isEmpty then return []
    else
      let above ← minus (index.lineOf body.start) 1
      let script ← EcmaScript.read false place body.text
      return script.imports.map fun i => .imported { i with line := i.line + above }

def readDocument (place : Place) (text : String) : Except Fault Summary := do
  let masked := mask .html true text
  let index := LineIndex.ofText text
  let references ← references index masked
  let scriptImports ← scriptImports place index masked
  return Summary.recordAll {} (references ++ scriptImports)

def sheetImports (masked : String) : Except Fault (List Finding) :=
  eachMatch sheetImport masked fun hit => do
    match ← localPath? (hit.groupText 1) with
    | none => return []
    | some path =>
      return [.imported { target := path, names := .everything, line := index.lineOf hit.start }]

def sheetUrls (masked : String) (taken : List Nat) : Except Fault (List Finding) :=
  eachMatch sheetUrl masked fun hit => do
    let line := index.lineOf hit.start
    if taken.contains line then return []
    else
      match ← localPath? (hit.groupText 1) with
      | none => return []
      | some path =>
        return [.imported { target := path, names := .everything, line, kind := .asset }]

/-- What a style sheet holds. A file that the line imports is not referred to a second time. -/
def readSheet (text : String) : Except Fault Summary := do
  let masked := mask .css true text
  let index := LineIndex.ofText text
  let imports := Summary.recordAll {} (← sheetImports index masked)
  return imports.recordAll (← sheetUrls index masked (imports.imports.map (·.line)))

def documentReason? (_ : SourceUnit) : Option EntryReason := some (.convention "html document")

def staticDirectories : List String := ["public", "static", "assets", "www", "dist"]

def sheetReason? (u : SourceUnit) : Option EntryReason :=
  match u.relative.parent? with
  | some parent =>
    if parent.components.any fun c => staticDirectories.contains c.text then
      some (.convention "static asset")
    else none
  | none => none

end Deadwood.Markup
