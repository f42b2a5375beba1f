import Deadwood.Source.Fault
import Deadwood.Text.Lines

/-!
# Blocks and depths

How far a block reaches, and how deeply a line is nested, in masked text.
-/

namespace Deadwood

open Text

/-- Offset of the closing brace or the semicolon that ends what starts at an offset, given the open
braces and brackets, and whether a brace has been opened. A semicolon counts before the first brace,
outside of brackets. -/
def blockEndFrom (depth : Nat) (opened : Bool) (brackets offset : Nat) : List Char → Option Nat
  | [] => none
  | c :: rest =>
    match c with
    | '(' | '[' => blockEndFrom depth opened (brackets + 1) (offset + 1) rest
    | ')' | ']' => blockEndFrom depth opened (brackets - 1) (offset + 1) rest
    | '{' => blockEndFrom (depth + 1) true brackets (offset + 1) rest
    | '}' =>
      if depth = 0 || opened && depth - 1 = 0 then some offset
      else blockEndFrom (depth - 1) opened brackets (offset + 1) rest
    | ';' =>
      if !opened && brackets = 0 then some offset
      else blockEndFrom depth opened brackets (offset + 1) rest
    | _ => blockEndFrom depth opened brackets (offset + c.utf8Size) rest

def placeFrom (start offset : Nat) : List Char → Nat × List Char
  | [] => (offset, [])
  | c :: rest => if offset < start then placeFrom start (offset + c.utf8Size) rest else (offset, c :: rest)

/-- Offset of the end of the block that follows `start`, or of the semicolon that ends a
declaration without a block. -/
def blockEnd? (text : String) (start : Nat) : Option Nat :=
  let (offset, rest) := placeFrom start 0 text.toList
  blockEndFrom 0 false 0 offset rest

def depthAfter (depth : Nat) (line : List Char) : Nat :=
  line.foldl (fun depth c => if c == '{' then depth + 1 else if c == '}' then depth - 1 else depth)
    depth

def braceDepthsFrom (depth : Nat) : List (List Char) → List Nat
  | [] => []
  | line :: rest => depth :: braceDepthsFrom (depthAfter depth line) rest

def braceDepths (text : String) : List Nat :=
  braceDepthsFrom 0 (splitList (· == '\n') text.toList)

/-- Depth at the start of each line after the first, from an offset on. `scopes` says of each open
block whether it counts, the innermost first; the current statement starts at `statement`. -/
def scopeDepthsFrom (transparent : List String) (text : String) (scopes : List Bool)
    (statement offset : Nat) : List Char → Except Fault (List Nat)
  | [] => return []
  | c :: rest => do
    let next := offset + c.utf8Size
    if c == '{' then
      let head ← textBetween text statement offset
      let counts := !(words head).any transparent.contains
      scopeDepthsFrom transparent text (counts :: scopes) next next rest
    else if c == '}' then scopeDepthsFrom transparent text scopes.tail next next rest
    else if c == ';' then scopeDepthsFrom transparent text scopes next next rest
    else if c == '\n' then
      return scopes.countP id :: (← scopeDepthsFrom transparent text scopes statement next rest)
    else scopeDepthsFrom transparent text scopes statement next rest

/-- Brace depth at the start of each line, where a block whose statement holds one of the
`transparent` words does not count. -/
def scopeDepths (transparent : List String) (text : String) : Except Fault (List Nat) := do
  return 0 :: (← scopeDepthsFrom transparent text [] 0 0 text.toList)

/-- Width of the indentation of a line; a tab is four wide. -/
def indentWidth (line : String) : Nat :=
  (line.toList.takeWhile isBlank).foldl (fun w c => w + if c == '\t' then 4 else 1) 0

/-- Last line of a block that is indented more than `base`, among the lines from number `i` on;
blank lines do not end it. -/
def indentEndFrom (base end_ i : Nat) : List String → Nat
  | [] => end_
  | line :: rest =>
    if (trim line).isEmpty then indentEndFrom base end_ (i + 1) rest
    else if indentWidth line ≤ base then end_
    else indentEndFrom base i (i + 1) rest

def indentBlockEnd (lines : List String) (start : Nat) : Nat :=
  match lines[start]? with
  | none => start
  | some first => indentEndFrom (indentWidth first) start (start + 1) (lines.drop (start + 1))

/-- Nesting after the words of a line, or `none` if a closing word ends the block. -/
def keywordDepth (openers : List String) (closer : String) (depth : Int) : List String → Option Int
  | [] => some depth
  | word :: rest =>
    if openers.contains word then keywordDepth openers closer (depth + 1) rest
    else if word == closer then
      if depth - 1 ≤ 0 then none else keywordDepth openers closer (depth - 1) rest
    else keywordDepth openers closer depth rest

def codeWords (line : String) : List String :=
  (splitWhere (fun c => !(isAlphanumeric c || c == '_')) line).filter (!·.isEmpty)

def keywordEndFrom (openers : List String) (closer : String) (start : Nat) (i : Nat) (depth : Int) :
    List String → Option Nat
  | [] => none
  | line :: rest =>
    match keywordDepth openers closer depth (codeWords line) with
    | none => some i
    | some depth =>
      if i = start && depth ≤ 0 then some i
      else keywordEndFrom openers closer start (i + 1) depth rest

def keywordBlockEnd (lines : List String) (start : Nat) (openers : List String) (closer : String) :
    Nat :=
  (keywordEndFrom openers closer start start 0 (lines.drop start)).getD
    (max (lines.length - 1) start)

end Deadwood
