import Deadwood.Text.Basic

/-!
# Paths

A path is kept as it was written; what it means is its list of components. Two paths are the same
(`==`) if their components are, and paths are ordered by their components.
-/

namespace Deadwood

/-- A component of a path, in ascending order of kind. -/
inductive Component where
  | root
  | current
  | parent
  | normal (name : String)
deriving Repr, DecidableEq

namespace Component

def rank : Component → Nat
  | root => 0
  | current => 1
  | parent => 2
  | normal _ => 3

def compare : Component → Component → Ordering
  | normal a, normal b => if a < b then .lt else if a = b then .eq else .gt
  | a, b => Ord.compare a.rank b.rank

def text : Component → String
  | root => "/"
  | current => "."
  | parent => ".."
  | normal name => name

end Component

/-- A path as written. Names are texts: a name that is no text has no path here. -/
structure Path where
  text : String
deriving Repr, Inhabited

namespace Path

variable (p : Path)

def isAbsolute : Bool := Text.startsWith p.text "/"

/-- The path starts with `.`, which then counts as a component. -/
def startsHere : Bool := p.text == "." || Text.startsWith p.text "./"

def component? (piece : String) : Option Component :=
  if piece == "" || piece == "." then none
  else if piece == ".." then some .parent
  else some (.normal piece)

/-- What a path means. -/
def components : List Component :=
  let named := (Text.splitAt '/' p.text).filterMap component?
  if p.isAbsolute then .root :: named else if p.startsHere then .current :: named else named

instance : BEq Path := ⟨fun p q => p.components == q.components⟩

def compareComponents : List Component → List Component → Ordering
  | [], [] => .eq
  | [], _ :: _ => .lt
  | _ :: _, [] => .gt
  | a :: as, b :: bs =>
    match a.compare b with
    | .eq => compareComponents as bs
    | order => order

def compare (p q : Path) : Ordering := compareComponents p.components q.components

def le (p q : Path) : Bool := p.compare q != .gt

def fileName? : Option String :=
  match p.components.getLast? with
  | some (.normal name) => some name
  | _ => none

def fileName : String := p.fileName?.getD ""

/-- Cuts a file name at its last point. A point at the start does not count. -/
def splitName (name : String) : String × Option String :=
  match Text.splitLast? name "." with
  | some (stem, ext) => if stem.isEmpty then (name, none) else (stem, some ext)
  | none => (name, none)

def stem? : Option String := p.fileName?.map (splitName · |>.1)

def stem : String := p.stem?.getD ""

def extension? : Option String := p.fileName?.bind (splitName · |>.2)

/-- Drops the pieces at the end, read backwards, that are no component. -/
def dropIdle : (fuel : Nat) → List Char → List Char
  | 0, cs => cs
  | fuel + 1, cs =>
    let piece := cs.takeWhile (· != '/')
    if cs.isEmpty then cs
    else if piece == [] || piece == ['.'] then dropIdle fuel ((cs.dropWhile (· != '/')).drop 1)
    else cs

/-- The path without its last component, if it has one that is not the root. -/
def parent? : Option Path :=
  let base := if p.isAbsolute || p.startsHere then 1 else 0
  let head := p.text.toList.take base
  let body := dropIdle p.text.length (p.text.toList.drop base).reverse
  if body.isEmpty then
    if p.isAbsolute then none else if p.startsHere then some ⟨""⟩ else none
  else
    let above := dropIdle p.text.length ((body.dropWhile (· != '/')).drop 1)
    some ⟨String.ofList (head ++ above.reverse)⟩

def join (p q : Path) : Path :=
  if q.isAbsolute then q
  else if p.text.isEmpty || Text.endsWith p.text "/" then ⟨p.text ++ q.text⟩
  else ⟨p.text ++ "/" ++ q.text⟩

def afterComponents? : (head cs : List Component) → Option (List Component)
  | [], cs => some cs
  | _ :: _, [] => none
  | h :: hs, c :: cs => if h = c then afterComponents? hs cs else none

def startsWith (p head : Path) : Bool := (afterComponents? head.components p.components).isSome

/-- Drops pieces between slashes until `count` components are dropped. -/
def dropPieces : (count : Nat) → List String → List String
  | 0, pieces => pieces
  | _ + 1, [] => []
  | count + 1, piece :: pieces =>
    if (component? piece).isSome then dropPieces count pieces else dropPieces (count + 1) pieces

def trimPieces (pieces : List String) : List String :=
  let idle (piece : String) : Bool := (component? piece).isNone
  ((pieces.dropWhile idle).reverse.dropWhile idle).reverse

/-- The path relative to `head`, if it lies below it, written as it is within the path. -/
def below? (p head : Path) : Option Path :=
  if p.startsWith head then
    let named := (Text.splitAt '/' head.text).filterMap component?
    some ⟨Text.join "/" (trimPieces (dropPieces named.length (Text.splitAt '/' p.text)))⟩
  else none

def slashed : String := Text.replace p.text "\\" "/"

end Path

end Deadwood
