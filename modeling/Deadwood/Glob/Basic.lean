import Deadwood.Pattern.Match

/-!
# Globs

A glob describes paths. `?` stands for one byte and `*` for any number of bytes other than a slash;
`**` between slashes stands for any number of directories; `[…]` is a set of bytes, `[!…]` its
complement; `{…,…}` is a choice; a backslash takes the character after it as it is.

A glob is read as a `Pattern` on the bytes of a path, each byte taken as one character.
-/

namespace Deadwood.Glob

def bytesOf (c : Char) : List Char := (String.utf8EncodeChar c).map fun b => Char.ofNat b.toNat

def bytesOfText (s : String) : String := String.ofList (s.toList.flatMap bytesOf)

def byteIn (ranges : List (Char × Char)) : Pattern :=
  .one ⟨false, ranges.map fun (first, last) => .range first last⟩

def byteNotIn (ranges : List (Char × Char)) : Pattern :=
  .one ⟨true, ranges.map fun (first, last) => .range first last⟩

def anything : Pattern := .star true (byteNotIn [])

def withinName : Pattern := .star true (byteNotIn [('/', '/')])

def append : Pattern → Pattern → Pattern
  | .empty, q => q
  | p, .empty => p
  | p, q => .seq p q

def literal (c : Char) : Pattern := (bytesOf c).foldr (fun b p => append (byteIn [(b, b)]) p) .empty

/-- A part of a glob. The three parts that span directories are kept apart because they take in the
slashes around them. -/
inductive Part where
  | piece (pattern : Pattern)
  /-- `**/` at the start: no directory, or some. -/
  | leading
  /-- `/**/`: a slash, or some directories between slashes. -/
  | inner
  /-- `/**` at the end: all that is below a directory. -/
  | trailing

def Part.pattern : Part → Pattern
  | piece p => p
  | leading => .alt .empty (.alt (literal '/') (.seq anything (literal '/')))
  | inner => .alt (literal '/') (.seq (literal '/') (.seq anything (literal '/')))
  | trailing => .seq (literal '/') anything

def sequence (parts : List Part) : Pattern := parts.foldr (fun part p => append part.pattern p) .empty

def choice (branches : List Pattern) : Pattern :=
  match (branches.filter (· != .empty)).reverse with
  | [] => .empty
  | last :: others => others.foldl (fun p q => .alt q p) last

/-- The bytes of a range of characters: the range is formed by the two bytes that meet in its
middle. -/
def rangeBytes (first last : Char) : List (Char × Char) :=
  if first = last then (bytesOf first).map fun b => (b, b)
  else
    let (a, b) := (bytesOf first, bytesOf last)
    a.dropLast.map (fun c => (c, c)) ++ [(a.getLastD first, b.headD last)] ++ b.tail.map fun c => (c, c)

/-- Reads the ranges of a set up to its closing bracket; `none` if there is no closing bracket, and
`some none` if a range runs backwards. A bracket or dash at the start and a dash at the end stand
for themselves. -/
def readRanges : (first inRange : Bool) → (ranges : List (Char × Char)) → List Char →
    Option (Option (List (Char × Char) × List Char))
  | _, _, _, [] => none
  | first, inRange, ranges, c :: cs =>
    if c = ']' && !first then
      some (some ((if inRange then ('-', '-') :: ranges else ranges).reverse, cs))
    else if c = '-' && !first && !inRange then readRanges false true ranges cs
    else if inRange then
      match ranges with
      | (a, _) :: rest => if a ≤ c then readRanges false false ((a, c) :: rest) cs else some none
      | [] => some none
    else readRanges false false ((c, c) :: ranges) cs

def readSet (cs : List Char) : Option (Option (Pattern × List Char)) :=
  let (negated, body) := match cs with
    | '!' :: rest | '^' :: rest => (true, rest)
    | _ => (false, cs)
  (readRanges true false [] body).map fun read => read.map fun (ranges, rest) =>
    let bytes := ranges.flatMap fun (a, b) => rangeBytes a b
    (if negated then byteNotIn bytes else byteIn bytes, rest)

/-- Reads `**`, of which the first star is taken: the parts so far, the latest first, with the new
ones, and the rest. Only `**` between slashes spans directories. -/
def readStars (nested : Bool) (before : Option Char) (parts : List Part) (rest : List Char) :
    List Part × List Char :=
  let plain := (.piece withinName :: .piece withinName :: parts, rest)
  match parts with
  | [] =>
    match rest with
    | [] => ([.leading], [])
    | '/' :: rest => ([.leading], rest)
    | _ => plain
  | last :: earlier =>
    if before != some '/' && !(nested && (before == some ',' || before == some '\x7b')) then plain
    else
      let close (part : Part) (rest : List Char) : List Part × List Char :=
        match last with
        | .leading => (parts, rest)
        | .trailing => (parts, rest)
        | _ => (part :: earlier, rest)
      match rest with
      | [] => close .trailing []
      | '/' :: rest => close .inner rest
      | c :: _ => if nested && (c = ',' || c = '\x7d') then close .trailing rest else plain

/-- A choice still open: its branches so far and what stands before it. -/
structure OpenChoice where
  branches : List Pattern
  earlier : List Part

/-- Reads a glob: the choices that are open, the innermost first, the character before, and the
parts of the current branch so far, the latest first. A set without a closing bracket is an opening
bracket if `lenient`. The fuel bounds the characters read. -/
def readParts (lenient : Bool) : (fuel : Nat) → (choices : List OpenChoice) →
    (before : Option Char) → (parts : List Part) → List Char → Option (List Part)
  | 0, _, _, _, _ => none
  | _ + 1, choices, _, parts, [] => if choices.isEmpty then some parts.reverse else none
  | fuel + 1, choices, before, parts, c :: cs =>
    let next (p : Pattern) (last : Char) (rest : List Char) :=
      readParts lenient fuel choices (some last) (.piece p :: parts) rest
    match c, choices, cs with
    | '?', _, _ => next (byteNotIn [('/', '/')]) c cs
    | '*', _, '*' :: rest =>
      let (parts, left) := readStars (!choices.isEmpty) before parts rest
      readParts lenient fuel choices (some (if left.length < rest.length then '/' else '*')) parts left
    | '*', _, _ => next withinName c cs
    | '[', _, _ =>
      match readSet cs with
      | none => if lenient then next (literal '[') c cs else none
      | some none => none
      | some (some (p, rest)) => next p ']' rest
    | '\\', _, d :: rest => next (literal d) d rest
    | '\\', _, [] => none
    | '\x7b', _, _ => readParts lenient fuel (⟨[], parts⟩ :: choices) (some c) [] cs
    | '\x7d', [], _ => none
    | '\x7d', ⟨branches, earlier⟩ :: outer, _ =>
      readParts lenient fuel outer (some c)
        (.piece (choice (sequence parts.reverse :: branches).reverse) :: earlier) cs
    | ',', ⟨branches, earlier⟩ :: outer, _ =>
      readParts lenient fuel (⟨sequence parts.reverse :: branches, earlier⟩ :: outer) (some c) [] cs
    | c, _, _ => next (literal c) c cs

/-- The pattern of a glob, if the glob is well formed. A lone `**` describes every path. -/
def read? (lenient : Bool) (glob : String) : Option Pattern :=
  (readParts lenient (glob.length + 1) [] none [] glob.toList).map fun
    | [.leading] => anything
    | parts => sequence parts

def describes (p : Pattern) (path : String) : Bool :=
  (p.ends (Cursor.start (bytesOfText path))).any fun hit => hit.place.rest.isEmpty

end Deadwood.Glob
