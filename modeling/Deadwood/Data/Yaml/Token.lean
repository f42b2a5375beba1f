import Deadwood.Data.Yaml.Scalar

/-!
# Tokens of YAML

A text as a list of tokens. Indentation is made explicit: a block collection starts with a token and
ends with another. A mapping key is found only at the colon after it, so that the tokens that mark it
are put in before what has been read.
-/

namespace Deadwood.Yaml

/-- A YAML token. -/
inductive Token where
  | directive
  | documentStart
  | documentEnd
  | blockSequence
  | blockMapping
  | blockEnd
  | blockEntry
  | flowSequence
  | flowSequenceEnd
  | flowMapping
  | flowMappingEnd
  | flowEntry
  | key
  | value
  | alias (name : String)
  | anchor (name : String)
  | tag
  | scalar (plain : Bool) (text : String)
deriving Repr, DecidableEq

/-- Where a simple key may have begun. -/
structure KeyPlace where
  position : Nat
  line : Nat
  column : Nat
  index : Nat
  required : Bool

/-- The state of the tokenizer. -/
structure Scan where
  place : Cursor
  tokens : List Token := []
  /-- Column of the current block collection, -1 if there is none. -/
  indent : Int := -1
  outer : List Int := []
  keyAllowed : Bool := true
  /-- For each open flow collection, innermost first, and for the block around them: where a key may
  have started. -/
  keys : List (Option KeyPlace) := [none]

namespace Scan

variable (s : Scan)

def inFlow : Bool := s.keys.length > 1

def emit (t : Token) : Scan := { s with tokens := s.tokens ++ [t] }

def insert (n : Nat) (t : Token) : Scan :=
  { s with tokens := s.tokens.take n ++ t :: s.tokens.drop n }

def close (column : Int) : (fuel : Nat) → Scan → Scan
  | 0, s => s
  | fuel + 1, s =>
    if s.inFlow || s.indent ≤ column then s
    else
      match s.outer with
      | [] => { s.emit .blockEnd with indent := -1 }
      | i :: outer => close column fuel { s.emit .blockEnd with indent := i, outer }

def closeTo (column : Int) : Scan := close column (s.outer.length + 1) s

/-- Opens a block collection at a column, with its token before token number `n`, if the column is
beyond that of the current one. -/
def openAt (column n : Nat) (t : Token) : Scan :=
  if !s.inFlow && s.indent < column then
    { s.insert n t with indent := column, outer := s.indent :: s.outer }
  else s

def dropKey? : Option Scan :=
  match s.keys with
  | some k :: rest => if k.required then none else some { s with keys := none :: rest }
  | _ => some s

def noteKey? : Option Scan :=
  if !s.keyAllowed then some s
  else do
    let s ← s.dropKey?
    let required := !s.inFlow && s.indent == s.place.column
    let k : KeyPlace := ⟨s.tokens.length, s.place.line, s.place.column, s.place.index, required⟩
    return { s with keys := some k :: s.keys.tail }

/-- Forgets the keys that cannot be ones any more, because they are on an earlier line or too long. -/
def dropStale? : Option Scan := do
  let keys ← s.keys.mapM fun key =>
    match key with
    | none => some none
    | some k =>
      if k.line < s.place.line || k.index + 1024 < s.place.index then
        if k.required then none else some none
      else some (some k)
  return { s with keys := keys }

/-- Adds a token of `n` characters after which a key is allowed or not. -/
def sign (n : Nat) (t : Token) (keyAllowed : Bool) : Scan :=
  { s.emit t with place := s.place.skip n, keyAllowed }

/-- Skips white space, comments and line breaks. After a line break a key is allowed, and a tab may
not stand where a key may start. -/
def skipGaps : (fuel : Nat) → Scan → Scan
  | 0, s => s
  | fuel + 1, s =>
    match s.place.rest with
    | c :: _ =>
      if c == ' ' || (c == '\t' && (s.inFlow || !s.keyAllowed)) then
        skipGaps fuel { s with place := s.place.next }
      else if c == '#' then
        skipGaps fuel { s with place := (s.place.takeWhile (!isBreak ·)).2 }
      else if isBreak c then
        skipGaps fuel { s with place := s.place.next, keyAllowed := s.keyAllowed || !s.inFlow }
      else s
    | [] => s

def openFlow? (t : Token) : Option Scan := do
  let s ← s.noteKey?
  return { s.sign 1 t true with keys := none :: s.keys }

def closeFlow? (t : Token) : Option Scan := do
  let s ← s.dropKey?
  let keys := if s.inFlow then s.keys.tail else s.keys
  return { s.sign 1 t false with keys := keys }

def blockEntry? : Option Scan := do
  if !s.inFlow && !s.keyAllowed then none
  else
    let s ← (s.openAt s.place.column s.tokens.length .blockSequence).dropKey?
    return s.sign 1 .blockEntry true

def explicitKey? : Option Scan := do
  if !s.inFlow && !s.keyAllowed then none
  else
    let s ← (s.openAt s.place.column s.tokens.length .blockMapping).dropKey?
    return s.sign 1 .key (!s.inFlow)

def value? : Option Scan :=
  match s.keys with
  | some k :: rest =>
    let s := (s.insert k.position .key).openAt k.column k.position .blockMapping
    some { s.sign 1 .value false with keys := none :: rest }
  | _ =>
    if !s.inFlow && !s.keyAllowed then none
    else some ((s.openAt s.place.column s.tokens.length .blockMapping).sign 1 .value (!s.inFlow))

def isAnchorChar (c : Char) : Bool := Text.isAsciiAlphanumeric c || c == '_' || c == '-'

def anchor? (t : String → Token) : Option Scan := do
  let s ← s.noteKey?
  let (name, place) := s.place.next.takeWhile isAnchorChar
  let ended := endsHere place.rest ||
    place.rest.head?.any fun c => ['?', ':', ',', ']', '\x7d', '%', '@', '\x60'].contains c
  if name.isEmpty || !ended then none
  else return { s.emit (t (String.ofList name)) with place := place, keyAllowed := false }

def tag? : Option Scan := do
  let s ← s.noteKey?
  let (_, place) := s.place.takeWhile fun c => !isGap c && !isBreak c && !(s.inFlow && c == ',')
  return { s.emit .tag with place := place, keyAllowed := false }

def directive? : Option Scan := do
  let s ← (s.closeTo (-1)).dropKey?
  let (line, place) := s.place.takeWhile (!isBreak ·)
  let known := ["%YAML ", "%TAG "].any fun d => Text.startsWith (String.ofList line) d
  if known then return { s.emit .directive with place := place, keyAllowed := false } else none

def documentMark? (t : Token) : Option Scan := do
  let s ← (s.closeTo (-1)).dropKey?
  return s.sign 3 t false

def block? (literal : Bool) : Option Scan := do
  let s ← s.dropKey?
  let (text, place) ← readBlock? literal s.indent s.place.next
  return { s.emit (.scalar false (String.ofList text)) with place := place, keyAllowed := true }

def quoted? (single : Bool) : Option Scan := do
  let s ← s.noteKey?
  let (text, place) ← readQuoted? single (s.place.rest.length + 1) [] s.place.next
  return { s.emit (.scalar false (String.ofList text)) with place := place, keyAllowed := false }

def plain? : Option Scan := do
  let s ← s.noteKey?
  let (text, broken, place) ←
    readPlain? s.inFlow (s.indent + 1).toNat (s.place.rest.length + 1) [] {} s.place
  return { s.emit (.scalar true (String.ofList text)) with place := place, keyAllowed := broken }

def startsPlain (inFlow : Bool) : List Char → Bool
  | [] => false
  | c :: rest =>
    let signs := ['-', '?', ':', ',', '[', ']', '\x7b', '\x7d', '#', '&', '*', '!', '|', '>', '\'', '"',
      '%', '@', '\x60']
    let gap := rest.head?.any isGap
    (!isGap c && !isBreak c && !signs.contains c) || (c == '-' && !gap) ||
      (!inFlow && (c == '?' || c == ':') && !endsHere rest)

def step? : Option Scan :=
  let atStart := s.place.column == 0
  match s.place.rest with
  | [] => none
  | c :: rest =>
    let ended := endsHere rest
    if atStart && c == '%' then s.directive?
    else if s.place.atDocumentMark then s.documentMark? (if c == '-' then .documentStart else .documentEnd)
    else if c == '[' then s.openFlow? .flowSequence
    else if c == '\x7b' then s.openFlow? .flowMapping
    else if c == ']' then s.closeFlow? .flowSequenceEnd
    else if c == '\x7d' then s.closeFlow? .flowMappingEnd
    else if c == ',' then do return (← s.dropKey?).sign 1 .flowEntry true
    else if c == '-' && ended then s.blockEntry?
    else if c == '?' && (s.inFlow || ended) then s.explicitKey?
    else if c == ':' && (s.inFlow || ended) then s.value?
    else if c == '*' then s.anchor? .alias
    else if c == '&' then s.anchor? .anchor
    else if c == '!' then s.tag?
    else if c == '|' && !s.inFlow then s.block? true
    else if c == '>' && !s.inFlow then s.block? false
    else if c == '\'' then s.quoted? true
    else if c == '"' then s.quoted? false
    else if startsPlain s.inFlow s.place.rest then s.plain?
    else none

def run? : (fuel : Nat) → Scan → Option (List Token)
  | 0, _ => none
  | fuel + 1, s => do
    let s ← (skipGaps (s.place.rest.length + 1) s).dropStale?
    let s := s.closeTo s.place.column
    if s.place.rest.isEmpty then
      -- the end counts as a new line
      let s ← { s with place := { s.place with line := s.place.line + 1 } }.dropStale?
      return (← (s.closeTo (-1)).dropKey?).tokens
    else run? fuel (← s.step?)

end Scan

def isAllowed (c : Char) : Bool :=
  let n := c.toNat
  n == 9 || n == 10 || n == 13 || (0x20 ≤ n && n ≤ 0x7e) || n == 0x85 || (0xa0 ≤ n && n ≤ 0xd7ff) ||
    (0xe000 ≤ n && n ≤ 0xfffd && n != 0xfeff) || 0x10000 ≤ n

def unifyBreaks : List Char → List Char
  | [] => []
  | '\r' :: '\n' :: rest => '\n' :: unifyBreaks rest
  | c :: rest => (if c == '\r' || c.toNat == 0x85 then '\n' else c) :: unifyBreaks rest

def tokens? (text : String) : Option (List Token) :=
  let cs := text.toList
  let cs := if cs.head?.any (·.toNat == 0xfeff) then cs.tail else cs
  if !cs.all isAllowed then none
  else
    let cs := unifyBreaks cs
    Scan.run? (cs.length + 1) { place := { rest := cs } }

end Deadwood.Yaml
