import Deadwood.Pattern.Basic

/-!
# The usual notation of patterns

`Pattern.ofNotation` reads a pattern from the notation that regular expressions are usually written
in: characters stand for themselves, `.` for any character but a line feed, `[…]` for a set, `\w`,
`\s`, `\d` for word characters, white space and digits, `^`, `$` and `\b` for places, `(…)` for a
numbered and `(?:…)` for a plain group, `|` for a choice, and `*`, `+`, `?`, `{n}` for repetition,
with a `?` after them to prefer fewer. `(?m)`, `(?s)` and `(?i)` change, up to the end of the group
they stand in, what `^` and `$`, what `.`, and what letters mean. `\xhh` is the character with that
code.
-/

namespace Deadwood.Pattern

open Text

/-- What the marks `(?m)`, `(?s)` and `(?i)` change. -/
structure Modes where
  byLine : Bool := false
  dotAll : Bool := false
  anyCase : Bool := false

/-- The rest of the notation, the modes in force, and the number of groups so far. -/
structure Reading where
  rest : List Char
  modes : Modes
  groups : Nat

def single (c : Char) : CharClass := ⟨false, [.range c c]⟩

def letter (modes : Modes) (c : Char) : Pattern :=
  if modes.anyCase then one ⟨false, (caseVariants c).map fun v => .range v v⟩ else one (single c)

def hexValue (c : Char) : Nat :=
  if isAsciiDigit c then c.toNat - 48 else (asciiLower c).toNat - 87

def escaped (c : Char) : Char :=
  match c with
  | 'n' => '\n'
  | 't' => '\t'
  | 'r' => '\r'
  | c => c

def readItems : (fuel : Nat) → (items : List ClassItem) → List Char → Option (List ClassItem × List Char)
  | 0, _, _ => none
  | fuel + 1, items, cs =>
    match cs with
    | [] => none
    | ']' :: rest => some (items.reverse, rest)
    | '\\' :: 'w' :: rest => readItems fuel (.word :: items) rest
    | '\\' :: 's' :: rest => readItems fuel (.blank :: items) rest
    | '\\' :: 'd' :: rest => readItems fuel (.decimal :: items) rest
    | '\\' :: 'x' :: a :: b :: rest =>
      let c := Char.ofNat (16 * hexValue a + hexValue b)
      readItems fuel (.range c c :: items) rest
    | '\\' :: c :: rest => readItems fuel (.range (escaped c) (escaped c) :: items) rest
    | a :: '-' :: ']' :: rest => readItems fuel (.range '-' '-' :: .range a a :: items) (']' :: rest)
    | a :: '-' :: b :: rest => readItems fuel (.range a b :: items) rest
    | c :: rest => readItems fuel (.range c c :: items) rest

def readClass (cs : List Char) : Option (CharClass × List Char) :=
  match cs with
  | '^' :: rest => (readItems (rest.length + 1) [] rest).map fun (items, rest) => (⟨true, items⟩, rest)
  | _ => (readItems (cs.length + 1) [] cs).map fun (items, rest) => (⟨false, items⟩, rest)

def Modes.set (modes : Modes) : List Char → Modes
  | [] => modes
  | 'm' :: cs => { modes with byLine := true }.set cs
  | 's' :: cs => { modes with dotAll := true }.set cs
  | 'i' :: cs => { modes with anyCase := true }.set cs
  | _ :: cs => modes.set cs

def copies (p : Pattern) : Nat → Pattern
  | 0 => empty
  | 1 => p
  | n + 1 => seq p (copies p n)

def readRepeat (p : Pattern) (cs : List Char) : Pattern × List Char :=
  match cs with
  | '*' :: '?' :: rest => (star false p, rest)
  | '*' :: rest => (star true p, rest)
  | '+' :: '?' :: rest => (seq p (star false p), rest)
  | '+' :: rest => (seq p (star true p), rest)
  | '?' :: '?' :: rest => (alt empty p, rest)
  | '?' :: rest => (alt p empty, rest)
  | '{' :: rest =>
    let digits := rest.takeWhile isAsciiDigit
    let count := digits.foldl (fun n d => 10 * n + hexValue d) 0
    (copies p count, (rest.drop digits.length).drop 1)
  | _ => (p, cs)

def andThen (p q : Pattern) : Pattern :=
  match p with
  | empty => q
  | _ => seq p q

mutual

def readChoice (fuel : Nat) (r : Reading) : Option (Pattern × Reading) :=
  match fuel with
  | 0 => none
  | fuel + 1 => do
    let (p, r) ← readSeq fuel empty r
    match r.rest with
    | '|' :: rest =>
      let (q, r) ← readChoice fuel { r with rest := rest }
      return (alt p q, r)
    | _ => return (p, r)

/-- A sequence, `done` being what has been read of it. -/
def readSeq (fuel : Nat) (done : Pattern) (r : Reading) : Option (Pattern × Reading) :=
  match fuel with
  | 0 => none
  | fuel + 1 => do
    let more (p : Pattern) (r : Reading) : Option (Pattern × Reading) :=
      let (p, rest) := readRepeat p r.rest
      readSeq fuel (andThen done p) { r with rest := rest }
    let inner (r : Reading) (wrap : Pattern → Pattern) : Option (Pattern × Reading) := do
      let (p, after) ← readChoice fuel r
      match after.rest with
      | ')' :: rest => more (wrap p) { after with rest := rest, modes := r.modes }
      | _ => none
    match r.rest with
    | [] => return (done, r)
    | '|' :: _ => return (done, r)
    | ')' :: _ => return (done, r)
    | '(' :: '?' :: ':' :: rest => inner { r with rest := rest } id
    | '(' :: '?' :: rest =>
      let marks := rest.takeWhile (· != ')')
      readSeq fuel done
        { r with rest := rest.drop (marks.length + 1), modes := r.modes.set marks }
    | '(' :: rest =>
      let number := r.groups + 1
      inner { r with rest := rest, groups := number } (group number)
    | '[' :: rest =>
      let (set, rest) ← readClass rest
      more (one set) { r with rest := rest }
    | '.' :: rest =>
      more (one ⟨true, if r.modes.dotAll then [] else [.range '\n' '\n']⟩) { r with rest := rest }
    | '^' :: rest =>
      more (look (if r.modes.byLine then .lineStart else .textStart)) { r with rest := rest }
    | '$' :: rest =>
      more (look (if r.modes.byLine then .lineEnd else .textEnd)) { r with rest := rest }
    | '\\' :: 'b' :: rest => more (look .wordEdge) { r with rest := rest }
    | '\\' :: 'w' :: rest => more (one ⟨false, [.word]⟩) { r with rest := rest }
    | '\\' :: 's' :: rest => more (one ⟨false, [.blank]⟩) { r with rest := rest }
    | '\\' :: 'd' :: rest => more (one ⟨false, [.decimal]⟩) { r with rest := rest }
    | '\\' :: 'x' :: a :: b :: rest =>
      more (one (single (Char.ofNat (16 * hexValue a + hexValue b)))) { r with rest := rest }
    | '\\' :: c :: rest => more (one (single (escaped c))) { r with rest := rest }
    | c :: rest => more (letter r.modes c) { r with rest := rest }

end

def read? (text : String) : Option Pattern :=
  match readChoice (2 * text.length + 2) ⟨text.toList, {}, 0⟩ with
  | some (p, r) => if r.rest.isEmpty then some p else none
  | none => none

/-- The pattern written in the usual notation; text that is no pattern matches nothing. -/
def ofNotation (text : String) : Pattern := (read? text).getD never

instance : Coe String Pattern := ⟨ofNotation⟩

end Deadwood.Pattern
