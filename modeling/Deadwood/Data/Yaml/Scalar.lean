import Deadwood.Data.Json

/-!
# Scalars of YAML

A place in a text with its line and column, and the four ways to write a scalar: plain, in single
quotes, in double quotes, and as a block of lines. Line breaks within a scalar are folded: one break
is a space, and each further one a line feed.
-/

namespace Deadwood.Yaml

/-- A place in the text. -/
structure Cursor where
  rest : List Char
  line : Nat := 0
  column : Nat := 0
  index : Nat := 0

def isBreak (c : Char) : Bool := c == '\n' || c.toNat == 0x2028 || c.toNat == 0x2029

def isGap (c : Char) : Bool := c == ' ' || c == '\t'

def endsHere : List Char → Bool
  | [] => true
  | c :: _ => isGap c || isBreak c

namespace Cursor

variable (p : Cursor)

def next : Cursor :=
  match p.rest with
  | [] => p
  | c :: cs =>
    if isBreak c then { rest := cs, line := p.line + 1, column := 0, index := p.index + 1 }
    else { p with rest := cs, column := p.column + 1, index := p.index + 1 }

def skip (n : Nat) : Cursor := (List.range n).foldl (fun p _ => p.next) p

def char? : Option Char := p.rest.head?

def atGap : Bool := p.char?.any isGap

def atBreak : Bool := p.char?.any isBreak

def atDocumentMark : Bool :=
  p.column == 0 &&
    match p.rest with
    | '-' :: '-' :: '-' :: rest | '.' :: '.' :: '.' :: rest => endsHere rest
    | _ => false

def takeWhile (test : Char → Bool) (p : Cursor) : List Char × Cursor :=
  let taken := p.rest.takeWhile test
  (taken, p.skip taken.length)

end Cursor

/-- What stands between two pieces of a scalar: spaces, or line breaks with the first apart. -/
structure Spacing where
  gaps : List Char := []
  firstBreak : List Char := []
  breaks : List Char := []
  broken : Bool := false

def Spacing.folded (s : Spacing) : List Char :=
  if !s.broken then s.gaps
  else if s.firstBreak == ['\n'] then if s.breaks.isEmpty then [' '] else s.breaks
  else s.firstBreak ++ s.breaks

/-- Reads spaces and line breaks. A tab at the start of a line below the column `indent` is refused. -/
def readSpacing? (indent : Nat) : (fuel : Nat) → Spacing → Cursor → Option (Spacing × Cursor)
  | 0, s, p => some (s, p)
  | fuel + 1, s, p =>
    match p.rest with
    | [] => some (s, p)
    | c :: _ =>
      if isGap c then
        if s.broken && p.column < indent && c == '\t' then none
        else readSpacing? indent fuel (if s.broken then s else { s with gaps := s.gaps ++ [c] }) p.next
      else if isBreak c then
        let s := if s.broken then { s with breaks := s.breaks ++ [c] }
          else { s with gaps := [], firstBreak := [c], broken := true }
        readSpacing? indent fuel s p.next
      else some (s, p)

/-! ## Plain scalars -/

def isFlowSign (c : Char) : Bool :=
  c == ',' || c == '[' || c == ']' || c == '\x7b' || c == '\x7d'

/-- Reads characters of a plain scalar up to a space, a break, or a sign that ends it; `none` if a
colon stands before a flow sign. -/
def readPlainRun? (inFlow : Bool) : (fuel : Nat) → (read : List Char) → Cursor → Option (List Char × Cursor)
  | 0, _, _ => none
  | fuel + 1, read, p =>
    match p.rest with
    | [] => some (read.reverse, p)
    | c :: rest =>
      if isGap c || isBreak c then some (read.reverse, p)
      else if c == ':' && inFlow && rest.head?.any (fun d => isFlowSign d || d == '?') then none
      else if c == ':' && endsHere rest then some (read.reverse, p)
      else if inFlow && isFlowSign c then some (read.reverse, p)
      else readPlainRun? inFlow fuel (c :: read) p.next

/-- Reads a plain scalar: its text, whether it ends after a line break, and the place after it. It
ends where a line is indented less than `indent`. -/
def readPlain? (inFlow : Bool) (indent : Nat) : (fuel : Nat) → (text : List Char) → Spacing →
    Cursor → Option (List Char × Bool × Cursor)
  | 0, _, _, _ => none
  | fuel + 1, text, spacing, p =>
    if p.atDocumentMark || p.char? == some '#' then some (text, spacing.broken, p)
    else
      match readPlainRun? inFlow (p.rest.length + 1) [] p with
      | none => none
      | some (run, q) =>
        let (text, spacing) := if run.isEmpty then (text, spacing) else (text ++ spacing.folded ++ run, {})
        if !(q.atGap || q.atBreak) then some (text, spacing.broken, q)
        else
          match readSpacing? indent (q.rest.length + 1) spacing q with
          | none => none
          | some (spacing, q) =>
            if !inFlow && q.column < indent then some (text, spacing.broken, q)
            else readPlain? inFlow indent fuel text spacing q

/-! ## Quoted scalars -/

def readHex? : (n : Nat) → (value : Nat) → List Char → Option Nat
  | 0, value, _ => some value
  | n + 1, value, c :: cs => (Json.hexValue? c).bind fun d => readHex? n (value * 16 + d) cs
  | _ + 1, _, [] => none

def charOf? (n : Nat) : Option Char := if n.isValidChar then some (Char.ofNat n) else none

def readEscape? : List Char → Option (Char × Nat)
  | '0' :: _ => some ('\x00', 1)
  | 'a' :: _ => some ('\x07', 1)
  | 'b' :: _ => some ('\x08', 1)
  | 't' :: _ => some ('\t', 1)
  | '\t' :: _ => some ('\t', 1)
  | 'n' :: _ => some ('\n', 1)
  | 'v' :: _ => some ('\x0b', 1)
  | 'f' :: _ => some ('\x0c', 1)
  | 'r' :: _ => some ('\r', 1)
  | 'e' :: _ => some ('\x1b', 1)
  | ' ' :: _ => some (' ', 1)
  | '"' :: _ => some ('"', 1)
  | '/' :: _ => some ('/', 1)
  | '\\' :: _ => some ('\\', 1)
  | 'N' :: _ => some (Char.ofNat 0x85, 1)
  | '_' :: _ => some (Char.ofNat 0xa0, 1)
  | 'L' :: _ => some (Char.ofNat 0x2028, 1)
  | 'P' :: _ => some (Char.ofNat 0x2029, 1)
  | 'x' :: rest => (readHex? 2 0 rest).bind charOf? |>.map fun c => (c, 3)
  | 'u' :: rest => (readHex? 4 0 rest).bind charOf? |>.map fun c => (c, 5)
  | 'U' :: rest => (readHex? 8 0 rest).bind charOf? |>.map fun c => (c, 9)
  | _ => none

def readQuoted? (single : Bool) : (fuel : Nat) → (text : List Char) → Cursor →
    Option (List Char × Cursor)
  | 0, _, _ => none
  | fuel + 1, text, p =>
    if p.atDocumentMark then none
    else
      let fold (spacing : Spacing) (p : Cursor) :=
        match readSpacing? 0 (p.rest.length + 1) spacing p with
        | none => none
        | some (spacing, p) => readQuoted? single fuel (text ++ spacing.folded) p
      match p.rest with
      | [] => none
      | c :: rest =>
        if isGap c || isBreak c then fold {} p
        else if single && c == '\'' then
          match rest with
          | '\'' :: _ => readQuoted? single fuel (text ++ ['\'']) (p.skip 2)
          | _ => some (text, p.next)
        else if !single && c == '"' then some (text, p.next)
        else if !single && c == '\\' then
          if rest.head?.any isBreak then fold { broken := true } (p.skip 2)
          else
            match readEscape? rest with
            | none => none
            | some (d, n) => readQuoted? single fuel (text ++ [d]) (p.skip (n + 1))
        else readQuoted? single fuel (text ++ [c]) p.next

/-! ## Blocks of lines -/

/-- What becomes of the breaks at the end of a block. -/
inductive Chomp where
  | strip
  | clip
  | keep
deriving DecidableEq

def readBlockHeader? : List Char → Option (Chomp × Option Nat × Nat)
  | c :: d :: _ =>
    let digit (c : Char) : Bool := Text.isAsciiDigit c && c != '0'
    let chomp? (c : Char) : Option Chomp := if c == '+' then some .keep else if c == '-' then some .strip else none
    match chomp? c with
    | some chomp => if digit d then some (chomp, some (digitValue d), 2) else some (chomp, none, 1)
    | none =>
      if digit c then
        match chomp? d with
        | some chomp => some (chomp, some (digitValue c), 2)
        | none => some (.clip, some (digitValue c), 1)
      else if c == '0' then none
      else some (.clip, none, 0)
  | [c] =>
    if c == '+' then some (.keep, none, 1)
    else if c == '-' then some (.strip, none, 1)
    else if c == '0' then none
    else if Text.isAsciiDigit c then some (.clip, some (digitValue c), 1)
    else some (.clip, none, 0)
  | [] => some (.clip, none, 0)

/-- Skips empty lines and the indentation of the next line: the breaks, the widest indentation, and
the place. An indentation of zero is not known yet. -/
def readBlockBreaks? (indent : Nat) : (fuel : Nat) → (breaks : List Char) → (widest : Nat) → Cursor →
    Option (List Char × Nat × Cursor)
  | 0, _, _, _ => none
  | fuel + 1, breaks, widest, p =>
    let inIndent := indent == 0 || p.column < indent
    match p.rest with
    | c :: _ =>
      if inIndent && c == ' ' then readBlockBreaks? indent fuel breaks (max widest (p.column + 1)) p.next
      else if inIndent && c == '\t' then none
      else if isBreak c then readBlockBreaks? indent fuel (breaks ++ [c]) widest p.next
      else some (breaks, widest, p)
    | [] => some (breaks, widest, p)

/-- Reads the lines of a block: the text so far, the last break, the breaks of empty lines after it,
and whether the last line started with a space. -/
def readBlockLines? (literal : Bool) (indent : Nat) : (fuel : Nat) → (text lastBreak breaks : List Char) →
    (spaced : Bool) → Cursor → Option (List Char × List Char × List Char × Cursor)
  | 0, _, _, _, _, _ => none
  | fuel + 1, text, lastBreak, breaks, spaced, p =>
    if p.column != indent || p.rest.isEmpty then some (text, lastBreak, breaks, p)
    else
      let folds := !literal && lastBreak == ['\n'] && !spaced && !p.atGap
      let joint := if folds then if breaks.isEmpty then [' '] else [] else lastBreak
      let (line, q) := p.takeWhile (!isBreak ·)
      let end_ := q.rest.take 1
      match readBlockBreaks? indent (q.rest.length + 1) [] 0 q.next with
      | none => none
      | some (empty, _, r) =>
        readBlockLines? literal indent fuel (text ++ joint ++ breaks ++ line) end_ empty p.atGap r

def readBlock? (literal : Bool) (outer : Int) (p : Cursor) : Option (List Char × Cursor) := do
  let (chomp, given, length) ← readBlockHeader? p.rest
  let (_, p) := (p.skip length).takeWhile isGap
  let p := if p.char? == some '#' then (p.takeWhile (!isBreak ·)).2 else p
  if !(p.rest.isEmpty || p.atBreak) then none
  else
    let p := p.next
    let indent := (given.map fun n => if outer ≥ 0 then outer.toNat + n else n).getD 0
    let (breaks, widest, p) ← readBlockBreaks? indent (p.rest.length + 1) [] p.column p
    let indent := if indent == 0 then max (max widest (outer + 1).toNat) 1 else indent
    let (text, lastBreak, breaks, p) ← readBlockLines? literal indent (p.rest.length + 1) [] [] breaks false p
    let ending := match chomp with
      | .strip => []
      | .clip => lastBreak
      | .keep => lastBreak ++ breaks
    return (text ++ ending, p)

end Deadwood.Yaml
