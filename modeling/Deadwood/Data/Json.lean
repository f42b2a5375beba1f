import Deadwood.Number.Decimal

/-!
# JSON

Values of the JSON format, read and written.
-/

namespace Deadwood

open Text

/-- A JSON value. -/
inductive Json where
  | null
  | bool (b : Bool)
  | integer (n : Int)
  | real (x : Binary64)
  | string (s : String)
  | array (items : List Json)
  | object (fields : List (String × Json))
deriving Repr, Inhabited

namespace Json

/-! ## Access -/

def get? (name : String) : Json → Option Json
  | object fields => fields.reverse.lookup name
  | _ => none

def text? : Json → Option String
  | string s => some s
  | _ => none

def items? : Json → Option (List Json)
  | array items => some items
  | _ => none

def values? : Json → Option (List Json)
  | object fields => some (fields.map (·.2))
  | _ => none

def natural? : Json → Option Nat
  | integer n => if 0 ≤ n && n < Int.pow 2 64 then some n.toNat else none
  | _ => none

/-! ## Reading -/

def isGap (c : Char) : Bool := c == ' ' || c == '\n' || c == '\t' || c == '\r'

variable (cs : List Char)

def skip : List Char := cs.dropWhile isGap

def hexValue? (c : Char) : Option Nat :=
  if isAsciiDigit c then some (c.toNat - '0'.toNat)
  else if 'a' ≤ c && c ≤ 'f' then some (c.toNat - 'a'.toNat + 10)
  else if 'A' ≤ c && c ≤ 'F' then some (c.toNat - 'A'.toNat + 10)
  else none

def readUnit? : List Char → Option (Nat × List Char)
  | a :: b :: c :: d :: rest => do
    let a ← hexValue? a
    let b ← hexValue? b
    let c ← hexValue? c
    let d ← hexValue? d
    return (((a * 16 + b) * 16 + c) * 16 + d, rest)
  | _ => none

/-- Reads the character that four digits stand for, with four more if they are half of a pair. -/
def readEscapedUnit? : Option (Char × List Char) := do
  let (unit, rest) ← readUnit? cs
  if 0xd800 ≤ unit && unit < 0xdc00 then
    match rest with
    | '\\' :: 'u' :: rest =>
      let (low, rest) ← readUnit? rest
      if 0xdc00 ≤ low && low < 0xe000 then
        return (Char.ofNat (0x10000 + (unit - 0xd800) * 0x400 + (low - 0xdc00)), rest)
      else none
    | _ => none
  else if 0xdc00 ≤ unit && unit < 0xe000 then none
  else return (Char.ofNat unit, rest)

def escaped? : Char → Option Char
  | '"' => some '"'
  | '\\' => some '\\'
  | '/' => some '/'
  | 'b' => some '\x08'
  | 'f' => some '\x0c'
  | 'n' => some '\n'
  | 'r' => some '\r'
  | 't' => some '\t'
  | _ => none

/-- Reads the rest of a text after its opening quote: the characters so far, the latest first. The
fuel bounds the characters read. -/
def readText? : (fuel : Nat) → (read : List Char) → List Char → Option (String × List Char)
  | 0, _, _ => none
  | _ + 1, _, [] => none
  | fuel + 1, read, c :: cs =>
    if c = '"' then some (String.ofList read.reverse, cs)
    else if c.toNat < 0x20 then none
    else if c = '\\' then
      match cs with
      | 'u' :: rest =>
        match readEscapedUnit? rest with
        | some (d, rest) => readText? fuel (d :: read) rest
        | none => none
      | e :: rest =>
        match escaped? e with
        | some d => readText? fuel (d :: read) rest
        | none => none
      | [] => none
    else readText? fuel (c :: read) cs

def readDigits? : Option (List Char × List Char) :=
  let digits := cs.takeWhile isAsciiDigit
  if digits.isEmpty then none else some (digits, cs.dropWhile isAsciiDigit)

def readPower? : Option (Option Int × List Char) :=
  match cs with
  | 'e' :: rest | 'E' :: rest => do
    let (negative, rest) := Decimal.takeSign rest
    let (digits, rest) ← readDigits? rest
    let value : Int := digitsValue digits
    return (some (if negative then -value else value), rest)
  | _ => some (none, cs)

def readFraction? : Option (List Char × List Char) :=
  match cs with
  | '.' :: rest => readDigits? rest
  | _ => some ([], cs)

/-- The value of a number: whole numbers of up to 64 bits are kept, all others are rounded. -/
def ofParts? (negative : Bool) (whole fraction : List Char) (power : Option Int) : Option Json :=
  let n : Int := if negative then -(digitsValue whole : Int) else digitsValue whole
  let isWhole := fraction.isEmpty && power.isNone && !(negative && n = 0)
  if isWhole && -Int.pow 2 63 ≤ n && n < Int.pow 2 64 then some (integer n)
  else
    let x := Decimal.nearest ⟨negative, digitsValue (whole ++ fraction), power.getD 0 - fraction.length⟩
    if x.isFinite then some (real x) else none

/-- Reads a number. Its first digit is zero only if it is the only one before the point. -/
def readNumber? : Option (Json × List Char) := do
  let (negative, cs) := match cs with
    | '-' :: rest => (true, rest)
    | _ => (false, cs)
  let (whole, rest) ← readDigits? cs
  if whole.length > 1 && whole.head? == some '0' then none
  else
    let (fraction, rest) ← readFraction? rest
    let (power, rest) ← readPower? rest
    let value ← ofParts? negative whole fraction power
    return (value, rest)

def readItems? (value : List Char → Option (Json × List Char)) :
    (fuel : Nat) → (read : List Json) → List Char → Option (List Json × List Char)
  | 0, _, _ => none
  | fuel + 1, read, cs =>
    match value (skip cs) with
    | none => none
    | some (item, rest) =>
      match skip rest with
      | ',' :: rest => readItems? value fuel (item :: read) rest
      | ']' :: rest => some ((item :: read).reverse, rest)
      | _ => none

def readFields? (value : List Char → Option (Json × List Char)) :
    (fuel : Nat) → (read : List (String × Json)) → List Char →
      Option (List (String × Json) × List Char)
  | 0, _, _ => none
  | fuel + 1, read, cs =>
    match skip cs with
    | '"' :: rest =>
      match readText? (rest.length + 1) [] rest with
      | none => none
      | some (name, rest) =>
        match skip rest with
        | ':' :: rest =>
          match value (skip rest) with
          | none => none
          | some (item, rest) =>
            match skip rest with
            | ',' :: rest => readFields? value fuel ((name, item) :: read) rest
            | '\x7d' :: rest => some (((name, item) :: read).reverse, rest)
            | _ => none
        | _ => none
    | _ => none

def readWord? (word : String) (value : Json) (cs : List Char) : Option (Json × List Char) :=
  (afterHead? word.toList cs).map fun rest => (value, rest)

/-- Reads a value that starts here. Lists and objects nest less deep than `depth`. -/
def readValue? : (depth : Nat) → List Char → Option (Json × List Char)
  | 0, _ => none
  | depth + 1, cs =>
    match cs with
    | 'n' :: _ => readWord? "null" null cs
    | 't' :: _ => readWord? "true" (bool true) cs
    | 'f' :: _ => readWord? "false" (bool false) cs
    | '"' :: rest => (readText? (rest.length + 1) [] rest).map fun (s, rest) => (string s, rest)
    | '[' :: rest =>
      if depth = 0 then none
      else
        match skip rest with
        | ']' :: rest => some (array [], rest)
        | rest => (readItems? (readValue? depth) (rest.length + 1) [] rest).map fun (items, rest) =>
            (array items, rest)
    | '\x7b' :: rest =>
      if depth = 0 then none
      else
        match skip rest with
        | '\x7d' :: rest => some (object [], rest)
        | rest => (readFields? (readValue? depth) (rest.length + 1) [] rest).map fun (fields, rest) =>
            (object fields, rest)
    | _ => readNumber? cs

theorem readValue?_digit {c : Char} (h : isAsciiDigit c = true) (depth : Nat) (cs : List Char) :
    readValue? (depth + 1) (c :: cs) = readNumber? (c :: cs) := by
  have hne (d : Char) (hd : isAsciiDigit d = false) (tail : List Char) : c :: cs ≠ d :: tail := by
    intro heq
    rw [(List.cons.inj heq).1, hd] at h
    cases h
  rw [readValue?]
  all_goals exact hne _ (by decide)

def depthLimit : Nat := 128

def read? (s : String) : Option Json :=
  match readValue? depthLimit (skip s.toList) with
  | some (value, rest) => if (skip rest).isEmpty then some value else none
  | none => none

/-! ## Writing -/

def hexDigit (n : Nat) : Char := if n < 10 then Char.ofNat (n + '0'.toNat) else Char.ofNat (n - 10 + 'a'.toNat)

def escape (c : Char) : List Char :=
  if c = '"' then ['\\', '"']
  else if c = '\\' then ['\\', '\\']
  else if c = '\x08' then ['\\', 'b']
  else if c = '\x0c' then ['\\', 'f']
  else if c = '\n' then ['\\', 'n']
  else if c = '\r' then ['\\', 'r']
  else if c = '\t' then ['\\', 't']
  else if c.toNat < 0x20 then ['\\', 'u', '0', '0', hexDigit (c.toNat / 16), hexDigit (c.toNat % 16)]
  else [c]

def quote (s : String) : String := String.ofList ('"' :: s.toList.flatMap escape ++ ['"'])

def newLine (depth : Nat) : String := String.ofList ('\n' :: List.replicate (2 * depth) ' ')

def enclose (depth : Nat) (opening closing : String) (parts : List String) : String :=
  if parts.isEmpty then opening ++ closing
  else opening ++ newLine (depth + 1) ++ join ("," ++ newLine (depth + 1)) parts ++
    newLine depth ++ closing

mutual

def prettyAt (depth : Nat) : Json → String
  | null => "null"
  | bool true => "true"
  | bool false => "false"
  | integer n => toString n
  | real x => x.scientific?.getD "null"
  | string s => quote s
  | array items => enclose depth "[" "]" (prettyItems (depth + 1) items)
  | object fields => enclose depth "\x7b" "\x7d" (prettyFields (depth + 1) fields)

def prettyItems (depth : Nat) : List Json → List String
  | [] => []
  | item :: items => prettyAt depth item :: prettyItems depth items

def prettyFields (depth : Nat) : List (String × Json) → List String
  | [] => []
  | (name, value) :: fields => (quote name ++ ": " ++ prettyAt depth value) :: prettyFields depth fields

end

def pretty (value : Json) : String := prettyAt 0 value

def natural (n : Nat) : Json := integer n

end Json

end Deadwood
