import Deadwood.Data.Json

/-!
# Scalars of TOML

Texts in four kinds of quotes, numbers in several notations, and moments in time.
-/

namespace Deadwood.Toml

open Text

/-- A value that holds no others. -/
inductive Scalar where
  | string (s : String)
  | integer (n : Int)
  | real (x : Binary64)
  | bool (b : Bool)
  | moment
deriving Repr

def isGap (c : Char) : Bool := c == ' ' || c == '\t'

def isPrintable (c : Char) : Bool := c == '\t' || (0x20 ≤ c.toNat && c.toNat != 0x7f)

def afterBreak? : List Char → Option (List Char)
  | '\n' :: rest | '\r' :: '\n' :: rest => some rest
  | _ => none

def readCode? (n : Nat) (cs : List Char) : Option (Char × List Char) := do
  let digits := cs.take n
  if digits.length < n then none
  else
    let values ← digits.mapM Json.hexValue?
    let code := values.foldl (fun v d => v * 16 + d) 0
    if code.isValidChar then return (Char.ofNat code, cs.drop n) else none

def readEscape? : List Char → Option (Char × List Char)
  | 'b' :: rest => some ('\x08', rest)
  | 't' :: rest => some ('\t', rest)
  | 'n' :: rest => some ('\n', rest)
  | 'f' :: rest => some ('\x0c', rest)
  | 'r' :: rest => some ('\r', rest)
  | '"' :: rest => some ('"', rest)
  | '\\' :: rest => some ('\\', rest)
  | 'u' :: rest => readCode? 4 rest
  | 'U' :: rest => readCode? 8 rest
  | _ => none

def readLine? (quote : Char) : (fuel : Nat) → (read : List Char) → List Char → Option (String × List Char)
  | 0, _, _ => none
  | _ + 1, _, [] => none
  | fuel + 1, read, c :: cs =>
    if c == quote then some (String.ofList read.reverse, cs)
    else if c == '\\' && quote == '"' then
      match readEscape? cs with
      | some (d, rest) => readLine? quote fuel (d :: read) rest
      | none => none
    else if isPrintable c then readLine? quote fuel (c :: read) cs
    else none

def skipBlank : (fuel : Nat) → List Char → List Char
  | 0, cs => cs
  | fuel + 1, cs =>
    match afterBreak? cs with
    | some rest => skipBlank fuel rest
    | none =>
      match cs with
      | c :: rest => if isGap c then skipBlank fuel rest else cs
      | [] => []

variable (cs : List Char)

/-- What follows a backslash at the end of a line, up to the next text. -/
def afterContinuation? : Option (List Char) :=
  (afterBreak? (cs.dropWhile isGap)).map fun rest => skipBlank rest.length rest

/-- Reads a text of several lines after its opening quotes. Up to two quotes may stand before the
closing ones. -/
def readLines? (quote : Char) : (fuel : Nat) → (read : List Char) → List Char → Option (String × List Char)
  | 0, _, _ => none
  | _ + 1, _, [] => none
  | fuel + 1, read, c :: cs =>
    if c == quote then
      let quotes := ((c :: cs).takeWhile (· == quote)).length
      if quotes ≥ 3 then
        let inside := min (quotes - 3) 2
        some (String.ofList (read.reverse ++ List.replicate inside quote), (c :: cs).drop (inside + 3))
      else readLines? quote fuel (c :: read) cs
    else if c == '\\' && quote == '"' then
      match afterContinuation? cs with
      | some rest => readLines? quote fuel read rest
      | none =>
        match readEscape? cs with
        | some (d, rest) => readLines? quote fuel (d :: read) rest
        | none => none
    else
      match afterBreak? (c :: cs) with
      | some rest => readLines? quote fuel ('\n' :: read) rest
      | none => if isPrintable c then readLines? quote fuel (c :: read) cs else none

/-- Reads a text in quotes. A line break right after three quotes does not count. -/
def readQuoted? : Option (String × List Char) :=
  match cs with
  | '"' :: '"' :: '"' :: rest => readLines? '"' (rest.length + 1) [] ((afterBreak? rest).getD rest)
  | '\'' :: '\'' :: '\'' :: rest => readLines? '\'' (rest.length + 1) [] ((afterBreak? rest).getD rest)
  | '"' :: rest => readLine? '"' (rest.length + 1) [] rest
  | '\'' :: rest => readLine? '\'' (rest.length + 1) [] rest
  | _ => none

/-! ## Numbers -/

/-- Digits with single underscores between them, without the underscores. -/
def digits? (isDigit : Char → Bool) : List Char → Option (List Char)
  | [] => none
  | [c] => if isDigit c then some [c] else none
  | c :: '_' :: rest => if isDigit c then (digits? isDigit rest).map (c :: ·) else none
  | c :: rest => if isDigit c then (digits? isDigit rest).map (c :: ·) else none

def valueIn (base : Nat) (cs : List Char) : Nat :=
  cs.foldl (fun v c => v * base + (Json.hexValue? c).getD 0) 0

def bounded? (n : Int) : Option Scalar :=
  if -Int.pow 2 63 ≤ n && n < Int.pow 2 63 then some (.integer n) else none

def wholeDigits? : Option (List Char) :=
  if cs.length > 1 && cs.head? == some '0' then none else digits? isAsciiDigit cs

def real? (negative : Bool) (cs : List Char) : Option Scalar := do
  let isMark (c : Char) : Bool := c == 'e' || c == 'E'
  let mantissa := cs.takeWhile (!isMark ·)
  let power := cs.dropWhile (!isMark ·)
  let whole ← wholeDigits? (mantissa.takeWhile (· != '.'))
  let fraction ← match mantissa.dropWhile (· != '.') with
    | [] => some []
    | _ :: rest => digits? isAsciiDigit rest
  let exponent ← match power with
    | [] => some (0 : Int)
    | _ :: rest =>
      let (negative, rest) := Decimal.takeSign rest
      (digits? isAsciiDigit rest).map fun ds =>
        if negative then -(digitsValue ds : Int) else digitsValue ds
  let x := Decimal.nearest ⟨negative, digitsValue (whole ++ fraction), exponent - fraction.length⟩
  if x.isFinite then return .real x else none

def unsigned? (negative : Bool) (cs : List Char) : Option Scalar :=
  match String.ofList cs with
  | "inf" => some (.real (.infinite negative))
  | "nan" => some (.real .nan)
  | _ =>
    if cs.any fun c => c == '.' || c == 'e' || c == 'E' then real? negative cs
    else (wholeDigits? cs).bind fun ds =>
      bounded? (if negative then -(digitsValue ds : Int) else digitsValue ds)

def number? : Option Scalar :=
  match cs with
  | '0' :: 'x' :: rest => (digits? (fun c => (Json.hexValue? c).isSome) rest).bind fun ds => bounded? (valueIn 16 ds)
  | '0' :: 'o' :: rest => (digits? (fun c => '0' ≤ c && c ≤ '7') rest).bind fun ds => bounded? (valueIn 8 ds)
  | '0' :: 'b' :: rest => (digits? (fun c => c == '0' || c == '1') rest).bind fun ds => bounded? (valueIn 2 ds)
  | '-' :: rest => unsigned? true rest
  | '+' :: rest => unsigned? false rest
  | _ => unsigned? false cs

/-! ## Moments -/

def pair? : List Char → Option (Nat × List Char)
  | a :: b :: rest =>
    if isAsciiDigit a && isAsciiDigit b then some (digitsValue [a, b], rest) else none
  | _ => none

def after? (c : Char) : List Char → Option (List Char)
  | d :: rest => if c == d then some rest else none
  | [] => none

def daysIn (year month : Nat) : Nat :=
  if month == 2 then if year % 4 == 0 && (year % 100 != 0 || year % 400 == 0) then 29 else 28
  else if [4, 6, 9, 11].contains month then 30
  else 31

def afterDate? : Option (List Char) := do
  let (century, rest) ← pair? cs
  let (years, rest) ← pair? rest
  let (month, rest) ← pair? (← after? '-' rest)
  let (day, rest) ← pair? (← after? '-' rest)
  if 1 ≤ month && month ≤ 12 && 1 ≤ day && day ≤ daysIn (century * 100 + years) month then return rest
  else none

def afterTime? : Option (List Char) := do
  let (hour, rest) ← pair? cs
  let (minute, rest) ← pair? (← after? ':' rest)
  let (second, rest) ← pair? (← after? ':' rest)
  let rest ← match rest with
    | '.' :: fraction =>
      if fraction.head?.any isAsciiDigit then some (fraction.dropWhile isAsciiDigit) else none
    | _ => some rest
  if hour ≤ 23 && minute ≤ 59 && second ≤ 60 then return rest else none

/-- The rest is nothing, or how far the time is from that of Greenwich. -/
def isOffset : Bool :=
  match cs with
  | [] | ['Z'] | ['z'] => true
  | c :: rest =>
    (c == '+' || c == '-') &&
      match pair? rest with
      | some (hour, ':' :: rest) =>
        match pair? rest with
        | some (minute, []) => hour ≤ 23 && minute ≤ 59
        | _ => false
      | _ => false

def isMoment : Bool :=
  match afterDate? cs with
  | some [] => true
  | some (c :: rest) =>
    (c == 'T' || c == 't' || c == ' ') &&
      match afterTime? rest with
      | some rest => isOffset rest
      | none => false
  | none => afterTime? cs == some []

def word? : Option Scalar :=
  match String.ofList cs with
  | "true" => some (.bool true)
  | "false" => some (.bool false)
  | _ => if isMoment cs then some .moment else number? cs

def endsWord (c : Char) : Bool :=
  isGap c || c == '\n' || c == '\r' || c == ',' || c == ']' || c == '\x7d' || c == '#'

/-- Reads a word; a date may have one space before its time. -/
def readWord? : Option (Scalar × List Char) :=
  let word := cs.takeWhile (!endsWord ·)
  let rest := cs.dropWhile (!endsWord ·)
  let (word, rest) :=
    match rest with
    | ' ' :: more =>
      if afterDate? word == some [] && more.head?.any isAsciiDigit then
        (word ++ ' ' :: more.takeWhile (!endsWord ·), more.dropWhile (!endsWord ·))
      else (word, rest)
    | _ => (word, rest)
  (word? word).map fun s => (s, rest)

end Deadwood.Toml
