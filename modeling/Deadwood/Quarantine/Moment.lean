import Deadwood.Number.Decimal

/-!
# Moments

A moment in universal time, to the nanosecond, and its written forms.
-/

namespace Deadwood

open Text

/-- An instant: a day and the time within it. -/
structure Moment where
  day : Int
  second : Nat
  /-- Nanoseconds within the second; a leap second counts on beyond the second before it. -/
  nano : Nat
deriving Repr, DecidableEq, Inhabited

namespace Moment

/-- A day of the calendar. -/
structure Date where
  year : Int
  month : Nat
  day : Nat
deriving Repr, DecidableEq

/-- The date that lies some days after 1 January 1970. Years are counted from March on, in cycles of
400 years. -/
def dateOf (day : Int) : Date :=
  let z := day + 719468
  let cycle := z / 146097
  let n := (z - cycle * 146097).toNat
  let y := (n - n / 1460 + n / 36524 - n / 146096) / 365
  let dayOfYear := n - (365 * y + y / 4 - y / 100)
  let m := (5 * dayOfYear + 2) / 153
  let month := if m < 10 then m + 3 else m - 9
  ⟨y + cycle * 400 + (if month ≤ 2 then 1 else 0), month, dayOfYear - (153 * m + 2) / 5 + 1⟩

def dayOf (d : Date) : Int :=
  let year := if d.month ≤ 2 then d.year - 1 else d.year
  let cycle := year / 400
  let y := (year - cycle * 400).toNat
  let m := if d.month > 2 then d.month - 3 else d.month + 9
  let dayOfYear := (153 * m + 2) / 5 + d.day - 1
  cycle * 146097 + (y * 365 + y / 4 - y / 100 + dayOfYear : Nat) - 719468

def isLeapYear (year : Int) : Bool := year % 4 == 0 && (year % 100 != 0 || year % 400 == 0)

def daysIn (year : Int) (month : Nat) : Nat :=
  if month == 2 then if isLeapYear year then 29 else 28
  else if [4, 6, 9, 11].contains month then 30 else 31

/-! ## Writing -/

def two (n : Nat) : String := Binary64.paddedNat 2 n

def yearText (year : Int) : String :=
  if 0 ≤ year && year ≤ 9999 then Binary64.paddedNat 4 year.toNat
  else (if year < 0 then "-" else "+") ++ Binary64.paddedNat 4 year.natAbs

def dateText (d : Date) : String := yearText d.year ++ "-" ++ two d.month ++ "-" ++ two d.day

def nanosPerSecond : Nat := 1000000000

variable (m : Moment)

/-- Hours, minutes and seconds, where a leap second is second 60. -/
def clock : Nat × Nat × Nat :=
  (m.second / 3600, m.second / 60 % 60, m.second % 60 + m.nano / nanosPerSecond)

def clockText : String :=
  let (hour, minute, second) := m.clock
  two hour ++ ":" ++ two minute ++ ":" ++ two second

/-- The fraction of a second, in groups of three digits as far as they are needed. -/
def fractionText (nano : Nat) : String :=
  let nano := nano % nanosPerSecond
  if nano == 0 then ""
  else if nano % 1000000 == 0 then "." ++ Binary64.paddedNat 3 (nano / 1000000)
  else if nano % 1000 == 0 then "." ++ Binary64.paddedNat 6 (nano / 1000)
  else "." ++ Binary64.paddedNat 9 nano

def text : String := dateText (dateOf m.day) ++ " " ++ m.clockText

def rfc3339 : String :=
  dateText (dateOf m.day) ++ "T" ++ m.clockText ++ fractionText m.nano ++ "Z"

def stamp : String :=
  let d := dateOf m.day
  let (hour, minute, second) := m.clock
  yearText d.year ++ two d.month ++ two d.day ++ "-" ++ two hour ++ two minute ++ two second ++ "-" ++
    Binary64.paddedNat 3 (m.nano % nanosPerSecond / 1000000)

/-! ## Reading -/

def skipBlanks (cs : List Char) : List Char := cs.dropWhile isBlank

def readNumber? (width : Nat) (cs : List Char) : Option (Nat × List Char) :=
  let cs := skipBlanks cs
  let digits := (cs.take width).takeWhile isAsciiDigit
  if digits.isEmpty then none else some (digitsValue digits, cs.drop digits.length)

def readYear? (cs : List Char) : Option (Int × List Char) :=
  match skipBlanks cs with
  | '-' :: rest =>
    if (rest.headD ' ').isDigit then (readNumber? rest.length rest).map fun (n, rest) => (-n, rest) else none
  | '+' :: rest =>
    if (rest.headD ' ').isDigit then (readNumber? rest.length rest).map fun (n, rest) => (n, rest) else none
  | cs => (readNumber? 4 cs).map fun (n, rest) => (n, rest)

def readMark? (c : Char) (cs : List Char) : Option (List Char) :=
  match skipBlanks cs with
  | d :: rest => if c = d then some rest else none
  | [] => none

/-- Reads a fraction of a second as nanoseconds. Digits after the ninth do not count. -/
def readFraction? : List Char → Option (Nat × List Char)
  | '.' :: cs =>
    let digits := cs.takeWhile isAsciiDigit
    if digits.isEmpty then none
    else
      let nine := digits.take 9
      some (digitsValue nine * Nat.pow 10 (9 - nine.length), cs.drop digits.length)
  | cs => some (0, cs)

def readTwo? : List Char → Option (Nat × List Char)
  | a :: b :: rest =>
    if isAsciiDigit a && isAsciiDigit b then some (digitsValue [a, b], rest) else none
  | _ => none

def readZone? (cs : List Char) : Option (Int × List Char) :=
  let shifted (negative : Bool) (cs : List Char) : Option (Int × List Char) := do
    let (hours, cs) ← readTwo? cs
    let (minutes, cs) ← readTwo? (cs.dropWhile fun c => c == ':' || isBlank c)
    let seconds := hours * 3600 + minutes * 60
    if minutes < 60 && seconds < 86400 then some (if negative then -seconds else seconds, cs) else none
  match cs with
  | 'Z' :: rest | 'z' :: rest => some (0, rest)
  | '+' :: rest => shifted false rest
  | '-' :: rest | '−' :: rest => shifted true rest
  | a :: b :: c :: rest =>
    if [a, b, c].map asciiLower == ['u', 't', 'c'] then some (0, rest) else none
  | _ => none

def yearInRange (year : Int) : Bool := -262143 ≤ year && year ≤ 262142

def ofLocal? (date : Date) (hour minute second nano : Nat) (ahead : Int) : Option Moment :=
  if !yearInRange date.year || date.month < 1 || date.month > 12 || date.day < 1 ||
      date.day > daysIn date.year date.month || hour > 23 || minute > 59 || second > 60 then none
  else
    let (second, nano) := if second == 60 then (59, nano + nanosPerSecond) else (second, nano)
    let total : Int := dayOf date * 86400 + (hour * 3600 + minute * 60 + second : Nat) - ahead
    some ⟨total / 86400, (total % 86400).toNat, nano⟩

/-- The moment in a text with date, time and zone. White space may stand between the parts. -/
def read? (s : String) : Option Moment := do
  let (year, cs) ← readYear? s.toList
  let (month, cs) ← readNumber? 2 (← readMark? '-' cs)
  let (day, cs) ← readNumber? 2 (← readMark? '-' cs)
  let cs ← match cs with
    | 'T' :: rest | 't' :: rest | ' ' :: rest => some rest
    | _ => none
  let (hour, cs) ← readNumber? 2 cs
  let (minute, cs) ← readNumber? 2 (← readMark? ':' cs)
  let (second, cs) ← readNumber? 2 (← readMark? ':' cs)
  let (nano, cs) ← readFraction? cs
  let (ahead, cs) ← readZone? (skipBlanks cs)
  if (skipBlanks cs).isEmpty then ofLocal? ⟨year, month, day⟩ hour minute second nano ahead else none

end Moment

end Deadwood
