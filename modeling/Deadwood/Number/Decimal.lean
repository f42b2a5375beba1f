import Deadwood.Number.Binary64
import Deadwood.Text.Basic

/-!
# Decimal notation

Reading and writing numbers in decimal notation.
-/

namespace Deadwood

open Text

def digitValue (c : Char) : Nat := c.toNat - '0'.toNat

def digitsValue (digits : List Char) : Nat := digits.foldl (fun n c => 10 * n + digitValue c) 0

/-- A decimal as written. -/
structure Decimal where
  negative : Bool
  mantissa : Nat
  exponent : Int
deriving Repr, DecidableEq

namespace Decimal

/-- The binary number nearest to a decimal one. Beyond the range of binary numbers the power is not
computed. -/
def nearest (d : Decimal) : Binary64 :=
  let digits : Int := (Nat.toDigits 10 d.mantissa).length
  if d.mantissa = 0 || d.exponent + digits < -400 then .finite d.negative 0 (-1074)
  else if d.exponent + digits > 400 then .infinite d.negative
  else if d.exponent < 0 then .ofRatio d.negative d.mantissa (Nat.pow 10 d.exponent.natAbs)
  else .ofRatio d.negative (d.mantissa * Nat.pow 10 d.exponent.natAbs) 1

def takeSign : List Char → Bool × List Char
  | '-' :: rest => (true, rest)
  | '+' :: rest => (false, rest)
  | cs => (false, cs)

def readExponent? (cs : List Char) : Option Int :=
  match cs with
  | [] => some 0
  | c :: rest =>
    if c = 'e' || c = 'E' then
      let (negative, digits) := takeSign rest
      if digits.isEmpty || !digits.all isAsciiDigit then none
      else some (if negative then -(digitsValue digits : Int) else digitsValue digits)
    else none

/-- Reads a decimal number: digits with a point among, before or after them, and an exponent. -/
def read? (s : String) : Option Decimal := do
  let (negative, cs) := takeSign s.toList
  let whole := cs.takeWhile isAsciiDigit
  let rest := cs.dropWhile isAsciiDigit
  let (fraction, rest) := match rest with
    | '.' :: rest => (rest.takeWhile isAsciiDigit, rest.dropWhile isAsciiDigit)
    | _ => ([], rest)
  if whole.isEmpty && fraction.isEmpty then none
  else
    let exponent ← readExponent? rest
    return ⟨negative, digitsValue (whole ++ fraction), exponent - fraction.length⟩

end Decimal

namespace Binary64

def read? (s : String) : Option Binary64 :=
  match Decimal.read? s with
  | some d => some d.nearest
  | none =>
    let (negative, name) := Decimal.takeSign s.toList
    match String.ofList (name.map asciiLower) with
    | "inf" | "infinity" => some (infinite negative)
    | "nan" => some nan
    | _ => none

def sign (negative : Bool) : String := if negative then "-" else ""

def infinityName (negative : Bool) : String := sign negative ++ "inf"

def paddedNat (width n : Nat) : String :=
  let digits := Nat.toDigits 10 n
  String.ofList (List.replicate (width - digits.length) '0' ++ digits)

/-- The number with a given number of places, at least one, a half to the even digit. -/
def fixed (places : Nat) : Binary64 → String
  | nan => "NaN"
  | infinite negative => infinityName negative
  | finite negative m e =>
    let (num, den) := ratio m e
    let n := roundDiv (num * Nat.pow 10 places) den
    sign negative ++ paddedNat 1 (n / Nat.pow 10 places) ++ "." ++ paddedNat places (n % Nat.pow 10 places)

/-- Number of digits before the point of a quotient; zero or negative if it is less than one tenth. -/
def pointOf (num den : Nat) : (fuel : Nat) → Int
  | 0 => 0
  | fuel + 1 =>
    if num ≥ den then (Nat.toDigits 10 (num / den)).length else pointOf (10 * num) den fuel - 1

/-- The digits of a number: `0.d₁d₂… · 10^point`. -/
structure Digits where
  digits : List Char
  /-- Position of the point, counted from before the first digit. -/
  point : Int

def dropZeros (digits : List Char) : List Char :=
  match dropWhileEnd (· == '0') digits with
  | [] => ['0']
  | kept => kept

/-- Tries to write a quotient with `n` digits: of the two neighbours on that grid, those that lie
between `low` and `high`, and of these the nearer. All four are quotients with denominator `den`. -/
def digitsOn? (num low high den : Nat) (closed : Bool) (point : Int) (n : Nat) : Option Nat :=
  let e := point - n
  -- the grid is 10^e; `up` and `down` scale the quotients to it
  let (up, down) : Nat × Nat := if e < 0 then (Nat.pow 10 e.natAbs, 1) else (1, Nat.pow 10 e.natAbs)
  let below := num * up / (den * down)
  let within (k : Nat) : Bool :=
    let x := k * den * down
    if closed then low * up ≤ x && x ≤ high * up else low * up < x && x < high * up
  let nearBelow := 2 * (num * up) ≤ (2 * below + 1) * (den * down)
  match within below, within (below + 1) with
  | true, true => some (if nearBelow then below else below + 1)
  | true, false => some below
  | false, true => some (below + 1)
  | false, false => none

/-- The fewest digits that read back as the number `m · 2^e`. -/
def shortest (m : Nat) (e : Int) : Digits :=
  if m = 0 then ⟨['0'], 1⟩
  else
    -- in quarters of the last place
    let lower := if m = Nat.pow 2 52 && e > -1074 then 4 * m - 1 else 4 * m - 2
    let (num, den) := ratio (4 * m) (e - 2)
    let (low, _) := ratio lower (e - 2)
    let (high, _) := ratio (4 * m + 2) (e - 2)
    let point := pointOf num den 400
    let found := (List.range 17).findSome? fun n =>
      (digitsOn? num low high den (m % 2 == 0) point (n + 1)).map fun k => (n + 1, k)
    match found with
    | none => ⟨['0'], 1⟩
    | some (n, k) =>
      let digits := Nat.toDigits 10 k
      ⟨dropZeros digits, point + digits.length - n⟩

/-- Digits with the point among them and no power of ten; `whole` is added to whole numbers. -/
def Digits.positional (d : Digits) (whole : String) : String :=
  let n := d.digits.length
  if d.point ≤ 0 then "0." ++ String.ofList (List.replicate d.point.natAbs '0' ++ d.digits)
  else if d.point.natAbs ≥ n then
    String.ofList (d.digits ++ List.replicate (d.point.natAbs - n) '0') ++ whole
  else String.ofList (d.digits.take d.point.natAbs) ++ "." ++ String.ofList (d.digits.drop d.point.natAbs)

def Digits.scientific (d : Digits) : String :=
  let fraction := d.digits.drop 1
  String.ofList (d.digits.take 1) ++ (if fraction.isEmpty then "" else "." ++ String.ofList fraction) ++
    "e" ++ toString (d.point - 1)

def positional : Binary64 → String
  | nan => "NaN"
  | infinite negative => infinityName negative
  | finite negative m e => sign negative ++ (shortest m e).positional ""

/-- A finite number with the fewest digits and a point; very large and very small numbers with a
power of ten. -/
def scientific? : Binary64 → Option String
  | finite negative m e =>
    let d := shortest m e
    some (sign negative ++ (if -5 < d.point && d.point ≤ 16 then d.positional ".0" else d.scientific))
  | _ => none

end Binary64

end Deadwood
