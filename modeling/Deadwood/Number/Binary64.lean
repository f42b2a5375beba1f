/-!
# Binary floating point

Numbers of 64 bits: `m · 2^e` with a mantissa below `2^53` and an exponent from -1074 on, the two
infinities, and "not a number". Every operation is the exact result rounded once, to the nearest
number, a half to the even mantissa.
-/

namespace Deadwood

/-- A quotient rounded to the nearest natural number, a half to the even one. -/
def roundDiv (num den : Nat) : Nat :=
  let (q, r) := (num / den, num % den)
  if 2 * r > den || (2 * r == den && q % 2 == 1) then q + 1 else q

/-- A double: `±m·2^e`, infinite or not a number. -/
inductive Binary64 where
  | finite (negative : Bool) (mantissa : Nat) (exponent : Int)
  | infinite (negative : Bool)
  | nan
deriving Repr, DecidableEq, Inhabited

namespace Binary64

def zero : Binary64 := finite false 0 (-1074)

def scaled (num den : Nat) (e : Int) : Nat :=
  if e < 0 then roundDiv (num * Nat.pow 2 e.natAbs) den else roundDiv num (den * Nat.pow 2 e.natAbs)

/-- The smallest exponent at which a quotient has a mantissa below `2^53`. -/
def exponentOf (num den : Nat) : Int :=
  let low : Int := (num.log2 : Int) - (den.log2 : Int) - 53
  let fits (e : Int) : Bool :=
    if e < 0 then num * Nat.pow 2 e.natAbs < Nat.pow 2 53 * den
    else num < Nat.pow 2 53 * (den * Nat.pow 2 e.natAbs)
  max (-1074) (if fits low then low else low + 1)

def ofRatio (negative : Bool) (num den : Nat) : Binary64 :=
  if num = 0 then finite negative 0 (-1074)
  else
    let e := exponentOf num den
    let m := scaled num den e
    let (m, e) := if m = Nat.pow 2 53 then (Nat.pow 2 52, e + 1) else (m, e)
    if e > 971 then infinite negative else finite negative m e

def ofNat (n : Nat) : Binary64 := ofRatio false n 1

def ratio (m : Nat) (e : Int) : Nat × Nat :=
  if e < 0 then (m, Nat.pow 2 e.natAbs) else (m * Nat.pow 2 e.natAbs, 1)

def mul : Binary64 → Binary64 → Binary64
  | nan, _ | _, nan => nan
  | infinite s, infinite t => infinite (s != t)
  | infinite s, finite t m _ | finite t m _, infinite s => if m = 0 then nan else infinite (s != t)
  | finite s m e, finite t n f =>
    let (a, b) := ratio m e
    let (c, d) := ratio n f
    ofRatio (s != t) (a * c) (b * d)

def div : Binary64 → Binary64 → Binary64
  | nan, _ | _, nan => nan
  | infinite _, infinite _ => nan
  | infinite s, finite t _ _ => infinite (s != t)
  | finite s _ _, infinite t => finite (s != t) 0 (-1074)
  | finite s m e, finite t n f =>
    if n = 0 then if m = 0 then nan else infinite (s != t)
    else
      let (a, b) := ratio m e
      let (c, d) := ratio n f
      ofRatio (s != t) (a * d) (b * c)

/-- The nearest whole number, a half away from zero. -/
def round : Binary64 → Binary64
  | finite s m e =>
    let (a, b) := ratio m e
    ofRatio s ((2 * a + b) / (2 * b)) 1
  | x => x

def magnitudeLt (m : Nat) (e : Int) (n : Nat) (f : Int) : Bool :=
  let (a, b) := ratio m e
  let (c, d) := ratio n f
  a * d < c * b

/-- The first number is less than the second; nothing is less or more than what is not a number. -/
def lt : Binary64 → Binary64 → Bool
  | nan, _ | _, nan => false
  | infinite s, infinite t => s && !t
  | infinite s, finite _ _ _ => s
  | finite _ _ _, infinite t => !t
  | finite s m e, finite t n f =>
    match s, t with
    | false, false => magnitudeLt m e n f
    | true, true => magnitudeLt n f m e
    | true, false => m != 0 || n != 0
    | false, true => false

def isFinite : Binary64 → Bool
  | finite _ _ _ => true
  | _ => false

def neg : Binary64 → Binary64
  | finite s m e => finite (!s) m e
  | infinite s => infinite (!s)
  | nan => nan

end Binary64

end Deadwood
