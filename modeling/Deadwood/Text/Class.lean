import Deadwood.Text.Table

/-!
# Character classes

The classes that the readers of source text use. All of them cover every script, not only the
ASCII characters.
-/

namespace Deadwood.Text

open Table

variable (c : Char)

def isBlank : Bool :=
  let n := c.toNat
  (9 ≤ n && n ≤ 13) || n == 32 || n == 0x85 || n == 0xa0 || n == 0x1680 ||
    (0x2000 ≤ n && n ≤ 0x200a) || n == 0x2028 || n == 0x2029 || n == 0x202f || n == 0x205f ||
    n == 0x3000

def isAsciiDigit : Bool := '0' ≤ c && c ≤ '9'

def isAsciiUpper : Bool := 'A' ≤ c && c ≤ 'Z'

def isAsciiLower : Bool := 'a' ≤ c && c ≤ 'z'

def isAsciiAlphanumeric : Bool := isAsciiDigit c || isAsciiUpper c || isAsciiLower c

def isDecimal : Bool :=
  if c.toNat < 128 then isAsciiDigit c else holdsAt decimals c.toNat

def isAlphanumeric : Bool :=
  let n := c.toNat
  if n < 128 then isAsciiAlphanumeric c
  else holdsAt alphabetic n || holdsAt decimals n || holdsAt otherNumbers n

def isConnector : Bool :=
  let n := c.toNat
  n == 0x5f || n == 0x203f || n == 0x2040 || n == 0x2054 || n == 0xfe33 || n == 0xfe34 ||
    (0xfe4d ≤ n && n ≤ 0xfe4f) || n == 0xff3f

def isWord : Bool :=
  let n := c.toNat
  if n < 128 then isAsciiAlphanumeric c || c == '_'
  else holdsAt alphabetic n || holdsAt marks n || holdsAt decimals n || isConnector c ||
    n == 0x200c || n == 0x200d

def isUpper : Bool :=
  let n := c.toNat
  if n < 128 then isAsciiUpper c
  else holdsAt capitals n || alternating.any fun (first, last) => first ≤ n && n ≤ last && (n - first) % 2 == 0

def asciiLower : Char := if isAsciiUpper c then Char.ofNat (c.toNat + 32) else c

/-- The characters a letter of a case-insensitive pattern stands for. Two characters outside ASCII
fold to an ASCII letter: the long s and the Kelvin sign. -/
def caseVariants : List Char :=
  if isAsciiUpper c || isAsciiLower c then
    let small := asciiLower c
    let extra :=
      if small == 's' then [Char.ofNat 0x17f] else if small == 'k' then [Char.ofNat 0x212a] else []
    small :: Char.ofNat (small.toNat - 32) :: extra
  else [c]

/-- A name in small letters. Names are only compared with ASCII names, so beyond ASCII the two
capitals matter whose small form has an ASCII letter: the Kelvin sign and the dotted I. -/
def lowerName (s : String) : String :=
  String.ofList <| s.toList.flatMap fun c =>
    if c.toNat == 0x212a then ['k']
    else if c.toNat == 0x130 then ['i', Char.ofNat 0x307]
    else [asciiLower c]

end Deadwood.Text
