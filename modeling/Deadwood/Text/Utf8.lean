/-!
# Bytes and text

The contents of a file are bytes, which may or may not be text in UTF-8.
-/

namespace Deadwood

/-- The contents of a file. -/
abbrev Bytes := List UInt8

namespace Bytes

def ofText (s : String) : Bytes := s.toUTF8.data.toList

def text? (bytes : Bytes) : Option String := String.fromUTF8? ⟨bytes.toArray⟩

def continues (b : UInt8) : Bool := 0x80 ≤ b && b ≤ 0xBF

/-- What a first byte asks for: the bits it gives, the range of the second byte, and the number of
further bytes after the second. -/
def lead? (b : UInt8) : Option (Nat × UInt8 × UInt8 × Nat) :=
  if 0xC2 ≤ b && b ≤ 0xDF then some (b.toNat - 0xC0, 0x80, 0xBF, 0)
  else if b = 0xE0 then some (0, 0xA0, 0xBF, 1)
  else if b = 0xED then some (0xD, 0x80, 0x9F, 1)
  else if 0xE1 ≤ b && b ≤ 0xEF then some (b.toNat - 0xE0, 0x80, 0xBF, 1)
  else if b = 0xF0 then some (0, 0x90, 0xBF, 2)
  else if 0xF1 ≤ b && b ≤ 0xF3 then some (b.toNat - 0xF0, 0x80, 0xBF, 2)
  else if b = 0xF4 then some (4, 0x80, 0x8F, 2)
  else none

/-- Reads the further bytes of a character; `none` if one is missing, which then is not read. -/
def readFurther : (count value : Nat) → Bytes → Option Char × Bytes
  | 0, value, rest => (some (Char.ofNat value), rest)
  | _ + 1, _, [] => (none, [])
  | count + 1, value, b :: rest =>
    if continues b then readFurther count (value * 64 + (b.toNat - 0x80)) rest else (none, b :: rest)

/-- Reads the first character; `none` if the bytes do not start with one. At least one byte is read,
and of a character that is cut off all its bytes. -/
def readFirst (b : UInt8) (rest : Bytes) : Option Char × Bytes :=
  if b < 0x80 then (some (Char.ofNat b.toNat), rest)
  else
    match lead? b, rest with
    | some (value, low, high, count), c :: rest' =>
      if low ≤ c && c ≤ high then readFurther count (value * 64 + (c.toNat - 0x80)) rest'
      else (none, rest)
    | _, _ => (none, rest)

/-- The characters in some bytes; `none` stands for each piece that is not text. -/
def characters : (fuel : Nat) → Bytes → List (Option Char)
  | 0, _ | _, [] => []
  | fuel + 1, b :: rest =>
    let (c, rest) := readFirst b rest
    c :: characters fuel rest

/-- The text in some bytes, where U+FFFD stands for each piece that is not text. -/
def lossyText (bytes : Bytes) : String :=
  String.ofList ((characters bytes.length bytes).map (·.getD '\ufffd'))

end Bytes

end Deadwood
