import Deadwood.Text.Basic

/-!
# What stops a reader

A reader computes offsets and line numbers and takes pieces of text by them. `Fault` says what can be
wrong with such a number. The operations here are the only ones that can stop a reader.
-/

namespace Deadwood

/-- How a reader breaks off. -/
inductive Fault where
  /-- A piece of text would start or end within a character, or beyond the text. -/
  | cutInsideCharacter
  | noSuchLine
  | belowZero
deriving Repr, DecidableEq

def Fault.message : Fault → String
  | cutInsideCharacter | noSuchLine | belowZero => "parser panicked"

def minus (a b : Nat) : Except Fault Nat := if b ≤ a then .ok (a - b) else .error .belowZero

def textFrom (text : String) (start : Nat) : Except Fault String :=
  match Text.from? text start with
  | some rest => .ok rest
  | none => .error .cutInsideCharacter

def textBetween (text : String) (start stop : Nat) : Except Fault String :=
  match Text.cut? text start stop with
  | some part => .ok part
  | none => .error .cutInsideCharacter

def bytesOfLines (lines : List String) (first last : Nat) : Except Fault Nat :=
  if first ≤ last + 1 && last < lines.length then
    .ok (((lines.drop first).take (last + 1 - first)).foldl (fun n line => n + line.utf8ByteSize + 1) 0)
  else .error .noSuchLine

end Deadwood
