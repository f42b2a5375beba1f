import Deadwood.Text.Basic

/-!
# Line numbers

Lines are numbered from 1. `LineIndex` holds the offsets at which the lines of a text start and
turns offsets into line numbers and back.
-/

namespace Deadwood.Text

/-- The offset after every line feed of a list of characters that starts at `start`. -/
def lineStartsFrom (start : Nat) : List Char → List Nat
  | [] => []
  | c :: cs =>
    let next := start + c.utf8Size
    if c == '\n' then next :: lineStartsFrom next cs else lineStartsFrom next cs

/-- What a search in ascending numbers says: where the number is, or where it would have to be put in. -/
inductive SearchResult where
  | hit (position : Nat)
  | miss (position : Nat)
deriving Repr, DecidableEq

/-- Halves a range of positions until one is left: the last that holds no number above `target`, unless that is
so of none. The fuel bounds the number of steps. -/
def narrow (numbers : List Nat) (target : Nat) : (fuel base size : Nat) → Nat
  | 0, base, _ => base
  | fuel + 1, base, size =>
    if size ≤ 1 then base
    else
      let middle := base + size / 2
      narrow numbers target fuel (if numbers.getD middle 0 ≤ target then middle else base) (size - size / 2)

/-- Binary search. -/
def search (numbers : List Nat) (target : Nat) : SearchResult :=
  let base := narrow numbers target numbers.length 0 numbers.length
  match numbers[base]? with
  | none => .miss 0
  | some n => if n = target then .hit base else .miss (if n < target then base + 1 else base)

/-- The line that an offset lies on, by the search for it among the line starts. Where no line starts, the offset
would have to be put in behind the start of its line. -/
def SearchResult.line : SearchResult → Nat
  | hit position => position + 1
  | miss position => position

/-- The offsets at which the lines of a text start. -/
structure LineIndex where
  starts : List Nat
deriving Repr

namespace LineIndex

def ofText (s : String) : LineIndex := ⟨0 :: lineStartsFrom 0 s.toList⟩

/-- The line of an offset, found by binary search. -/
def lineOf (index : LineIndex) (offset : Nat) : Nat := (search index.starts offset).line

/-- The offset at which a line starts; a line past the last one counts as the last, line 0 as
line 1. -/
def offsetOf (index : LineIndex) (line : Nat) : Nat :=
  (index.starts[line - 1]?).getD (index.starts.getLast?.getD 0)

end LineIndex

end Deadwood.Text
