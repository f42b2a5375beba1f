import Deadwood.Text.Class

/-!
# Cutting text

Text is a `String`; positions in it are byte offsets of its UTF-8 form. The operations work on the
list of characters, so that each is a short recursion.
-/

namespace Deadwood.Text

open String (ofList)

def byteLength : List Char → Nat
  | [] => 0
  | c :: cs => c.utf8Size + byteLength cs

/-! ## Trimming -/

variable (p : Char → Bool)

def dropWhileEnd (cs : List Char) : List Char :=
  (cs.reverse.dropWhile p).reverse

variable (s : String)

def trimWhere : String :=
  ofList (dropWhileEnd p (s.toList.dropWhile p))

def trimStartWhere : String := ofList (s.toList.dropWhile p)

def trimEndWhere : String := ofList (dropWhileEnd p s.toList)

def trim : String := trimWhere isBlank s

def trimStart : String := trimStartWhere isBlank s

def trimEnd : String := trimEndWhere isBlank s

/-! ## Starts, ends and parts -/

def startsWith (s head : String) : Bool := head.toList.isPrefixOf s.toList

def endsWith (s tail : String) : Bool := tail.toList.isSuffixOf s.toList

def afterHead? : (head cs : List Char) → Option (List Char)
  | [], cs => some cs
  | _ :: _, [] => none
  | h :: hs, c :: cs => if h = c then afterHead? hs cs else none

def dropHead? (s head : String) : Option String := (afterHead? head.toList s.toList).map ofList

def dropTail? (s tail : String) : Option String :=
  (afterHead? tail.toList.reverse s.toList.reverse).map fun r => ofList r.reverse

/-- Drops `tail` from the end as often as it stands there. -/
def dropTails (tail : List Char) : (fuel : Nat) → List Char → List Char
  | 0, cs => cs
  | fuel + 1, cs =>
    match afterHead? tail cs with
    | some rest => if tail.isEmpty then cs else dropTails tail fuel rest
    | none => cs

def trimEndText (s tail : String) : String :=
  ofList (dropTails tail.toList.reverse s.length s.toList.reverse).reverse

def breakAt? (needle : List Char) : List Char → Option (List Char × List Char)
  | [] => if needle.isEmpty then some ([], []) else none
  | c :: cs =>
    match afterHead? needle (c :: cs) with
    | some rest => some ([], rest)
    | none => (breakAt? needle cs).map fun (before, after) => (c :: before, after)

def splitOnce? (s sep : String) : Option (String × String) :=
  (breakAt? sep.toList s.toList).map fun (a, b) => (ofList a, ofList b)

def splitLast? (s sep : String) : Option (String × String) :=
  (breakAt? sep.toList.reverse s.toList.reverse).map fun (b, a) =>
    (ofList a.reverse, ofList b.reverse)

def find? (s needle : String) : Option Nat :=
  (breakAt? needle.toList s.toList).map fun (before, _) => byteLength before

/-- Byte offset of the first character that satisfies `p`, in a list that starts at `offset`. -/
def findWhereFrom? (p : Char → Bool) (offset : Nat) : List Char → Option Nat
  | [] => none
  | c :: cs => if p c then some offset else findWhereFrom? p (offset + c.utf8Size) cs

def findWhere? : Option Nat := findWhereFrom? p 0 s.toList

def findLastWhereFrom? (p : Char → Bool) (offset : Nat) : List Char → Option Nat
  | [] => none
  | c :: cs => findLastWhereFrom? p (offset + c.utf8Size) cs <|> if p c then some offset else none

def findLastWhere? : Option Nat := findLastWhereFrom? p 0 s.toList

def contains (s needle : String) : Bool := (breakAt? needle.toList s.toList).isSome

def containsChar (c : Char) : Bool := s.toList.contains c

def replaceList (needle new : List Char) : (fuel : Nat) → List Char → List Char
  | 0, cs => cs
  | fuel + 1, cs =>
    match breakAt? needle cs with
    | some (before, after) => before ++ new ++ replaceList needle new fuel after
    | none => cs

/-- Puts `new` in the place of every `needle`; an empty `needle` is nowhere. -/
def replace (s needle new : String) : String :=
  if needle.isEmpty then s
  else ofList (replaceList needle.toList new.toList s.length s.toList)

/-! ## Splitting -/

/-- Cuts a list at every character that satisfies `p`; the pieces do not hold it. -/
def splitList (p : Char → Bool) : List Char → List (List Char)
  | [] => [[]]
  | c :: cs =>
    match splitList p cs with
    | [] => [[]]
    | piece :: pieces => if p c then [] :: piece :: pieces else (c :: piece) :: pieces

def splitWhere : List String := (splitList p s.toList).map ofList

def splitAt (c : Char) (s : String) : List String := splitWhere (· == c) s

def words : List String := (splitWhere isBlank s).filter (!·.isEmpty)

/-- Cuts after every line feed, which stays at the end of its piece. The last piece may lack it,
and is not empty. -/
def splitAfterFeeds : List Char → List (List Char)
  | [] => []
  | c :: cs =>
    if c == '\n' then [c] :: splitAfterFeeds cs
    else
      match splitAfterFeeds cs with
      | [] => [[c]]
      | piece :: pieces => (c :: piece) :: pieces

/-- A line without its end: a line feed, with the carriage return before it if there is one. -/
def dropLineEnd (line : List Char) : List Char :=
  match line.reverse with
  | '\n' :: '\r' :: rest => rest.reverse
  | '\n' :: rest => rest.reverse
  | _ => line

def rawLines : List String := (splitAfterFeeds s.toList).map ofList

/-- The lines of a text without their ends. A text that ends in a line feed has no line after
it. -/
def lines : List String :=
  (splitAfterFeeds s.toList).map fun line => ofList (dropLineEnd line)

def join (sep : String) : List String → String
  | [] => ""
  | [s] => s
  | s :: rest => s ++ sep ++ join sep rest

/-! ## Offsets -/

def dropBytes? : (n : Nat) → List Char → Option (List Char)
  | 0, cs => some cs
  | _ + 1, [] => none
  | n + 1, c :: cs => if c.utf8Size ≤ n + 1 then dropBytes? (n + 1 - c.utf8Size) cs else none

def takeBytes? : (n : Nat) → List Char → Option (List Char)
  | 0, _ => some []
  | _ + 1, [] => none
  | n + 1, c :: cs =>
    if c.utf8Size ≤ n + 1 then (takeBytes? (n + 1 - c.utf8Size) cs).map (c :: ·) else none

def from? (start : Nat) : Option String :=
  (dropBytes? start s.toList).map ofList

/-- The text between two offsets, if they are in order and lie between characters. -/
def cut? (start stop : Nat) : Option String :=
  if start ≤ stop then do
    let rest ← dropBytes? start s.toList
    let part ← takeBytes? (stop - start) rest
    return ofList part
  else none

def feeds : Nat := s.toList.countP (· == '\n')

end Deadwood.Text
