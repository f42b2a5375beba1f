import Deadwood.Text.Basic

/-!
# Patterns

A pattern describes pieces of text. `Pattern` is its form, `Cursor` a place in a text, with the
character before it at hand because an anchor may look at it.
-/

namespace Deadwood

open Text

/-- A member of a character class. -/
inductive ClassItem where
  | range (first last : Char)
  | word
  | blank
  | decimal
deriving Repr, DecidableEq

def ClassItem.holds : ClassItem → Char → Bool
  | range first last, c => first ≤ c && c ≤ last
  | word, c => isWord c
  | blank, c => isBlank c
  | decimal, c => isDecimal c

/-- A set of characters: those of some item, or those of none. -/
structure CharClass where
  negated : Bool
  items : List ClassItem
deriving Repr, DecidableEq

def CharClass.holds (s : CharClass) (c : Char) : Bool := (s.items.any (·.holds c)) != s.negated

/-- A test of the place between two characters. -/
inductive Anchor where
  | textStart
  | textEnd
  | lineStart
  | lineEnd
  | wordEdge
deriving Repr, DecidableEq

/-- A regular expression with groups. -/
inductive Pattern where
  | empty
  | never
  | one (set : CharClass)
  | look (anchor : Anchor)
  | seq (first second : Pattern)
  | alt (first second : Pattern)
  /-- Any number of repetitions, preferably many if `greedy`, else preferably few. -/
  | star (greedy : Bool) (body : Pattern)
  | group (number : Nat) (body : Pattern)
deriving Repr, DecidableEq

/-- A place in a text: its offset, the character before and the rest. -/
structure Cursor where
  offset : Nat
  before : Option Char
  rest : List Char

namespace Cursor

def start (s : String) : Cursor := ⟨0, none, s.toList⟩

def next? (here : Cursor) : Option Cursor :=
  match here.rest with
  | [] => none
  | c :: cs => some ⟨here.offset + c.utf8Size, some c, cs⟩

def textTo (here : Cursor) (stop : Nat) : String :=
  String.ofList (take here.offset here.rest)
where
  take (offset : Nat) : List Char → List Char
    | [] => []
    | c :: cs => if offset < stop then c :: take (offset + c.utf8Size) cs else []

end Cursor

def Anchor.holds (a : Anchor) (here : Cursor) : Bool :=
  match a with
  | textStart => here.before.isNone
  | textEnd => here.rest.isEmpty
  | lineStart => here.before.isNone || here.before == some '\n'
  | lineEnd => here.rest.isEmpty || here.rest.head? == some '\n'
  | wordEdge => here.before.any isWord != here.rest.head?.any isWord

end Deadwood
