import Deadwood.Pattern.Basic

/-!
# Matching patterns

`Pattern.ends` lists the places where a pattern that starts at a given place can end, the preferred
one first, and each place once. Preference is that of a search that tries choices in order and
never takes one back unless what follows fails; because what follows depends on the place only, the
first way to reach a place is the only one that counts.
-/

namespace Deadwood

/-- What a group took. -/
structure Capture where
  number : Nat
  start : Cursor
  stop : Nat

/-- A place where a pattern can end, and what its groups remember, the latest first. -/
structure Hit where
  place : Cursor
  captures : List Capture

/-- Adds an offset to a descending list of offsets, unless it is there. -/
def mark? (n : Nat) : List Nat → Option (List Nat)
  | [] => some [n]
  | m :: ms => if m < n then some (n :: m :: ms) else if m = n then none else (mark? n ms).map (m :: ·)

def firstHits (seen : List Nat) : List Hit → List Hit
  | [] => []
  | h :: hs =>
    match mark? h.place.offset seen with
    | some seen => h :: firstHits seen hs
    | none => firstHits seen hs

/-- Adds to some hits, the latest first, those of a repetition of `step` that starts at `hit`, and
the offsets seen. A repetition has to move on, so it takes one of the characters that are `left`,
and no place is left twice. -/
def starHits (step : Cursor → List Hit) (greedy : Bool) :
    (left : List Char) → Hit → List Hit × List Nat → List Hit × List Nat
  | [], hit, (hits, seen) =>
    match mark? hit.place.offset seen with
    | none => (hits, seen)
    | some seen => (hit :: hits, seen)
  | _ :: left, hit, (hits, seen) =>
    match mark? hit.place.offset seen with
    | none => (hits, seen)
    | some seen =>
      let goOn (found : List Hit × List Nat) : List Hit × List Nat :=
        ((step hit.place).filter (hit.place.offset < ·.place.offset)).foldl (fun found next =>
          starHits step greedy left ⟨next.place, next.captures ++ hit.captures⟩ found) found
      if greedy then
        let (hits, seen) := goOn (hits, seen)
        (hit :: hits, seen)
      else goOn (hit :: hits, seen)

namespace Pattern

/-- The places where the pattern can end when it starts at `here`, preferred first, each once. -/
def ends : Pattern → Cursor → List Hit
  | empty, here => [⟨here, []⟩]
  | never, _ => []
  | one set, here =>
    match here.rest with
    | [] => []
    | c :: cs => if set.holds c then [⟨⟨here.offset + c.utf8Size, some c, cs⟩, []⟩] else []
  | look anchor, here => if anchor.holds here then [⟨here, []⟩] else []
  | seq first second, here =>
    match ends first here with
    | [] => []
    | [hit] => (ends second hit.place).map fun h => ⟨h.place, h.captures ++ hit.captures⟩
    | hits => firstHits [] <| hits.flatMap fun hit =>
        (ends second hit.place).map fun h => ⟨h.place, h.captures ++ hit.captures⟩
  | alt first second, here =>
    match ends first here with
    | [] => ends second here
    | hits => firstHits [] (hits ++ ends second here)
  | star greedy body, here =>
    (starHits (ends body) greedy here.rest ⟨here, []⟩ ([], [])).1.reverse
  | group number body, here =>
    (ends body here).map fun h => ⟨h.place, ⟨number, here, h.place.offset⟩ :: h.captures⟩

end Pattern

/-- A piece of the text. -/
structure Span where
  start : Nat
  stop : Nat
  text : String
deriving Repr, DecidableEq

/-- A match with its groups. -/
structure Match where
  whole : Span
  groups : List (Nat × Span)
deriving Repr, DecidableEq

namespace Match

def start (m : Match) : Nat := m.whole.start

def stop (m : Match) : Nat := m.whole.stop

def group? (m : Match) (number : Nat) : Option Span := m.groups.lookup number

def groupText (m : Match) (number : Nat) : String := ((m.group? number).map (·.text)).getD ""

def hasGroup (m : Match) (number : Nat) : Bool := (m.group? number).isSome

def ofHit (from_ : Cursor) (hit : Hit) : Match where
  whole := ⟨from_.offset, hit.place.offset, from_.textTo hit.place.offset⟩
  groups := hit.captures.map fun c => (c.number, ⟨c.start.offset, c.stop, c.start.textTo c.stop⟩)

end Match

namespace Pattern

/-- The first place where the pattern matches among those from an offset on, before the characters
that follow it, and the preferred hit there. -/
def seekFrom (p : Pattern) (offset : Nat) (before : Option Char) :
    (rest : List Char) → Option (Cursor × Hit)
  | [] =>
    match ends p ⟨offset, before, []⟩ with
    | hit :: _ => some (⟨offset, before, []⟩, hit)
    | [] => none
  | c :: cs =>
    match ends p ⟨offset, before, c :: cs⟩ with
    | hit :: _ => some (⟨offset, before, c :: cs⟩, hit)
    | [] => seekFrom p (offset + c.utf8Size) (some c) cs

variable (p : Pattern)

def seek (here : Cursor) : Option (Cursor × Hit) :=
  seekFrom p here.offset here.before here.rest

/-- The matches from a place on. After an empty match the search goes on one character later. -/
def findFrom (p : Pattern) : (fuel : Nat) → Cursor → List Match
  | 0, _ => []
  | fuel + 1, here =>
    match seek p here with
    | none => []
    | some (from_, hit) =>
      let m := Match.ofHit from_ hit
      if from_.offset < hit.place.offset then m :: findFrom p fuel hit.place
      else
        match hit.place.next? with
        | some next => m :: findFrom p fuel next
        | none => [m]

/-- The matches from left to right, none overlapping. -/
def findAll (s : String) : List Match :=
  findFrom p (s.length + 1) (Cursor.start s)

def find? (s : String) : Option Match :=
  (seek p (Cursor.start s)).map fun (from_, hit) => Match.ofHit from_ hit

def occursIn (s : String) : Bool := (p.find? s).isSome

end Pattern

end Deadwood
