import Deadwood.Data.Yaml.Token

/-!
# YAML

Nodes of the YAML format, read from a text.
-/

namespace Deadwood.Yaml

/-- A YAML value. -/
inductive Node where
  | scalar (plain : Bool) (text : String)
  | sequence (items : List Node)
  | mapping (pairs : List (Node × Node))
deriving Repr, Inhabited

def Node.blank : Node := .scalar true ""

/-- The nodes named so far. -/
abbrev Anchors := List (String × Node)

/-- What a reader leaves: a value, the anchors and the rest. -/
abbrev Read (α : Type) := Option (α × Anchors × List Token)

variable (node : Anchors → List Token → Read Node)

/-- Reads a node, unless the next token is one of `enders`: then nothing is written. -/
def nodeUnless (enders : List Token) (names : Anchors) (ts : List Token) : Read Node :=
  match ts with
  | [] => some (.blank, names, [])
  | t :: _ => if enders.contains t then some (.blank, names, ts) else node names ts

def readEntries (node : Anchors → List Token → Read Node) (indented : Bool) :
    (fuel : Nat) → (items : List Node) → Anchors → List Token → Read (List Node)
  | 0, _, _, _ => none
  | fuel + 1, items, names, ts =>
    match ts with
    | .blockEntry :: rest =>
      let enders := if indented then [.blockEntry, .blockEnd] else [.blockEntry, .key, .value, .blockEnd]
      match nodeUnless node enders names rest with
      | none => none
      | some (item, names, rest) => readEntries node indented fuel (item :: items) names rest
    | .blockEnd :: rest => if indented then some (items.reverse, names, rest) else some (items.reverse, names, ts)
    | _ => if indented then none else some (items.reverse, names, ts)

def readMappedValue (enders : List Token) (names : Anchors) (ts : List Token) : Read Node :=
  match ts with
  | .value :: rest => nodeUnless node enders names rest
  | _ => some (.blank, names, ts)

def readPairs (node : Anchors → List Token → Read Node) :
    (fuel : Nat) → (pairs : List (Node × Node)) → Anchors → List Token → Read (List (Node × Node))
  | 0, _, _, _ => none
  | fuel + 1, pairs, names, ts =>
    let enders := [Token.key, .value, .blockEnd]
    match ts with
    | .key :: rest =>
      match nodeUnless node enders names rest with
      | none => none
      | some (key, names, rest) =>
        match readMappedValue node enders names rest with
        | none => none
        | some (value, names, rest) => readPairs node fuel ((key, value) :: pairs) names rest
    | .blockEnd :: rest => some (pairs.reverse, names, rest)
    | _ => none

def readFlowItem (names : Anchors) (ts : List Token) :
    Read Node :=
  match ts with
  | .key :: rest =>
    match nodeUnless node [.value, .flowEntry, .flowSequenceEnd] names rest with
    | none => none
    | some (key, names, rest) =>
      (readMappedValue node [.flowEntry, .flowSequenceEnd] names rest).map fun (value, names, rest) =>
        (.mapping [(key, value)], names, rest)
  | _ => node names ts

def readFlowItems (node : Anchors → List Token → Read Node) :
    (fuel : Nat) → (items : List Node) → Anchors → List Token → Read (List Node)
  | 0, _, _, _ => none
  | fuel + 1, items, names, ts =>
    match ts with
    | .flowSequenceEnd :: rest => some (items.reverse, names, rest)
    | _ =>
      match readFlowItem node names ts with
      | none => none
      | some (item, names, .flowEntry :: rest) => readFlowItems node fuel (item :: items) names rest
      | some (item, names, .flowSequenceEnd :: rest) => some ((item :: items).reverse, names, rest)
      | some _ => none

def readFlowPair (names : Anchors) (ts : List Token) :
    Read (Node × Node) :=
  match ts with
  | .key :: rest =>
    match nodeUnless node [.value, .flowEntry, .flowMappingEnd] names rest with
    | none => none
    | some (key, names, rest) =>
      (readMappedValue node [.flowEntry, .flowMappingEnd] names rest).map fun (value, names, rest) =>
        ((key, value), names, rest)
  | _ => (node names ts).map fun (key, names, rest) => ((key, .blank), names, rest)

def readFlowPairs (node : Anchors → List Token → Read Node) :
    (fuel : Nat) → (pairs : List (Node × Node)) → Anchors → List Token → Read (List (Node × Node))
  | 0, _, _, _ => none
  | fuel + 1, pairs, names, ts =>
    match ts with
    | .flowMappingEnd :: rest => some (pairs.reverse, names, rest)
    | _ =>
      match readFlowPair node names ts with
      | none => none
      | some (pair, names, .flowEntry :: rest) => readFlowPairs node fuel (pair :: pairs) names rest
      | some (pair, names, .flowMappingEnd :: rest) => some ((pair :: pairs).reverse, names, rest)
      | some _ => none

def takeProperties : List Token → Option String × Bool × List Token
  | .anchor name :: .tag :: rest => (some name, true, rest)
  | .tag :: .anchor name :: rest => (some name, true, rest)
  | .anchor name :: rest => (some name, true, rest)
  | .tag :: rest => (none, true, rest)
  | ts => (none, false, ts)

/-- Reads a node that starts here. A sequence need not be indented more than the key it belongs to.
Nodes nest at most as deep as `depth`. -/
def readNode : (depth : Nat) → (ofKey : Bool) → Anchors → List Token → Read Node
  | 0, _, _, _ => none
  | depth + 1, ofKey, names, ts =>
    let fuel := ts.length + 1
    match ts with
    | .alias name :: rest => (names.lookup name).map fun node => (node, names, rest)
    | _ =>
      let (name, marked, ts) := takeProperties ts
      let content : Read Node := match ts with
        | .scalar plain text :: rest => some (.scalar plain text, names, rest)
        | .blockSequence :: rest => (readEntries (readNode depth false) true fuel [] names rest).map
            fun (items, r) => (.sequence items, r)
        | .blockMapping :: rest => (readPairs (readNode depth true) fuel [] names rest).map
            fun (pairs, r) => (.mapping pairs, r)
        | .flowSequence :: rest => (readFlowItems (readNode depth false) fuel [] names rest).map
            fun (items, r) => (.sequence items, r)
        | .flowMapping :: rest => (readFlowPairs (readNode depth false) fuel [] names rest).map
            fun (pairs, r) => (.mapping pairs, r)
        | _ =>
          if ofKey && ts.head? == some .blockEntry then
            (readEntries (readNode depth false) false fuel [] names ts).map
              fun (items, r) => (.sequence items, r)
          else if marked then some (.blank, names, ts)
          else none
      content.map fun (node, names, rest) =>
        (node, (name.map fun n => (n, node)).toList ++ names, rest)

def depthLimit : Nat := 128

def documentSigns : List Token := [.directive, .documentStart, .documentEnd]

/-- Reads a text: its node, or `some none` if it holds no document. A text with more than one
document is refused. -/
def read? (text : String) : Option (Option Node) := do
  let ts ← tokens? text
  let ts := ts.dropWhile (· == .documentEnd)
  if ts.isEmpty then return none
  else
    let body := ts.dropWhile (· == .directive)
    let body ← match body with
      | .documentStart :: rest => some rest
      | _ => if body.length < ts.length then none else some body
    let (node, _, rest) ← nodeUnless (readNode depthLimit false) documentSigns [] body
    if (rest.dropWhile (· == .documentEnd)).isEmpty then return some node else none

end Deadwood.Yaml
