import Deadwood.Grammar.Token

/-!
# Grammars with ordered choice

A `Rule` describes sequences of tokens. Alternatives are tried in order and the first that fits is
taken; repetition takes as much as it can. Reading a rule gives trees, whose nodes are the labelled
parts of the rule.
-/

namespace Deadwood

/-- What a sequence of tokens may be. -/
inductive Rule (ν κ : Type) where
  | exact (text : String)
  | oneOf (texts : List String)
  | word
  | token (kind : TokenKind)
  | any
  | ref (name : ν)
  | seq (rules : List (Rule ν κ))
  | alt (rules : List (Rule ν κ))
  | many (rule : Rule ν κ)
  | opt (rule : Rule ν κ)
  | ahead (rule : Rule ν κ)
  | absent (rule : Rule ν κ)
  /-- Nothing, before a token that continues the line. -/
  | sameLine
  | node (label : κ) (rule : Rule ν κ)

namespace Rule

variable {ν κ : Type}

/-- In a grammar a text stands for the token with that text, and a name for its rule. -/
instance : Coe String (Rule ν κ) := ⟨exact⟩

instance : Coe ν (Rule ν κ) := ⟨ref⟩

variable (r : Rule ν κ)

def many1 : Rule ν κ := seq [r, many r]

def sepBy (mark : String) : Rule ν κ := seq [r, many (seq [mark, r])]

def inParentheses : Rule ν κ := seq ["(", r, ")"]

def inBraces : Rule ν κ := seq ["\x7b", r, "\x7d"]

def commas : Rule ν κ := seq [opt (sepBy r ","), opt ","]

end Rule

/-- The rules by name, and the words no name may be. -/
structure Grammar (ν κ : Type) where
  reserved : List String
  rule : ν → Rule ν κ

namespace Grammar

variable {ν κ : Type}

def readToken (p : Token → Bool) : List Token → Option (List (Tree κ) × List Token)
  | [] => none
  | t :: ts => if p t then some ([.leaf t], ts) else none

def run (g : Grammar ν κ) : (fuel : Nat) → Rule ν κ → List Token → Option (List (Tree κ) × List Token)
  | 0, _, _ => none
  | fuel + 1, rule, ts =>
    match rule with
    | .exact text => readToken (fun t => (t.kind == .word || t.kind == .symbol || t.kind == .label) &&
        t.text == text) ts
    | .oneOf texts => readToken (fun t => (t.kind == .word || t.kind == .symbol || t.kind == .label) &&
        texts.contains t.text) ts
    | .word => readToken (fun t => t.kind == .word && !g.reserved.contains t.text) ts
    | .token kind => readToken (·.kind == kind) ts
    | .any => readToken (fun _ => true) ts
    | .ref name => run g fuel (g.rule name) ts
    | .seq [] => some ([], ts)
    | .seq (r :: rs) =>
      match run g fuel r ts with
      | none => none
      | some (first, ts) =>
        match run g fuel (.seq rs) ts with
        | none => none
        | some (rest, ts) => some (first ++ rest, ts)
    | .alt [] => none
    | .alt (r :: rs) =>
      match run g fuel r ts with
      | some result => some result
      | none => run g fuel (.alt rs) ts
    | .many r =>
      match run g fuel r ts with
      | none => some ([], ts)
      | some (first, rest) =>
        if rest.length < ts.length then
          match run g fuel (.many r) rest with
          | none => some (first, rest)
          | some (more, rest) => some (first ++ more, rest)
        else some ([], ts)
    | .opt r =>
      match run g fuel r ts with
      | none => some ([], ts)
      | some result => some result
    | .ahead r => if (run g fuel r ts).isSome then some ([], ts) else none
    | .absent r => if (run g fuel r ts).isSome then none else some ([], ts)
    | .sameLine =>
      match ts with
      | [] => none
      | t :: _ => if t.startsLine then none else some ([], ts)
    | .node label r =>
      match run g fuel r ts with
      | none => none
      | some (children, ts) => some ([.node label children], ts)

def read (g : Grammar ν κ) (rule : Rule ν κ) (ts : List Token) : List (Tree κ) :=
  match g.run (200 * (ts.length + 2)) rule ts with
  | some (trees, _) => trees
  | none => []

end Grammar

end Deadwood
