import Deadwood.Text.Basic

/-!
# Syntax trees

A `Tree` has the tokens of a text as its leaves and labelled parts of it as its nodes. Java and Kotlin are read from
such trees. Where the trees come from is left open: `TreeReader` stands for a parser of these languages.
-/

namespace Deadwood

/-- The kinds of tokens. -/
inductive TokenKind where
  | word
  | literal
  | symbol
  | label
  | openQuote
  | closeQuote
deriving Repr, DecidableEq

/-- A token and where it starts. -/
structure Token where
  kind : TokenKind
  text : String
  start : Nat
  startsLine : Bool
deriving Repr, DecidableEq

def Token.stop (t : Token) : Nat := t.start + t.text.utf8ByteSize

/-- A syntax tree with labelled nodes. -/
inductive Tree (κ : Type) where
  | leaf (token : Token)
  | node (label : κ) (children : List (Tree κ))

namespace Tree

variable {κ : Type}

mutual

def leaves : Tree κ → List Token
  | leaf t => [t]
  | node _ children => leavesOf children

def leavesOf : List (Tree κ) → List Token
  | [] => []
  | t :: ts => leaves t ++ leavesOf ts

end

mutual

def parts : Tree κ → List (Tree κ)
  | leaf t => [leaf t]
  | node label children => node label children :: partsOf children

def partsOf : List (Tree κ) → List (Tree κ)
  | [] => []
  | t :: ts => parts t ++ partsOf ts

end

def label? : Tree κ → Option κ
  | leaf _ => none
  | node label _ => some label

def children : Tree κ → List (Tree κ)
  | leaf _ => []
  | node _ children => children

def start (t : Tree κ) : Nat := (t.leaves.head?.map (·.start)).getD 0

def stop (t : Tree κ) : Nat := (t.leaves.getLast?.map (·.stop)).getD 0

def textIn (source : String) (t : Tree κ) : String := (Text.cut? source t.start t.stop).getD ""

def child? [DecidableEq κ] (t : Tree κ) (label : κ) : Option (Tree κ) :=
  t.children.find? (·.label? == some label)

def childrenWith [DecidableEq κ] (t : Tree κ) (label : κ) : List (Tree κ) :=
  t.children.filter (·.label? == some label)

def hasLeaf (t : Tree κ) (text : String) : Bool :=
  t.children.any fun
    | leaf token => token.text == text
    | node _ _ => false

end Tree

/-! ## Trees of Java and Kotlin -/

/-- The parts of a Java text that are looked at. -/
inductive Java.Part where
  | package
  | importDeclaration
  | qualifiedName
  | modifiers
  | marker
  | annotationName
  | classDeclaration
  | interfaceDeclaration
  | enumDeclaration
  | recordDeclaration
  | declaredName
  | body
  | method
  | constructor
  | block
  | parameters
  | typeName
  | name
  | calledName
deriving Repr, DecidableEq

/-- The parts of a Kotlin text that are looked at. -/
inductive Kotlin.Part where
  | package
  | importHeader
  | wildcard
  | qualifiedName
  | modifiers
  | marker
  | classDeclaration
  | objectDeclaration
  | companion
  | functionDeclaration
  | propertyDeclaration
  | variableName
  | typeAlias
  | body
  | enumEntry
  | detail
  | typeName
  | name
  | calledName
deriving Repr, DecidableEq

/-- A parser for Java and one for Kotlin. Nothing is assumed of them. -/
class TreeReader where
  java : String → List (Tree Java.Part)
  kotlin : String → List (Tree Kotlin.Part)

end Deadwood
