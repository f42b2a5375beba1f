import Deadwood.Liveness.Reason
import Deadwood.Source.Blocks
import Deadwood.Source.Mask
import Deadwood.Source.Names
import Deadwood.Source.Unit

/-!
# Reading source files

What the readers of all languages share.
-/

namespace Deadwood

open Text

/-- Where a file stands in its project. -/
structure Place where
  relative : Path

namespace Place

def fileName (p : Place) : String := p.relative.fileName

def directories (p : Place) : List String :=
  match p.relative.parent? with
  | some parent => parent.components.map fun c => lowerName c.text
  | none => []

def isWithin (p : Place) (name : String) : Bool := p.directories.contains name

end Place

/-- A text, without its comments in `literate`, and without its literals too in `code`. -/
structure MaskedSource where
  text : String
  code : String
  literate : String
  index : LineIndex

namespace MaskedSource

def ofText (lexicon : Lexicon) (text : String) : MaskedSource where
  text
  code := mask lexicon false text
  literate := mask lexicon true text
  index := .ofText text

def lineOf (m : MaskedSource) (offset : Nat) : Nat := m.index.lineOf offset

def depthAt (m : MaskedSource) (depths : List Nat) (offset : Nat) : Except Fault Nat := do
  return depths.getD (← minus (m.lineOf offset) 1) 0

def entityTo (m : MaskedSource) (name : String) (kind : EntityKind) (start stop : Nat) : Entity :=
  Entity.withSpan { name, kind, startLine := m.lineOf start }
    (m.lineOf stop) (stop - start + 1)

/-- The entity that starts at an offset and reaches to the end of its block, or to `fallback` if
that is missing. -/
def entity (m : MaskedSource) (name : String) (kind : EntityKind) (start fallback : Nat) : Entity :=
  m.entityTo name kind start ((blockEnd? m.code start).getD fallback)

end MaskedSource

def eachMatch {α : Type} (p : Pattern) (text : String) (add : Match → Except Fault (List α)) :
    Except Fault (List α) := do
  return (← (p.findAll text).mapM add).flatten

def MaskedSource.outermost {α : Type} (m : MaskedSource) (depths : List Nat) (p : Pattern)
    (add : Match → Except Fault (List α)) : Except Fault (List α) :=
  eachMatch p m.code fun hit => do
    if (← m.depthAt depths hit.start) > 0 then return [] else add hit

def lastPart (sep name : String) : String :=
  match splitLast? name sep with
  | some (_, last) => last
  | none => name

def capitalized (names : NameSet) : NameSet :=
  NameSet.ofList <| names.toList.filter fun name => name.toList.head?.any isAsciiUpper

end Deadwood
