import Deadwood.NameSet
import Deadwood.Pattern.Match
import Deadwood.Pattern.Notation

/-!
# Names in source text

* `identifiers`: every word of masked text that can be a name;
* `callNames`: the names that are called, with their qualifiers.
-/

namespace Deadwood

def isNameChar (c : Char) : Bool := Text.isAlphanumeric c || c == '_' || c == '$'

def identifiers (text : String) : NameSet :=
  NameSet.ofList <| (Text.splitWhere (!isNameChar ·) text).filter fun word =>
    match word.toList with
    | [] => false
    | c :: _ => !Text.isAsciiDigit c

def callKeywords : List String :=
  ["if", "for", "while", "switch", "return", "function", "catch", "match", "elif", "and",
    "or", "not", "in", "sizeof", "typeof", "new", "def", "fn", "func", "fun", "await"]

def callPattern : Pattern := r"([A-Za-z_$][\w$]*(?:(?:\.|::|->)[A-Za-z_$][\w$]*)*)\s*!?\("

def callNames (text : String) : NameSet :=
  NameSet.ofList <| ((callPattern.findAll text).map (·.groupText 1)).filter (!callKeywords.contains ·)

end Deadwood
