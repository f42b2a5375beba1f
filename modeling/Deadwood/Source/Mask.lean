import Deadwood.Text.Basic
import Deadwood.Source.Lexicon

/-!
# Hiding comments and literals

`mask` puts blanks in the place of comments and of the bodies of literals. Every byte becomes one
blank and line feeds stay, so offsets and line numbers in the masked text are those of the text.
-/

namespace Deadwood

/-- What a piece of the text is. -/
inductive PieceKind where
  | code
  | comment
  | literal
deriving Repr, DecidableEq

/-- A stretch of source text: its kind, and the number of characters of its parts. Delimiters are
never hidden. -/
structure Piece where
  kind : PieceKind
  opening : Nat
  body : Nat
  closing : Nat
deriving Repr, DecidableEq

namespace Piece

def code : Piece := ⟨.code, 1, 0, 0⟩

def comment (n : Nat) : Piece := ⟨.comment, 0, n, 0⟩

def length (p : Piece) : Nat := p.opening + p.body + p.closing

end Piece

def lengthTo (mark : String) (cs : List Char) : Nat × Bool :=
  match Text.breakAt? mark.toList cs with
  | some (before, _) => (before.length, true)
  | none => (cs.length, false)

/-- Number of characters of the body of a literal opened by `quote`. A backslash hides the
character after it; the body ends before the quote or, unless the quote is a backtick, before the
end of the line. -/
def literalBody (quote : Char) : List Char → Nat
  | [] => 0
  | '\\' :: _ :: cs => literalBody quote cs + 2
  | ['\\'] => 1
  | c :: cs => if (c == '\n' && quote != '`') || c == quote then 0 else literalBody quote cs + 1

/-- Number of characters before the first single quote among the next `budget` bytes. -/
def quoteWithin (budget : Nat) : List Char → Option Nat
  | [] => none
  | c :: cs =>
    if budget = 0 then none
    else if c == '\'' then some 0
    else (quoteWithin (budget - c.utf8Size) cs).map (· + 1)

/-- Number of characters between the single quotes of a literal of one character, after the opening
quote. An escape has to close within ten bytes. -/
def charBody? : List Char → Option Nat
  | '\\' :: cs => (quoteWithin 10 cs).map (· + 1)
  | _ :: '\'' :: _ => some 1
  | _ => none

def blockComment? (marks : String × String) (cs : List Char) : Option Piece :=
  (Text.afterHead? marks.1.toList cs).map fun rest =>
    let (n, closed) := lengthTo marks.2 rest
    .comment (marks.1.length + n + if closed then marks.2.length else 0)

def isBoundary (before : Option Char) : Bool :=
  match before with
  | none => true
  | some c => c == ' ' || c == '\t' || c == '\n' || c == '\r' || c == '\x0c' || c == ';'

def lineComment? (lexicon : Lexicon) (before : Option Char) (mark : String) (cs : List Char) :
    Option Piece :=
  if (Text.afterHead? mark.toList cs).isSome &&
      !(mark == "#" && lexicon.hashAtBoundary && !isBoundary before) then
    some (.comment (cs.takeWhile (· != '\n')).length)
  else none

def literalAt (lexicon : Lexicon) (quote : Char) (rest : List Char) : Piece :=
  match lexicon.tripleQuotes, rest with
  | true, second :: third :: inner =>
    if second == quote && third == quote then
      let (n, closed) := lengthTo (String.ofList [quote, quote, quote]) inner
      ⟨.literal, 3, n, if closed then 3 else 0⟩
    else ordinary
  | _, _ => ordinary
where
  ordinary : Piece :=
    let n := literalBody quote rest
    ⟨.literal, 1, n, if n < rest.length then 1 else 0⟩

/-- The piece that starts here. -/
def pieceAt (lexicon : Lexicon) (before : Option Char) (cs : List Char) : Piece :=
  match lexicon.blockMarks.findSome? (blockComment? · cs) with
  | some piece => piece
  | none =>
    match lexicon.lineMarks.findSome? (lineComment? lexicon before · cs) with
    | some piece => piece
    | none =>
      match cs with
      | [] => .code
      | c :: rest =>
        if lexicon.charLiterals && c == '\'' then
          match charBody? rest with
          | some n => ⟨.literal, 1, n, 1⟩
          | none => .code
        else if lexicon.quotes.contains c then literalAt lexicon c rest
        else .code

/-- Blanks for the bytes of a character; a line feed stays. -/
def blankChar (c : Char) : List Char := if c == '\n' then [c] else List.replicate c.utf8Size ' '

def Piece.render (p : Piece) (keep : Bool) (cs : List Char) : List Char :=
  let body := (cs.drop p.opening).take p.body
  let hidden := match p.kind with
    | .code => false
    | .comment => true
    | .literal => !keep
  cs.take p.opening ++ (if hidden then body.flatMap blankChar else body) ++
    (cs.drop (p.opening + p.body)).take p.closing

/-- Blanks the comments, and the literals unless they are kept. -/
def maskList (lexicon : Lexicon) (keep : Bool) :
    (fuel : Nat) → (before : Option Char) → List Char → List Char
  | 0, _, cs => cs
  | _ + 1, _, [] => []
  | fuel + 1, before, c :: cs =>
    let piece := pieceAt lexicon before (c :: cs)
    piece.render keep (c :: cs) ++
      maskList lexicon keep fuel (((c :: cs).take piece.length).getLast?)
        ((c :: cs).drop piece.length)

/-- Hides comments, and the bodies of literals unless `keep`. -/
def mask (lexicon : Lexicon) (keep : Bool) (text : String) : String :=
  String.ofList (maskList lexicon keep text.length none text.toList)

end Deadwood
