/-!
# Comments and literals of a language

A `Lexicon` says how a family of languages writes comments and literals, which is all that is
needed to hide them.
-/

namespace Deadwood

/-- How a language writes comments and literals. -/
structure Lexicon where
  lineMarks : List String := []
  blockMarks : List (String × String) := []
  quotes : List Char := []
  /-- Three equal quotation marks open a literal that may run over lines. -/
  tripleQuotes : Bool := false
  /-- A single quote opens a literal only if it closes after one character or an escape. -/
  charLiterals : Bool := false
  /-- `#` opens a comment only at the start, after white space, or after `;`. -/
  hashAtBoundary : Bool := false
deriving Repr, DecidableEq

namespace Lexicon

/-- Braces and slashes: C, C++, C#, Go, Java, JavaScript, Kotlin, Dart. -/
def slashed : Lexicon where
  lineMarks := ["//"]
  blockMarks := [("/*", "*/")]
  quotes := ['"', '\'', '`']

/-- Rust: a single quote may also mark a lifetime. -/
def rust : Lexicon where
  lineMarks := ["//"]
  blockMarks := [("/*", "*/")]
  quotes := ['"']
  charLiterals := true

def swift : Lexicon where
  lineMarks := ["//"]
  blockMarks := [("/*", "*/")]
  quotes := ['"']
  tripleQuotes := true

def python : Lexicon where
  lineMarks := ["#"]
  quotes := ['"', '\'']
  tripleQuotes := true

def ruby : Lexicon where
  lineMarks := ["#"]
  blockMarks := [("=begin", "=end")]
  quotes := ['"', '\'']

def shell : Lexicon where
  lineMarks := ["#"]
  quotes := ['"', '\'']
  hashAtBoundary := true

def php : Lexicon where
  lineMarks := ["//", "#"]
  blockMarks := [("/*", "*/")]
  quotes := ['"', '\'']

/-- Lua; long literals are hidden like comments. -/
def lua : Lexicon where
  lineMarks := ["--"]
  blockMarks := [("--[[", "]]"), ("[[", "]]")]
  quotes := ['"', '\'']

def css : Lexicon where
  blockMarks := [("/*", "*/")]
  quotes := ['"', '\'']

def html : Lexicon where
  blockMarks := [("<!--", "-->")]

end Lexicon

end Deadwood
