import Deadwood.Grammar.Tree

/-!
# Tokens

A source text as the list of its tokens, without white space and comments. `Spelling` holds what
differs between languages; `tokens` does the reading.

Where literals may hold expressions, a literal is not one token: `openQuote` and `closeQuote` stand
around the tokens of its expressions.
-/

namespace Deadwood

open Text

/-- How a language writes its tokens. -/
structure Spelling where
  symbols : List String
  nestedComments : Bool
  /-- Literals may hold expressions, and names may stand in backticks. -/
  templates : Bool

namespace Spelling

def isNameStart (s : Spelling) (c : Char) : Bool :=
  (isAlphanumeric c && !isDecimal c) || c == '_' || (c == '$' && !s.templates)

def isNamePart (s : Spelling) (c : Char) : Bool := isWord c || (c == '$' && !s.templates)

end Spelling

/-- What the tokenizer stands in. -/
inductive ReadMode where
  /-- Code, with the number of open braces; the code of an expression ends with its brace. -/
  | code (braces : Nat)
  | template (triple : Bool)

def splitComment (nested : Bool) : (depth : Nat) → List Char → List Char × List Char
  | _, [] => ([], [])
  | depth, '*' :: '/' :: cs =>
    if depth ≤ 1 then (['*', '/'], cs)
    else
      let (before, after) := splitComment nested (depth - 1) cs
      ('*' :: '/' :: before, after)
  | depth, '/' :: '*' :: cs =>
    let (before, after) := splitComment nested (if nested then depth + 1 else depth) cs
    ('/' :: '*' :: before, after)
  | depth, c :: cs =>
    let (before, after) := splitComment nested depth cs
    (c :: before, after)

/-- Splits off the body of a literal and its closing `quote`, if it has one; a backslash hides the
character after it. -/
def splitLiteral (quote : List Char) : List Char → List Char × List Char
  | [] => ([], [])
  | ['\\'] => (['\\'], [])
  | '\\' :: c :: cs =>
    let (before, after) := splitLiteral quote cs
    ('\\' :: c :: before, after)
  | c :: cs =>
    match afterHead? quote (c :: cs) with
    | some rest => (quote, rest)
    | none =>
      let (before, after) := splitLiteral quote cs
      (c :: before, after)

/-- Splits off a number: letters and digits, points before digits, and signs of exponents. -/
def splitNumber : List Char → List Char × List Char
  | [] => ([], [])
  | '.' :: d :: cs =>
    if isAsciiDigit d then
      let (before, after) := splitNumber cs
      ('.' :: d :: before, after)
    else ([], '.' :: d :: cs)
  | e :: sign :: d :: cs =>
    if (e == 'e' || e == 'E') && (sign == '+' || sign == '-') && isAsciiDigit d then
      let (before, after) := splitNumber cs
      (e :: sign :: d :: before, after)
    else if isWord e then
      let (before, after) := splitNumber (sign :: d :: cs)
      (e :: before, after)
    else ([], e :: sign :: d :: cs)
  | c :: cs =>
    if isWord c then
      let (before, after) := splitNumber cs
      (c :: before, after)
    else ([], c :: cs)

def tokensFrom (s : Spelling) :
    (fuel : Nat) → (modes : List ReadMode) → (offset : Nat) → (startsLine : Bool) → List Char →
      List Token
  | 0, _, _, _, _ => []
  | _ + 1, _, _, _, [] => []
  | fuel + 1, .template triple :: modes, offset, startsLine, cs =>
    let quote := if triple then ['"', '"', '"'] else ['"']
    match afterHead? quote cs with
    | some rest =>
      ⟨.closeQuote, String.ofList quote, offset, false⟩ ::
        tokensFrom s fuel modes (offset + quote.length) startsLine rest
    | none =>
      match cs with
      | '$' :: '{' :: rest =>
        ⟨.symbol, "$\x7b", offset, false⟩ ::
          tokensFrom s fuel (.code 0 :: .template triple :: modes) (offset + 2) startsLine rest
      | '\\' :: c :: rest =>
        if triple then tokensFrom s fuel (.template triple :: modes) (offset + 1) startsLine (c :: rest)
        else tokensFrom s fuel (.template triple :: modes) (offset + 1 + c.utf8Size) startsLine rest
      | c :: rest =>
        tokensFrom s fuel (.template triple :: modes) (offset + c.utf8Size) startsLine rest
      | [] => []
  | fuel + 1, modes, offset, startsLine, c :: cs =>
    let emit (kind : TokenKind) (text rest : List Char) (modes : List ReadMode) : List Token :=
      ⟨kind, String.ofList text, offset, startsLine⟩ ::
        tokensFrom s fuel modes (offset + byteLength text) false rest
    let skip (text rest : List Char) : List Token :=
      tokensFrom s fuel modes (offset + byteLength text) (startsLine || text.contains '\n') rest
    if isBlank c then skip [c] cs
    else if (afterHead? ['/', '/'] (c :: cs)).isSome then
      let comment := (c :: cs).takeWhile (· != '\n')
      skip comment ((c :: cs).drop comment.length)
    else if (afterHead? ['/', '*'] (c :: cs)).isSome then
      let (body, rest) := splitComment s.nestedComments 1 (cs.drop 1)
      skip ('/' :: '*' :: body) rest
    else if c == '"' then
      let triple := (afterHead? ['"', '"', '"'] (c :: cs)).isSome
      let quote := if triple then ['"', '"', '"'] else ['"']
      let rest := (c :: cs).drop quote.length
      if s.templates then emit .openQuote quote rest (.template triple :: modes)
      else
        let (body, rest) := splitLiteral quote rest
        emit .literal (quote ++ body) rest modes
    else if c == '\'' then
      let (body, rest) := splitLiteral ['\''] cs
      emit .literal (c :: body) rest modes
    else if c == '`' && s.templates then
      let name := cs.takeWhile (· != '`')
      emit .word (c :: (name ++ ['`'])) (cs.drop (name.length + 1)) modes
    else if isAsciiDigit c then
      let (number, rest) := splitNumber (c :: cs)
      emit .literal number rest modes
    else if s.isNameStart c then
      let name := (c :: cs).takeWhile s.isNamePart
      let rest := (c :: cs).drop name.length
      match s.templates, rest with
      | true, '@' :: rest => emit .label (name ++ ['@']) rest modes
      | _, _ => emit .word name rest modes
    else
      match s.symbols.find? fun symbol => (afterHead? symbol.toList (c :: cs)).isSome with
      | some symbol => emit .symbol symbol.toList ((c :: cs).drop symbol.length) modes
      | none =>
        match c, modes with
        | '{', .code n :: outer => emit .symbol [c] cs (.code (n + 1) :: outer)
        | '}', .code 0 :: outer => emit .symbol [c] cs outer
        | '}', .code (n + 1) :: outer => emit .symbol [c] cs (.code n :: outer)
        | _, _ => emit .symbol [c] cs modes

/-- The tokens of a text. An interpreter line at the start is left out. -/
def tokens (s : Spelling) (text : String) : List Token :=
  let cs := text.toList
  let skipped := if startsWith text "#!" then cs.takeWhile (· != '\n') else []
  tokensFrom s (cs.length + 1) [] (byteLength skipped) true (cs.drop skipped.length)

end Deadwood
