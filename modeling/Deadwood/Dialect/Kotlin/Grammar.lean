import Deadwood.Grammar.Rule

/-!
# The grammar of Kotlin

The rules follow the language as far as is needed to tell names, calls and declarations apart.
Operators have no precedence here. An expression ends with its line.
-/

namespace Deadwood.Kotlin

/-- The rules, by name. -/
inductive Name where
  | file | qualified | ident | typeIdent | marker | modifiers | declaration | classBody | enumBody
  | member | delegations | classParameters | valueParameters | typeParameters | constraints
  | receiver | functionBody | variableName | variableNames | accessor | type | functionType
  | userType | typeArguments | block | statement | controlBody | expression | operand | selected
  | primary | suffix | callSuffix | valueArguments | lambda | delegate
deriving Repr, DecidableEq

open Rule Name

def reserved : List String :=
  ["as", "break", "class", "continue", "do", "else", "false", "for", "fun", "if", "in", "interface",
    "is", "null", "object", "package", "return", "super", "this", "throw", "true", "try",
    "typealias", "val", "var", "when", "while"]

def modifierWords : List String :=
  ["public", "private", "internal", "protected", "sealed", "annotation", "data", "inner", "value",
    "override", "lateinit", "tailrec", "operator", "infix", "inline", "external", "suspend", "const",
    "vararg", "noinline", "crossinline", "abstract", "final", "open", "expect", "actual", "reified",
    "in", "out"]

def useSites : List String :=
  ["field", "property", "get", "set", "receiver", "param", "setparam", "delegate", "file"]

/-- A word that modifies what follows. Most such words are names where nothing follows that they could
modify. -/
def modifierWord : Rule Name Part :=
  seq [oneOf modifierWords, ahead (alt [token .word, "@"])]

def label : Rule Name Part :=
  seq [absent (oneOf ["return@", "break@", "continue@", "this@", "super@"]), token .label]

def ofType : Rule Name Part := opt (seq [":", type])

def withDefault : Rule Name Part := opt (seq ["=", expression])

def stray : Rule Name Part := seq [absent "\x7d", alt [ident, any]]

def looseOperators : List String := ["?:", "&&", "||"]

def tightOperators : List String :=
  ["===", "!==", "==", "!=", "<=", "..<", "..", "+", "-", "*", "/", "%", "<", "in"]

def operation : Rule Name Part :=
  alt [
    seq [oneOf looseOperators, operand],
    seq ["as", opt "?", type],
    seq [sameLine, alt [
      seq ["is", type],
      seq ["!", alt [seq ["is", type], seq ["in", operand]]],
      seq [oneOf tightOperators, operand],
      seq [">", opt "=", operand],
      seq [ident, sameLine, operand]]]]

def branch : Rule Name Part :=
  seq [
    alt ["else", seq [sepBy (alt [
        seq [opt "!", "in", expression],
        seq [opt "!", "is", type],
        expression]) ",", opt ","]],
    "->", controlBody, opt ";"]

def templateLiteral : Rule Name Part :=
  seq [token .openQuote, many (alt [seq ["$\x7b", expression, "\x7d"],
      seq [absent (token .closeQuote), any]]),
    token .closeQuote]

def rule : Name → Rule Name Part
  | .file => many (alt [
      node .package (seq ["package", qualified]),
      node .importHeader (seq ["import", qualified,
        opt (alt [node .wildcard (seq [".", "*"]), seq ["as", typeIdent]])]),
      ";",
      seq [ahead (seq ["@", "file", ":"]), marker],
      statement,
      ident,
      any])
  | .qualified => node .qualifiedName (sepBy ident ".")
  | .ident => node .name word
  | .typeIdent => node .typeName word
  | .marker =>
    let use := seq [userType, opt (seq [sameLine, valueArguments])]
    node .marker (seq ["@", opt (seq [oneOf useSites, ":"]), alt [seq ["[", many1 use, "]"], use]])
  | .modifiers => node .modifiers (many1 (alt [marker, modifierWord]))
  | .declaration => alt [
      node .classDeclaration (seq [opt modifiers, "enum", "class", typeIdent,
        opt typeParameters, opt classParameters, opt (seq [":", delegations]),
        opt constraints, opt enumBody]),
      node .classDeclaration (seq [opt modifiers,
        alt ["class", seq [opt "fun", "interface"]], typeIdent,
        opt typeParameters, opt classParameters, opt (seq [":", delegations]),
        opt constraints, opt classBody]),
      node .objectDeclaration (seq [opt modifiers, "object", typeIdent,
        opt (seq [":", delegations]), opt classBody]),
      node .functionDeclaration (seq [opt modifiers, "fun", opt typeParameters,
        opt receiver, ident, valueParameters, ofType, opt constraints,
        opt functionBody]),
      node .propertyDeclaration (seq [opt modifiers, oneOf ["val", "var"],
        opt typeParameters, opt receiver, variableNames, opt constraints,
        node .detail (seq [opt (seq [oneOf ["=", "by"], expression]),
          many (seq [opt ";", accessor])])]),
      node .typeAlias (seq [opt modifiers, "typealias", typeIdent, opt typeParameters, "=", type])]
  | .classBody => node .body (inBraces (many member))
  | .enumBody => node .body (inBraces (seq [
      commas (node .enumEntry (seq [opt modifiers, ident, opt valueArguments, opt classBody])),
      opt (seq [";", many member])]))
  | .member => alt [
      ";",
      node .companion (seq [opt modifiers, "companion", "object",
        opt (seq [sameLine, typeIdent]), opt (seq [":", delegations]),
        opt classBody]),
      seq ["init", block],
      seq [opt modifiers, "constructor", valueParameters,
        opt (seq [":", oneOf ["this", "super"], valueArguments]), opt block],
      declaration,
      accessor,
      stray]
  | .delegations => sepBy (seq [many marker, alt [
      seq [type, "by", delegate],
      seq [userType, valueArguments],
      type]]) ","
  | .classParameters => node .detail (seq [opt (seq [opt modifiers, "constructor"]),
      inParentheses (commas (seq [opt modifiers, opt (oneOf ["val", "var"]), ident,
        ofType, withDefault]))])
  | .valueParameters => node .detail (inParentheses (commas (seq [opt modifiers, ident,
      ofType, withDefault])))
  | .typeParameters => node .detail (seq ["<", commas (seq [opt modifiers,
      typeIdent, ofType]), ">"])
  | .constraints => seq ["where", sepBy (seq [many marker, ident, ofType]) ","]
  | .receiver => alt [
      seq [inParentheses type, oneOf [".", "?."]],
      many1 (seq [typeIdent, opt typeArguments, oneOf [".", "?."]])]
  | .functionBody => node .detail (alt [block, seq ["=", expression]])
  | .variableName => node .variableName (seq [many marker, ident, ofType])
  | .variableNames => alt [node .detail (inParentheses (commas variableName)), variableName]
  | .accessor => alt [
      seq [opt modifiers, "get", "(", ")", ofType, functionBody],
      seq [opt modifiers, "set", inParentheses (commas (seq [opt modifiers,
        ident, ofType])), ofType, functionBody],
      seq [modifiers, oneOf ["get", "set"]]]
  | .type => seq [many (alt [marker, "suspend"]), alt [functionType,
        seq [alt ["dynamic", inParentheses type, userType], many "?", opt (seq ["&", type])]]]
  | .functionType => seq [opt receiver, inParentheses (commas (alt [seq [ident, ":", type], type])),
      "->", type]
  | .userType => sepBy (seq [typeIdent, opt typeArguments]) "."
  | .typeArguments => seq ["<", commas (alt ["*",
      seq [many (alt [oneOf ["in", "out"], marker]), type]]), ">"]
  | .block => inBraces (many (alt [";", statement, stray]))
  | .statement => alt [
      declaration,
      accessor,
      seq [many (alt [marker, label]), alt [
        seq ["for", inParentheses (seq [many marker, variableNames, "in",
          expression]), opt controlBody],
        seq ["while", inParentheses expression, alt [";", controlBody]],
        seq ["do", opt controlBody, "while", inParentheses expression],
        seq [expression, opt (seq [oneOf ["=", "+=", "-=", "*=", "/=", "%="], expression])]]]]
  | .controlBody => alt [block, statement]
  | .expression => seq [operand, many operation]
  | .operand => seq [many (alt [oneOf ["+", "-", "++", "--", "!"], marker, label]), selected]
  | .selected => seq [primary, many suffix]
  | .primary => alt [
      templateLiteral,
      token .literal,
      oneOf ["true", "false", "null"],
      seq ["if", inParentheses expression, opt controlBody,
        opt (seq [opt ";", "else", opt controlBody])],
      seq ["when", opt (inParentheses (seq [
          opt (seq [many marker, "val", variableName, "="]), expression])),
        inBraces (many branch)],
      seq ["try", block, many (seq ["catch", inParentheses (seq [many marker, ident, ":",
          type, opt ","]), block]),
        opt (seq ["finally", block])],
      seq ["throw", expression],
      seq ["return", opt (seq [sameLine, expression])],
      seq [oneOf ["return@"], word, opt (seq [sameLine, expression])],
      oneOf ["break", "continue"],
      seq [oneOf ["break@", "continue@"], word],
      seq ["object", opt (seq [":", delegations]), classBody],
      seq ["fun", opt receiver, valueParameters, ofType, opt functionBody],
      seq [oneOf ["this@", "super@"], typeIdent],
      "this",
      seq ["super", opt (seq ["<", type, ">"])],
      inParentheses expression,
      seq ["[", commas expression, "]"],
      seq ["::", alt [ident, "class"]],
      lambda,
      seq [node .calledName ident, sameLine, callSuffix],
      ident]
  | .suffix => alt [
      seq [sameLine, oneOf ["!!", "++", "--"]],
      seq [oneOf [".", "?."], alt [ident, inParentheses expression, "class"]],
      seq [sameLine, "::", alt [ident, "class"]],
      seq [sameLine, "[", commas expression, "]"],
      seq [sameLine, callSuffix]]
  | .callSuffix => seq [opt typeArguments, alt [
      seq [valueArguments, opt (seq [sameLine, many marker, opt label, lambda])],
      seq [many marker, opt label, lambda]]]
  | .valueArguments => inParentheses (commas (seq [many marker,
      opt (seq [ident, "="]), opt "*", expression]))
  | .lambda => inBraces (seq [opt (seq [commas variableNames, "->"]),
      many (alt [";", statement, stray])])
  | .delegate => seq [alt [seq [node .calledName ident, valueArguments], ident,
        inParentheses expression, seq ["object", opt (seq [":", delegations]),
        classBody]],
      many (seq [oneOf [".", "?."], ident, opt valueArguments])]

/-- A grammar of the constructs the reader looks at. -/
def grammar : Grammar Name Part := ⟨reserved, rule⟩

def spelling : Spelling where
  symbols := ["===", "!==", "..<", "..", "?.", "?:", "!!", "::", "->", "++", "--", "&&", "||", "==",
    "!=", "<=", "+=", "-=", "*=", "/=", "%="]
  nestedComments := true
  templates := true

/-- A token goes on with the line before it even if it starts a line: no statement starts with most
marks, and a sign starts one only as the sign of a number. -/
def continuesLine (t : Token) (next? : Option Token) : Bool :=
  match t.kind, t.text.toList with
  | .word, _ => t.text == "else"
  | .symbol, ['+'] | .symbol, ['-'] =>
    !next?.any fun next => next.start == t.stop && next.text.toList.head?.any Text.isAsciiDigit
  | .symbol, c :: cs =>
    if c == '+' || c == '-' then cs != [c]
    else if c == '!' then cs.head? == some '='
    else [',', '.', ':', '*', '%', '>', '<', '=', '{', '[', '(', '?', '|', '&', '/'].contains c
  | _, _ => false

def joinLines : List Token → List Token
  | [] => []
  | t :: ts => { t with startsLine := t.startsLine && !continuesLine t ts.head? } :: joinLines ts

/-- The trees of a text. -/
def trees (text : String) : List (Tree Part) := grammar.read (.ref .file) (joinLines (tokens spelling text))

end Deadwood.Kotlin
