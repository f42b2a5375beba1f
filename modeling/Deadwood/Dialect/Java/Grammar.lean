import Deadwood.Grammar.Rule

/-!
# The grammar of Java

The rules follow the language as far as is needed to tell names, names of types, calls and
declarations apart. Operators have no precedence here, because none of these depends on it.
-/

namespace Deadwood.Java

/-- The rules, by name. -/
inductive Name where
  | unit | topLevel | package | importDeclaration | moduleDeclaration | qualified | ident
  | typeIdent | declared | modifiers | marker | elementValue | typeDeclaration | typeParameters
  | typeList | classBody | enumBody | enumConstant | annotationBody | member | method | field
  | parameters | type | classType | typeArguments | dims | declarators | initializer
  | arrayInitializer | block | blockStatement | statement | switchBody | caseLabel | pattern
  | expression | lambda | ternary | binary | unary | cast | selected | primary | selector | creator
  | arguments
deriving Repr, DecidableEq

open Rule Name

def reserved : List String :=
  ["abstract", "assert", "boolean", "break", "byte", "case", "catch", "char", "class", "const",
    "continue", "default", "do", "double", "else", "enum", "extends", "final", "finally", "float",
    "for", "goto", "if", "implements", "import", "instanceof", "int", "interface", "long", "native",
    "new", "package", "private", "protected", "public", "return", "short", "static", "strictfp",
    "super", "switch", "synchronized", "this", "throw", "throws", "transient", "try", "void",
    "volatile", "while", "true", "false", "null"]

def modifierWords : List String :=
  ["public", "protected", "private", "abstract", "static", "final", "strictfp", "default",
    "synchronized", "native", "transient", "volatile", "sealed"]

def primitives : List String := ["boolean", "byte", "char", "short", "int", "long", "float", "double"]

/-- Operators between two operands. Marks that start with `>` are read one by one. -/
def binaryOperator : Rule Name Part :=
  alt [oneOf ["||", "&&", "==", "!=", "<=", "<<", "|", "^", "&", "<", "+", "-", "*", "/", "%"],
    seq [">", ">", ">", absent "="],
    seq [">", ">", absent (oneOf [">", "="])],
    seq [">", "=", absent "="],
    seq [">", absent (oneOf [">", "="])]]

def assignOperator : Rule Name Part :=
  alt [oneOf ["=", "+=", "-=", "*=", "/=", "%=", "&=", "|=", "^=", "<<="], seq [">", ">", ">", "="],
    seq [">", ">", "="]]

def listOf (name : Name) : Rule Name Part := sepBy (ref name) ","

def typeHead (keyword : Rule Name Part) : Rule Name Part :=
  seq [opt modifiers, keyword, declared]

def castOperand : Rule Name Part :=
  alt [lambda, seq [ahead (alt [word, token .literal,
        oneOf (["(", "!", "~", "this", "super", "new", "switch", "true", "false", "null", "void"] ++
          primitives)]),
      unary]]

def rule : Name → Rule Name Part
  | .unit => many (alt [topLevel, any])
  | .topLevel => alt [package, importDeclaration, ";", typeDeclaration,
      moduleDeclaration, method, blockStatement]
  | .package => node .package (seq [many marker, "package", qualified, ";"])
  | .importDeclaration => node .importDeclaration (seq ["import", opt "static",
      qualified, opt (seq [".", "*"]), ";"])
  | .moduleDeclaration => seq [many marker, opt "open", "module", qualified,
      inBraces (many (alt [ident, seq [absent "\x7d", any]]))]
  | .qualified => node .qualifiedName (sepBy ident ".")
  | .ident => node .name word
  | .typeIdent => node .typeName word
  | .declared => node .declaredName ident
  | .modifiers => node .modifiers (many1 (alt [marker, oneOf modifierWords,
      seq ["non", "-", "sealed"]]))
  | .marker => node .marker (seq ["@", absent "interface", node .annotationName qualified,
      opt (inParentheses (alt [
        seq [sepBy (seq [ident, "=", elementValue]) ",", ahead ")"],
        opt elementValue]))])
  | .elementValue => alt [marker, inBraces (commas elementValue), ternary]
  | .typeDeclaration => alt [
      node .classDeclaration (seq [typeHead "class", opt typeParameters,
        opt (seq ["extends", type]), opt (seq ["implements", typeList]),
        opt (seq ["permits", typeList]), classBody]),
      node .interfaceDeclaration (seq [typeHead "interface", opt typeParameters,
        opt (seq ["extends", typeList]), opt (seq ["permits", typeList]),
        classBody]),
      node .enumDeclaration (seq [typeHead "enum", opt (seq ["implements", typeList]), enumBody]),
      node .recordDeclaration (seq [typeHead "record", opt typeParameters,
        parameters, opt (seq ["implements", typeList]), classBody]),
      node .interfaceDeclaration (seq [typeHead (seq ["@", "interface"]), annotationBody])]
  | .typeParameters => seq ["<", sepBy (seq [many marker, typeIdent,
      opt (seq ["extends", sepBy type "&"])]) ",", ">"]
  | .typeList => listOf .type
  | .classBody => node .body (inBraces (many member))
  | .enumBody => node .body (inBraces (seq [commas enumConstant, opt (seq [";", many member])]))
  | .enumConstant => seq [opt modifiers, ident, opt arguments, opt classBody]
  | .annotationBody => node .body (inBraces (many (alt [
      seq [opt modifiers, type, ident, "(", ")", dims, opt (seq ["default", elementValue]), ";"],
      member])))
  | .member => alt [
      ";",
      typeDeclaration,
      seq ["static", block],
      block,
      node .constructor (seq [opt modifiers, opt typeParameters, declared,
        parameters, opt (seq ["throws", typeList]), block]),
      seq [opt modifiers, ident, block],
      method,
      field]
  | .method => node .method (seq [opt modifiers,
      opt (seq [typeParameters, many marker]), alt ["void", type],
      declared, parameters, dims, opt (seq ["throws", typeList]),
      alt [block, ";"]])
  | .field => seq [opt modifiers, type, declarators, ";"]
  | .parameters => node .parameters (inParentheses (opt (sepBy (alt [
      seq [opt modifiers, type, opt (seq [many marker, "..."]), ident, dims],
      seq [many marker, type, opt (seq [ident, "."]), "this"]]) ",")))
  | .type => seq [many marker, alt [oneOf primitives, classType], dims]
  | .classType => sepBy (seq [many marker, typeIdent, opt typeArguments]) "."
  | .typeArguments => seq ["<", opt (sepBy (alt [
      seq [many marker, "?", opt (seq [oneOf ["extends", "super"], type])],
      type]) ","), ">"]
  | .dims => many (seq [many marker, "[", "]"])
  | .declarators => sepBy (seq [ident, dims, opt (seq ["=", initializer])]) ","
  | .initializer => alt [arrayInitializer, expression]
  | .arrayInitializer => inBraces (commas initializer)
  | .block => node .block (inBraces (many blockStatement))
  | .blockStatement => alt [
      typeDeclaration,
      seq ["yield", absent (oneOf ["=", ".", "[", "++", "--"]), expression, ";"],
      seq [opt modifiers, type, declarators, ";"],
      statement,
      seq [absent "\x7d", any]]
  | .statement => alt [
      block,
      ";",
      seq ["if", inParentheses expression, statement, opt (seq ["else", statement])],
      seq ["while", inParentheses expression, statement],
      seq ["do", statement, "while", inParentheses expression, ";"],
      seq ["for", inParentheses (alt [
          seq [opt modifiers, type, ident, dims, ":", expression],
          seq [opt (alt [seq [opt modifiers, type, declarators], listOf .expression]),
            ";", opt expression, ";", opt (listOf .expression)]]),
        statement],
      seq ["try", opt (inParentheses (seq [sepBy (alt [
            seq [opt modifiers, type, ident, "=", expression],
            expression]) ";", opt ";"])),
        block,
        many (seq ["catch", inParentheses (seq [opt modifiers, sepBy type "|", ident]), block]),
        opt (seq ["finally", block])],
      seq ["switch", inParentheses expression, switchBody],
      seq ["synchronized", inParentheses expression, block],
      seq [oneOf ["return", "break", "continue"], opt expression, ";"],
      seq ["throw", expression, ";"],
      seq ["assert", expression, opt (seq [":", expression]), ";"],
      seq [ident, ":", statement],
      seq [expression, ";"]]
  | .switchBody => inBraces (many (alt [
      seq [caseLabel, "->", alt [block, seq ["throw", expression, ";"], seq [expression, ";"]]],
      seq [caseLabel, ":"],
      blockStatement]))
  | .caseLabel => alt [
      seq ["case", sepBy (alt [seq [pattern, ahead (oneOf [",", ":", "->", "when"])],
          "default", ternary]) ",",
        opt (seq ["when", ternary])],
      "default"]
  | .pattern => alt [
      seq [type, inParentheses (opt (sepBy pattern ","))],
      seq [opt modifiers, type, ident]]
  | .expression => alt [lambda, seq [ternary, opt (seq [assignOperator, expression])]]
  | .lambda => seq [
      alt [seq [ident, ahead "->"], seq [inParentheses (opt (listOf .ident)), ahead "->"],
        seq [parameters, ahead "->"]],
      "->", alt [block, expression]]
  | .ternary => seq [binary, opt (seq ["?", expression, ":", alt [lambda, ternary]])]
  | .binary => seq [unary, many (alt [
      seq ["instanceof", opt "final", alt [
        seq [pattern, absent "("], type]],
      seq [binaryOperator, unary]])]
  | .unary => alt [seq [oneOf ["+", "-", "++", "--", "!", "~"], unary], cast, selected]
  | .cast => alt [
      seq ["(", oneOf primitives, dims, ")", unary],
      seq ["(", sepBy type "&", ")", castOperand]]
  | .selected => seq [primary, many selector, opt (oneOf ["++", "--"])]
  -- A primary expression. A type counts as one only where it cannot be a name.
  | .primary => alt [
      token .literal,
      oneOf ["true", "false", "null"],
      seq [".", token .literal],
      seq ["switch", inParentheses expression, switchBody],
      seq [oneOf ["this", "super"], opt arguments],
      inParentheses expression,
      seq ["new", creator],
      seq [absent (seq [qualified, "::"]), type, ahead "::"],
      seq [type, ".", "class"],
      seq ["void", ".", "class"],
      seq [node .calledName ident, arguments],
      ident]
  | .selector => alt [
      seq [".", opt typeArguments, node .calledName ident, arguments],
      seq [".", ident],
      seq [".", "new", creator],
      seq [".", oneOf ["this", "super"], opt arguments],
      seq ["[", expression, "]"],
      seq ["::", opt typeArguments, alt ["new", ident]]]
  | .creator => seq [many marker, alt [
      seq [alt [oneOf primitives, classType], many1 (seq ["[", expression, "]"]), dims],
      seq [alt [oneOf primitives, classType], many1 (seq ["[", "]"]), arrayInitializer],
      seq [opt typeArguments, classType, arguments, opt classBody]]]
  | .arguments => inParentheses (opt (listOf .expression))

/-- A grammar of the constructs the reader looks at. -/
def grammar : Grammar Name Part := ⟨reserved, rule⟩

def spelling : Spelling where
  symbols := ["...", "<<=", "->", "::", "++", "--", "&&", "||", "==", "!=", "<=", "<<", "+=", "-=",
    "*=", "/=", "%=", "&=", "|=", "^="]
  nestedComments := false
  templates := false

/-- The trees of a text. -/
def trees (text : String) : List (Tree Part) := grammar.read (.ref .unit) (tokens spelling text)

end Deadwood.Java
