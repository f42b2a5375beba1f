import Deadwood.Path

/-!
# Languages

The languages that source files are written in, and how a file shows which: by its extension, by
its name, or by the interpreter its first line names.
-/

namespace Deadwood

open Text

/-- The languages told apart. -/
inductive Language where
  | javaScript
  | typeScript
  | python
  | go
  | rust
  | java
  | kotlin
  | c
  | cpp
  | cSharp
  | php
  | ruby
  | swift
  | dart
  | lua
  | shell
  | html
  | css
  | unknown
deriving Repr, DecidableEq, Inhabited

namespace Language

def all : List Language :=
  [javaScript, typeScript, python, go, rust, java, kotlin, c, cpp, cSharp, php, ruby, swift, dart,
    lua, shell, html, css, unknown]

def name : Language → String
  | javaScript => "javascript"
  | typeScript => "typescript"
  | python => "python"
  | go => "go"
  | rust => "rust"
  | java => "java"
  | kotlin => "kotlin"
  | c => "c"
  | cpp => "cpp"
  | cSharp => "csharp"
  | php => "php"
  | ruby => "ruby"
  | swift => "swift"
  | dart => "dart"
  | lua => "lua"
  | shell => "shell"
  | html => "html"
  | css => "css"
  | unknown => "unknown"

def ofName? (name : String) : Option Language := all.find? (·.name == name)

def ofExtension? (ext : String) : Option Language :=
  match ext with
  | "js" | "jsx" | "mjs" | "cjs" => some javaScript
  | "ts" | "tsx" | "mts" | "cts" => some typeScript
  | "py" | "pyi" => some python
  | "go" => some go
  | "rs" => some rust
  | "java" => some java
  | "kt" | "kts" => some kotlin
  | "c" | "h" | "m" => some c
  | "cc" | "cpp" | "cxx" | "c++" | "hpp" | "hh" | "hxx" | "mm" => some cpp
  | "cs" => some cSharp
  | "php" => some php
  | "rb" | "rake" => some ruby
  | "swift" => some swift
  | "dart" => some dart
  | "lua" => some lua
  | "sh" | "bash" | "zsh" => some shell
  | "html" | "htm" => some html
  | "css" | "scss" | "sass" | "less" => some css
  | _ => none

def asciiLowerText (s : String) : String := String.ofList (s.toList.map asciiLower)

def ofPath? (path : Path) : Option Language := do
  let name ← path.fileName?
  if name == "Rakefile" || name == "Gemfile" || name == "config.ru" then return ruby
  let ext ← path.extension?
  ofExtension? (asciiLowerText ext)

def ofInterpreter? (program : String) : Option Language :=
  match program with
  | "python" => some python
  | "node" | "deno" | "bun" => some javaScript
  | "ts-node" | "tsx" => some typeScript
  | "bash" | "sh" | "zsh" | "dash" | "ksh" => some shell
  | "ruby" => some ruby
  | "lua" | "luajit" => some lua
  | "php" => some php
  | _ => none

def ofShebang? (line : String) : Option Language := do
  let command ← dropHead? line "#!"
  let program ← (words command).head?
  let program ←
    if endsWith program "/env" then
      (words command).tail.find? (!startsWith · "-")
    else (splitAt '/' program).getLast?
  ofInterpreter? (trimEndWhere (fun c => isAsciiDigit c || c == '.') program)

/-- Files of the language are referred to by path, never by the names they declare. -/
def isAsset : Language → Bool
  | html | css => true
  | _ => false

/-- Files of the language find each other by package and type rather than by path. -/
def resolvesByIdentity : Language → Bool
  | java | kotlin | cSharp | swift => true
  | _ => false

def implicitExtensions : Language → List String
  | javaScript | typeScript =>
    ["ts", "tsx", "d.ts", "js", "jsx", "mjs", "cjs", "mts", "cts", "vue", "svelte", "json"]
  | python => ["py", "pyi"]
  | ruby => ["rb"]
  | lua => ["lua"]
  | php => ["php"]
  | dart => ["dart"]
  | shell => ["sh", "bash"]
  | css => ["css", "scss", "sass", "less"]
  | _ => []

def isReadable (l : Language) : Bool := l != unknown

end Language

end Deadwood
