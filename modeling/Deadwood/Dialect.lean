import Deadwood.Dialect.CFamily
import Deadwood.Dialect.CSharp
import Deadwood.Dialect.Dart
import Deadwood.Dialect.Go
import Deadwood.Dialect.Java
import Deadwood.Dialect.Kotlin
import Deadwood.Dialect.Lua
import Deadwood.Dialect.Markup
import Deadwood.Dialect.Php
import Deadwood.Dialect.Python
import Deadwood.Dialect.Ruby
import Deadwood.Dialect.Rust
import Deadwood.Dialect.Shell
import Deadwood.Dialect.Swift

/-!
# Reading a file of any language

* `Language.read`: what a text of a language holds;
* `Language.entryReason?`: why the language's conventions may load a file from outside;
* `SourceUnit.ofText`: the unit of a text as if it were a file of the project.
-/

namespace Deadwood

namespace Language

/-- Reads a text by the rules of its language. -/
def read [TreeReader] (language : Language) (place : Place) (text : String) : Except Fault Summary :=
  match language with
  | javaScript => EcmaScript.read false place text
  | typeScript => EcmaScript.read true place text
  | python => Python.read place text
  | go => Go.read place text
  | rust => Rust.read place text
  | java => .ok (Java.read place text)
  | kotlin => .ok (Kotlin.read place text)
  | c => CFamily.read false place text
  | cpp => CFamily.read true place text
  | cSharp => CSharp.read place text
  | php => Php.read place text
  | ruby => Ruby.read place text
  | swift => Swift.read place text
  | dart => Dart.read place text
  | lua => Lua.read place text
  | shell => .ok (Shell.read place text)
  | html => Markup.readDocument place text
  | css => Markup.readSheet text
  | unknown => .ok {}

/-- Why a file of the language is an entry point by itself. -/
def entryReason? (language : Language) (u : SourceUnit) : Option EntryReason :=
  match language with
  | javaScript | typeScript => EcmaScript.entryReason? u
  | python => Python.entryReason? u
  | rust => Rust.entryReason? u
  | java => Java.entryReason? u
  | kotlin => Kotlin.entryReason? u
  | cSharp => CSharp.entryReason? u
  | php => Php.entryReason? u
  | ruby => Ruby.entryReason? u
  | swift => Swift.entryReason? u
  | dart => Dart.entryReason? u
  | lua => Lua.entryReason? u
  | shell => Shell.entryReason? u
  | html => Markup.documentReason? u
  | css => Markup.sheetReason? u
  | _ => none

end Language

namespace SourceUnit

/-- The unit with what its text holds. A text that stops its reader leaves only the reason. -/
def readText [TreeReader] (u : SourceUnit) (text : String) : SourceUnit :=
  if !u.language.isReadable then u
  else
    match u.language.read ⟨u.relative⟩ text with
    | .ok summary =>
      { u with summary := if Text.startsWith text "#!" then summary.setFlag "shebang" else summary }
    | .error fault => u.failed fault.message

/-- The unit of a text as if it were at a path of the project. The language comes from the path, or
else from the interpreter line. -/
def ofText [TreeReader] (path : Path) (text : String) : SourceUnit :=
  let language := (Language.ofPath? path <|> (Text.lines text).head?.bind Language.ofShebang?).getD .unknown
  readText
    { path, relative := path, language
      size := text.utf8ByteSize, lines := (Text.lines text).length } text

end SourceUnit

end Deadwood
