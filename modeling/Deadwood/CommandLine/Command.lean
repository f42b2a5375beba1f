import Deadwood.CommandLine.Arguments
import Deadwood.Path

/-!
# Commands

What the program can be asked to do, and how it is asked.
-/

namespace Deadwood

/-- How a report is printed. -/
inductive ReportFormat where
  | terminal
  | json
deriving Repr, DecidableEq

/-- What `scan` and `clean` have in common. -/
structure ProjectOptions where
  path : Path
  config : Option Path := none
  exclude : List String := []
  entries : List String := []
  noSecurity : Bool := false
  format : ReportFormat := .terminal
  output : Option Path := none

/-- A command with its arguments. -/
inductive Command where
  | scan (project : ProjectOptions) (ci : Bool) (threshold : Option Binary64)
  | clean (project : ProjectOptions) (dryRun confirmed : Bool) (remove : List Path)
  | restore (id : String) (path : Path) (format : ReportFormat)
  | purge (id : String) (path : Path) (format : ReportFormat) (confirmed : Bool)
  | sessions (path : Path) (format : ReportFormat)

namespace Command

/-! ## Shapes -/

def commonOptions : List Parameter :=
  [{ name := "verbose", letter := some 'v' }, { name := "quiet", letter := some 'q' }]

def formatOption : Parameter :=
  { name := "format", letter := some 'f', kind := some (.oneOf ["terminal", "json"]) }

def yesOption : Parameter := { name := "yes", letter := some 'y' }

def projectOptions : List Parameter :=
  [{ name := "config", letter := some 'c', kind := some .path },
    { name := "exclude", letter := some 'e', kind := some .text, repeats := true },
    { name := "entry", kind := some .text, repeats := true },
    { name := "no-security" },
    formatOption,
    { name := "output", letter := some 'o', kind := some .path }]

def scanOptions : List Parameter :=
  projectOptions ++ [{ name := "ci" }, { name := "threshold", kind := some .number }]

def pathArgument : Parameter := { name := "path", kind := some .path }

def idArgument : Parameter := { name := "id", kind := some .text }

def names : List String := ["scan", "clean", "restore", "purge", "sessions"]

def programShape : CommandShape where
  options := scanOptions ++ commonOptions
  positionals := [pathArgument]
  subcommands := names ++ ["help"]
  hasVersion := true

def shapeOf (name : String) : CommandShape :=
  match name with
  | "scan" => { options := scanOptions ++ commonOptions, positionals := [pathArgument] }
  | "clean" =>
    { options := projectOptions ++ [{ name := "dry-run" }, yesOption,
        { name := "remove", kind := some .path, repeats := true }] ++ commonOptions
      positionals := [pathArgument] }
  | "restore" =>
    { options := formatOption :: commonOptions, positionals := [idArgument, pathArgument], required := 1 }
  | "purge" =>
    { options := formatOption :: yesOption :: commonOptions, positionals := [idArgument, pathArgument]
      required := 1 }
  | _ => { options := formatOption :: commonOptions, positionals := [pathArgument] }

/-! ## Values -/

variable (values : ArgumentValues)

def value? (name : String) : Option String := values.lookup name

def valuesOf (name : String) : List String :=
  (values.filter (·.1 == name)).map (·.2)

def isSet (name : String) : Bool := (value? values name).isSome

def pathOf : Path := ⟨(value? values "path").getD "."⟩

def formatOf : ReportFormat :=
  if value? values "format" == some "json" then .json else .terminal

def projectOf : ProjectOptions where
  path := pathOf values
  config := (value? values "config").map Path.mk
  exclude := valuesOf values "exclude"
  entries := valuesOf values "entry"
  noSecurity := isSet values "no-security"
  format := formatOf values
  output := (value? values "output").map Path.mk

def ofValues (name : String) (values : ArgumentValues) : Command :=
  let id := (value? values "id").getD ""
  match name with
  | "clean" =>
    .clean (projectOf values) (isSet values "dry-run") (isSet values "yes")
      ((valuesOf values "remove").map Path.mk)
  | "restore" => .restore id (pathOf values) (formatOf values)
  | "purge" => .purge id (pathOf values) (formatOf values) (isSet values "yes")
  | "sessions" => .sessions (pathOf values) (formatOf values)
  | _ =>
    .scan (projectOf values) (isSet values "ci") ((value? values "threshold").bind Binary64.read?)

/-- What is wrong with a request for help: nothing but that it is one, unless it asks about what is
not a command. -/
def helpAbout : List String → UsageError
  | [] => .help
  | [name] => if (names ++ ["help"]).contains name then .help else .unknownCommand
  | _ => .unknownCommand

def read (arguments : List String) : Except UsageError Command := do
  match ← programShape.read arguments with
  | (values, none) => .ok (ofValues "scan" values)
  | (_, some ("help", about)) => .error (helpAbout about)
  | (_, some (name, arguments)) =>
    let (values, _) ← (shapeOf name).read arguments
    .ok (ofValues name values)

end Command

end Deadwood
