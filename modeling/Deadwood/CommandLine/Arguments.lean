import Deadwood.Number.Decimal

/-!
# Arguments

A command takes options, which are given by name and may have a value, and arguments that are given
by their position. Arguments are read from left to right.
-/

namespace Deadwood

/-- What is wrong with an argument list. -/
inductive UsageError where
  | help
  | version
  | unknownArgument
  | conflict
  | invalidValue
  | malformedValue
  | needlessValue
  | missingArgument
  | unknownCommand
deriving Repr, DecidableEq

/-- The values a parameter takes. -/
inductive ValueKind where
  | text
  | path
  | number
  | oneOf (words : List String)
deriving Repr, DecidableEq

def ValueKind.check (value : String) : ValueKind → Except UsageError Unit
  | text => .ok ()
  | path => if value.isEmpty then .error .invalidValue else .ok ()
  | number => if (Binary64.read? value).isSome then .ok () else .error .malformedValue
  | oneOf words => if words.contains value then .ok () else .error .invalidValue

/-- An option, switch or positional argument. -/
structure Parameter where
  /-- Its name, which is written after two hyphens if it is an option. -/
  name : String
  letter : Option Char := none
  kind : Option ValueKind := none
  repeats : Bool := false

/-- The parameters of one command. -/
structure CommandShape where
  options : List Parameter
  positionals : List Parameter := []
  required : Nat := 0
  /-- The words that start another command, if they stand before all else. -/
  subcommands : List String := []
  hasVersion : Bool := false

/-- The values read, by parameter. -/
abbrev ArgumentValues := List (String × String)

/-- The state of a reading of arguments. -/
structure ArgumentReading where
  values : ArgumentValues := []
  /-- A parameter whose value has not been checked, with the value if it is there. -/
  pending : Option (Parameter × Option String) := none
  awaiting : Bool := false
  position : Nat := 0
  found : Bool := false
  escaped : Bool := false

namespace ArgumentReading

variable (r : ArgumentReading)

def accept (p : Parameter) (value : String) : Except UsageError ArgumentReading := do
  if !p.repeats && r.values.any (·.1 == p.name) then .error .conflict
  else
    (p.kind.getD .text).check value
    .ok { r with values := r.values ++ [(p.name, value)] }

def settle : Except UsageError ArgumentReading :=
  match r.pending with
  | none => .ok r
  | some (_, none) => .error .invalidValue
  | some (p, some value) => { r with pending := none, awaiting := false }.accept p value

def switch (name : String) : Except UsageError ArgumentReading := do
  (← r.settle).accept { name } "true"

def option (p : Parameter) (attached : Option String) :
    Except UsageError ArgumentReading := do
  let r ← r.settle
  match attached with
  | some value => r.accept p value
  | none => .ok { r with pending := some (p, none), awaiting := true }

def stop (e : UsageError) : Except UsageError ArgumentReading := do
  let _ ← r.settle
  .error e

end ArgumentReading

namespace CommandShape

variable (shape : CommandShape) (r : ArgumentReading)

def readLong (name : String) (attached : Option String) :
    Except UsageError ArgumentReading :=
  let r := { r with found := true }
  let isSwitch := name == "help" || (name == "version" && shape.hasVersion)
  match shape.options.find? (·.name == name) with
  | some p =>
    match p.kind, attached with
    | some _, _ => r.option p attached
    | none, some _ => .error .needlessValue
    | none, none => r.switch p.name
  | none =>
    if !isSwitch then .error .unknownArgument
    else if attached.isSome then .error .needlessValue
    else r.stop (if name == "help" then .help else .version)

def readShort (shape : CommandShape) (r : ArgumentReading) :
    List Char → Except UsageError ArgumentReading
  | [] => .ok r
  | c :: cs =>
    match shape.options.find? (·.letter == some c) with
    | some p =>
      let r := { r with found := true }
      match p.kind with
      | none => do readShort shape (← r.switch p.name) cs
      | some _ =>
        match cs with
        | [] => r.option p none
        | '=' :: value => r.option p (some (String.ofList value))
        | value => r.option p (some (String.ofList value))
    | none =>
      if c == 'h' then r.stop .help
      else if c == 'V' && shape.hasVersion then r.stop .version
      else .error .unknownArgument

def readPositional (value : String) :
    Except UsageError ArgumentReading :=
  match shape.positionals[r.position]? with
  | some p => do
    let r ← r.settle
    .ok { r with pending := some (p, some value), position := r.position + 1, found := true }
  | none => .error (if !shape.subcommands.isEmpty && r.found then .conflict else .unknownArgument)

def readArgument (argument : String) :
    Except UsageError ArgumentReading :=
  if r.escaped then shape.readPositional r argument
  else
    match argument.toList with
    | ['-', '-'] => .ok { r with escaped := true }
    | '-' :: '-' :: _ =>
      let body := String.ofList (argument.toList.drop 2)
      match Text.splitOnce? body "=" with
      | some (name, value) => shape.readLong r name (some value)
      | none => shape.readLong r body none
    | '-' :: c :: cs => shape.readShort r (c :: cs)
    | _ =>
      match r.awaiting, r.pending with
      | true, some (p, _) => .ok { r with pending := some (p, some argument), awaiting := false }
      | _, _ => shape.readPositional r argument

/-- Reads all arguments, up to a word that starts another command. Answers the values, and that word
with the arguments after it. -/
def readAll (shape : CommandShape) (r : ArgumentReading) :
    List String → Except UsageError (ArgumentValues × Option (String × List String))
  | [] => do
    let settled ← r.settle
    if settled.position < shape.required then .error .missingArgument else .ok (settled.values, none)
  | argument :: arguments => do
    if !r.escaped && !r.found && shape.subcommands.contains argument then
      .ok ((← r.settle).values, some (argument, arguments))
    else shape.readAll (← shape.readArgument r argument) arguments

def read (arguments : List String) :
    Except UsageError (ArgumentValues × Option (String × List String)) :=
  shape.readAll {} arguments

end CommandShape

end Deadwood
