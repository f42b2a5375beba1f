import Deadwood.Data.Toml.Scalar

/-!
# TOML

Documents of the TOML format: tables of named values. A table is written below a header, as dotted
keys, or between braces; once written it may not be written again, though a header may add tables
below it.
-/

namespace Deadwood

/-- A TOML value. -/
inductive Toml where
  | scalar (s : Toml.Scalar)
  | array (items : List Toml)
  | table (fields : List (String × Toml))
deriving Inhabited

namespace Toml

def get? (name : String) : Toml → Option Toml
  | table fields => fields.lookup name
  | _ => none

def text? : Toml → Option String
  | scalar (.string s) => some s
  | _ => none

def items? : Toml → Option (List Toml)
  | array items => some items
  | _ => none

def fields? : Toml → Option (List (String × Toml))
  | table fields => some fields
  | _ => none

/-- How a table came about. -/
inductive Origin where
  | header
  | path
  | dotted
deriving DecidableEq

/-- A value or table under construction. -/
inductive Entry where
  | value (v : Toml)
  | table (origin : Origin) (fields : List (String × Entry))
  /-- A list of tables with a header each, the latest first. -/
  | tables (list : List (List (String × Entry)))

/-- The fields of a table under construction. -/
abbrev Fields := List (String × Entry)

def put (name : String) (e : Entry) : Fields → Fields
  | [] => [(name, e)]
  | (n, f) :: rest => if n == name then (name, e) :: rest else (n, f) :: put name e rest

/-- Changes the table that a header's path leads to; tables that are not there are made. -/
def atPath? (change : Fields → Option Fields) : List String → Fields → Option Fields
  | [], fields => change fields
  | key :: path, fields =>
    match fields.lookup key with
    | none => (atPath? change path []).map fun inner => put key (.table .path inner) fields
    | some (.value _) => none
    | some (.table origin inner) =>
      (atPath? change path inner).map fun inner => put key (.table origin inner) fields
    | some (.tables []) => none
    | some (.tables (last :: earlier)) =>
      (atPath? change path last).map fun last => put key (.tables (last :: earlier)) fields

/-- Adds a value under a dotted key, the innermost part of which is `key`. -/
def addDotted? (key : String) (v : Toml) : (path : List String) → Fields → Option Fields
  | [], fields =>
    if (fields.lookup key).isSome then none else some (fields ++ [(key, .value v)])
  | name :: path, fields =>
    -- the innermost table has to be one that dotted keys made
    let last := path.isEmpty
    match fields.lookup name with
    | none => (addDotted? key v path []).map fun inner => put name (.table .dotted inner) fields
    | some (.value _) => none
    | some (.table origin inner) =>
      if origin == .header || (last && origin != .dotted) then none
      else (addDotted? key v path inner).map fun inner => put name (.table origin inner) fields
    | some (.tables []) => none
    | some (.tables (innermost :: earlier)) =>
      if last then none
      else (addDotted? key v path innermost).map fun t => put name (.tables (t :: earlier)) fields

def openTable? (key : String) (fields : Fields) : Option Fields :=
  match fields.lookup key with
  | none => some (put key (.table .header []) fields)
  | some (.table .path inner) => some (put key (.table .header inner) fields)
  | _ => none

def openListed? (key : String) (fields : Fields) : Option Fields :=
  match fields.lookup key with
  | none => some (put key (.tables [[]]) fields)
  | some (.tables list) => some (put key (.tables ([] :: list)) fields)
  | _ => none

mutual

def Entry.toToml : Entry → Toml
  | .value v => v
  | .table _ fields => .table (fieldsToToml fields)
  | .tables list => .array (tablesToToml list).reverse

def fieldsToToml : List (String × Entry) → List (String × Toml)
  | [] => []
  | (name, e) :: rest => (name, e.toToml) :: fieldsToToml rest

def tablesToToml : List (List (String × Entry)) → List Toml
  | [] => []
  | fields :: rest => .table (fieldsToToml fields) :: tablesToToml rest

end

/-! ## Reading -/

def isKeyChar (c : Char) : Bool := Text.isAsciiAlphanumeric c || c == '_' || c == '-'

variable (cs : List Char)

def readKeyPart? : Option (String × List Char) :=
  match cs with
  | '"' :: rest => readLine? '"' (rest.length + 1) [] rest
  | '\'' :: rest => readLine? '\'' (rest.length + 1) [] rest
  | _ =>
    let part := cs.takeWhile isKeyChar
    if part.isEmpty then none else some (String.ofList part, cs.dropWhile isKeyChar)

def readKey? : (fuel : Nat) → (read : List String) → List Char → Option (List String × List Char)
  | 0, _, _ => none
  | fuel + 1, read, cs =>
    match readKeyPart? (cs.dropWhile isGap) with
    | none => none
    | some (part, rest) =>
      match rest.dropWhile isGap with
      | '.' :: rest => readKey? fuel (part :: read) rest
      | rest => some ((part :: read).reverse, rest)

def skipComment? : Option (List Char) :=
  match cs with
  | '#' :: rest =>
    let rest := rest.dropWhile isPrintable
    if rest.isEmpty || (afterBreak? rest).isSome then some rest else none
  | _ => some cs

def skipLines? : (fuel : Nat) → List Char → Option (List Char)
  | 0, cs => some cs
  | fuel + 1, cs =>
    match skipComment? (cs.dropWhile isGap) with
    | none => none
    | some rest =>
      match afterBreak? rest with
      | some rest => skipLines? fuel rest
      | none => some rest

def readPair? (value : List Char → Option (Toml × List Char)) (cs : List Char) :
    Option ((List String × Toml) × List Char) := do
  let (key, rest) ← readKey? (cs.length + 1) [] cs
  let rest ← after? '=' (rest.dropWhile isGap)
  let (v, rest) ← value (rest.dropWhile isGap)
  return ((key, v), rest)

def readItems? (value : List Char → Option (Toml × List Char)) :
    (fuel : Nat) → (read : List Toml) → List Char → Option (List Toml × List Char)
  | 0, _, _ => none
  | fuel + 1, read, cs =>
    match skipLines? (cs.length + 1) cs with
    | none => none
    | some (']' :: rest) => some (read.reverse, rest)
    | some cs =>
      match value cs with
      | none => none
      | some (item, rest) =>
        match skipLines? (rest.length + 1) rest with
        | some (',' :: rest) => readItems? value fuel (item :: read) rest
        | some (']' :: rest) => some ((item :: read).reverse, rest)
        | _ => none

def addPair? (key : List String) (v : Toml) (fields : Fields) : Option Fields :=
  match key.getLast? with
  | none => none
  | some last => addDotted? last v key.dropLast fields

def readInline? (value : List Char → Option (Toml × List Char)) :
    (fuel : Nat) → Fields → List Char → Option (Fields × List Char)
  | 0, _, _ => none
  | fuel + 1, fields, cs =>
    match readPair? value cs with
    | none => none
    | some ((key, v), rest) =>
      match addPair? key v fields with
      | none => none
      | some fields =>
        match rest.dropWhile isGap with
        | ',' :: rest => readInline? value fuel fields rest
        | '\x7d' :: rest => some (fields, rest)
        | _ => none

/-- Reads a value that starts here. Lists and tables between braces nest less deep than `depth`. -/
def readValue? : (depth : Nat) → List Char → Option (Toml × List Char)
  | 0, _ => none
  | depth + 1, cs =>
    match cs with
    | '"' :: _ | '\'' :: _ => (readQuoted? cs).map fun (s, rest) => (.scalar (.string s), rest)
    | '[' :: rest => (readItems? (readValue? depth) (rest.length + 1) [] rest).map fun (items, rest) =>
        (.array items, rest)
    | '\x7b' :: rest =>
      match rest.dropWhile isGap with
      | '\x7d' :: rest => some (.table [], rest)
      | rest => (readInline? (readValue? depth) (rest.length + 1) [] rest).map fun (fields, rest) =>
          (.table (fieldsToToml fields), rest)
    | _ => (readWord? cs).map fun (s, rest) => (.scalar s, rest)

def depthLimit : Nat := 80

def readHeader? : Option (List String × Bool × List Char) := do
  let (listed, rest) := match cs with
    | '[' :: rest => (true, rest)
    | _ => (false, cs)
  let (path, rest) ← readKey? (rest.length + 1) [] rest
  let rest ← after? ']' (rest.dropWhile isGap)
  let rest ← if listed then after? ']' rest else some rest
  return (path, listed, rest)

def readLineEnd? : Option (List Char) := do
  let rest ← skipComment? (cs.dropWhile isGap)
  if rest.isEmpty then some [] else afterBreak? rest

def readLines : (fuel : Nat) → (header : List String) → Fields → List Char → Option Fields
  | 0, _, _, _ => none
  | fuel + 1, header, fields, cs =>
    match skipLines? (cs.length + 1) cs with
    | none => none
    | some [] => some fields
    | some ('[' :: rest) => do
      let (path, listed, rest) ← readHeader? rest
      let last ← path.getLast?
      let fields ← atPath? (if listed then openListed? last else openTable? last) path.dropLast fields
      readLines fuel path fields (← readLineEnd? rest)
    | some cs => do
      let ((key, v), rest) ← readPair? (readValue? depthLimit) cs
      let fields ← atPath? (addPair? key v) header fields
      readLines fuel header fields (← readLineEnd? rest)

def read? (text : String) : Option Toml :=
  let cs := text.toList
  let cs := if cs.head?.any (·.toNat == 0xfeff) then cs.tail else cs
  (readLines (cs.length + 1) [] [] cs).map fun fields => .table (fieldsToToml fields)

end Toml

end Deadwood
