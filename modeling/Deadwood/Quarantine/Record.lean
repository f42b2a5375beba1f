import Deadwood.Data.Json
import Deadwood.Path
import Deadwood.Quarantine.Moment
import Deadwood.Text.Utf8

/-!
# Records of sessions

A session is one batch of files that were set aside. Its record says what was set aside and where
from; it is kept as JSON.
-/

namespace Deadwood

/-- How far a session has come. -/
inductive SessionStatus where
  | active
  | restored
deriving Repr, DecidableEq

def SessionStatus.name : SessionStatus → String
  | active => "active"
  | restored => "restored"

def SessionStatus.ofName? (name : String) : Option SessionStatus :=
  [active, restored].find? (·.name == name)

/-- One file of a session. -/
structure StoredFile where
  home : Path
  stored : Path
  size : Nat
  /-- The file stays in the project with new contents; the session keeps the old ones. -/
  edited : Bool := false
  writtenHash : Option String := none
deriving Repr

/-- What a session writes about itself. -/
structure SessionRecord where
  id : String
  createdAt : Moment
  status : SessionStatus := .active
  files : List StoredFile := []
  fileCount : Nat := 0
  totalSize : Nat := 0
deriving Repr

namespace SessionRecord

variable (r : SessionRecord)

/-- Adds a file. Edited files stay in the project and do not count. -/
def add (f : StoredFile) : SessionRecord :=
  let r := { r with files := r.files ++ [f] }
  if f.edited then r
  else { r with fileCount := r.fileCount + 1, totalSize := r.totalSize + f.size }

def removedFiles : List StoredFile := r.files.filter (!·.edited)

def editedFiles : List StoredFile := r.files.filter (·.edited)

end SessionRecord

/-! ## Writing -/

def StoredFile.toJson (f : StoredFile) : Json :=
  .object ([("originalPath", .string f.home.text), ("quarantinePath", .string f.stored.text),
    ("size", .natural f.size), ("edited", .bool f.edited)] ++
    (f.writtenHash.map fun hash => ("writtenHash", .string hash)).toList)

namespace SessionRecord

def toJson (r : SessionRecord) : Json :=
  .object [("sessionId", .string r.id), ("createdAt", .string r.createdAt.rfc3339),
    ("status", .string r.status.name), ("manifest", .array (r.files.map StoredFile.toJson)),
    ("fileCount", .natural r.fileCount), ("totalSize", .natural r.totalSize)]

def contents (r : SessionRecord) : Bytes := Bytes.ofText r.toJson.pretty

end SessionRecord

/-! ## Reading -/

/-- The values under some names: of an object those under the names, which may not occur twice, of
a list those at their positions. -/
def namedValues? (names : List String) : Json → Option (List (String × Json))
  | .object fields =>
    let known := fields.filter fun (name, _) => names.contains name
    if (known.map (·.1)).eraseDups.length == known.length then some known else none
  | .array items => if items.length ≤ names.length then some (names.zip items) else none
  | _ => none

def truth? : Json → Option Bool
  | .bool b => some b
  | _ => none

/-- The status that a value stands for: its name, or an object with nothing under its name. -/
def SessionStatus.ofJson? : Json → Option SessionStatus
  | .string name => ofName? name
  | .object [(name, .null)] => ofName? name
  | _ => none

def StoredFile.ofJson? (j : Json) : Option StoredFile := do
  let values ← namedValues? ["originalPath", "quarantinePath", "size", "edited", "writtenHash"] j
  let home ← (← values.lookup "originalPath").text?
  let stored ← (← values.lookup "quarantinePath").text?
  let size ← (← values.lookup "size").natural?
  let edited ← match values.lookup "edited" with
    | none => some false
    | some value => truth? value
  let writtenHash ← match values.lookup "writtenHash" with
    | none | some .null => some none
    | some value => value.text?.map some
  return ⟨⟨home⟩, ⟨stored⟩, size, edited, writtenHash⟩

namespace SessionRecord

def ofJson? (j : Json) : Option SessionRecord := do
  let values ← namedValues? ["sessionId", "createdAt", "status", "manifest", "fileCount", "totalSize"] j
  let id ← (← values.lookup "sessionId").text?
  let createdAt ← Moment.read? (← (← values.lookup "createdAt").text?)
  let status ← SessionStatus.ofJson? (← values.lookup "status")
  let files ← (← (← values.lookup "manifest").items?).mapM StoredFile.ofJson?
  let fileCount ← (← values.lookup "fileCount").natural?
  let totalSize ← (← values.lookup "totalSize").natural?
  return ⟨id, createdAt, status, files, fileCount, totalSize⟩

def ofContents? (contents : Bytes) : Option SessionRecord :=
  (contents.text?.bind Json.read?).bind ofJson?

end SessionRecord

end Deadwood
