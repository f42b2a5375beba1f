import Deadwood.Security.Weakness
import Deadwood.Source.Unit

/-!
# Alerts

An alert says that a line of a file has a weakness, how grave it is there, and whether the file is
dead.
-/

namespace Deadwood

/-- A weakness found in a line. -/
structure Alert where
  file : Path
  line : Nat
  severity : Severity
  intrinsic : Severity
  category : String
  cwe : String
  cweName : String
  description : String
  risk : String
  zone : Option String
  inDeadCode : Bool := false

namespace Alert

/-- Longer lines, counted in bytes, are not looked at: nobody wrote them by hand. -/
def maxLineLength : Nat := 4096

def ofWeakness (file : Path) (zone : Option Zone) (line : Nat) (w : Weakness) : Alert where
  file
  line
  severity := match zone with
    | some zone => w.severity.max zone.floor
    | none => w.severity
  intrinsic := w.severity
  category := w.category
  cwe := w.cwe
  cweName := w.cweName
  description := w.description
  risk := w.risk
  zone := zone.map (·.category)

def weaknessesOf (catalog : List Weakness) (line : String) : List Weakness :=
  if line.utf8ByteSize > maxLineLength then [] else catalog.filter (·.holds line)

def ofText (catalog : List Weakness) (file : Path) (text : String) : List Alert :=
  let zone := Zone.around? file
  (Text.lines text).zipIdx.flatMap fun (line, i) =>
    (weaknessesOf catalog line).map (ofWeakness file zone (i + 1))

/-- The graver alert comes first, then the one in the file that comes first, then the one on the
line that comes first. -/
def le (a b : Alert) : Bool :=
  if a.severity.rank != b.severity.rank then b.severity.rank ≤ a.severity.rank
  else
    match a.file.compare b.file with
    | .lt => true
    | .gt => false
    | .eq => a.line ≤ b.line

end Alert

/-- The alerts, the gravest first. -/
structure SecurityReport where
  total : Nat
  inDeadCode : Nat
  inLiveCode : Nat
  alerts : List Alert

namespace SecurityReport

def deadCodeAlerts (r : SecurityReport) : List Alert := r.alerts.filter (·.inDeadCode)

def ofAlerts (dead : List Path) (alerts : List Alert) : SecurityReport :=
  let alerts := (alerts.map fun a => { a with inDeadCode := dead.contains a.file }).mergeSort Alert.le
  let inDeadCode := alerts.countP (·.inDeadCode)
  { total := alerts.length, inDeadCode, inLiveCode := alerts.length - inDeadCode, alerts }

def ofUnits (catalog : List Weakness) (dead : List Path) (units : List (SourceUnit × String)) :
    SecurityReport :=
  ofAlerts dead (units.flatMap fun (u, text) => Alert.ofText catalog u.relative text)

end SecurityReport

end Deadwood
