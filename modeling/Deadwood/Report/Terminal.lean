import Deadwood.Cleanup.Clean
import Deadwood.Report.Summary

/-!
# Reports for people

The reports as lines of text, with or without colours.
-/

namespace Deadwood

/-! ## Styles -/

/-- The colours used. -/
inductive Colour where
  | red
  | green
  | yellow
  | blue
  | cyan
  | white
deriving Repr, DecidableEq

def Colour.code : Colour → String
  | red => "31"
  | green => "32"
  | yellow => "33"
  | blue => "34"
  | cyan => "36"
  | white => "37"

/-- How a text is set off. -/
structure Style where
  bold : Bool := false
  dim : Bool := false
  colour : Option Colour := none

namespace Style

def reset : String := "\x1b[0m"

def start (s : Style) : String :=
  let codes := (if s.bold then ["1"] else []) ++ (if s.dim then ["2"] else []) ++
    (s.colour.map Colour.code).toList
  "\x1b[" ++ Text.join ";" codes ++ "m"

/-- A text in a style, if colours are on. The style goes on after an end of style within the text. -/
def paint (colours : Bool) (s : Style) (text : String) : String :=
  if colours then s.start ++ Text.replace text reset (reset ++ s.start) ++ reset else text

def plain (c : Colour) : Style := { colour := some c }

def strong (c : Colour) : Style := { bold := true, colour := some c }

def dimmed : Style := { dim := true }

end Style

/-! ## Parts -/

/-- Divides by 1024 until the value is below 1024 or there is no larger unit. -/
def scaleBytes (value : Binary64) : (units : List String) → (unit : String) → Binary64 × String
  | [], unit => (value, unit)
  | next :: units, unit =>
    let limit := Binary64.ofNat 1024
    if value.lt limit then (value, unit) else scaleBytes (value.div limit) units next

def humanBytes (bytes : Nat) : String :=
  match scaleBytes (.ofNat bytes) ["KB", "MB", "GB"] "B" with
  | (_, "B") => toString bytes ++ " B"
  | (value, unit) => value.fixed 1 ++ " " ++ unit

def Severity.style : Severity → Style
  | critical => .strong .red
  | high => .plain .red
  | medium => .plain .yellow
  | low => .plain .blue

namespace Terminal

def render (lines : List String) : String := String.join (lines.map (· ++ "\n"))

def maxAlerts : Nat := 25

variable (colours : Bool)

def alertLine (a : Alert) : String :=
  let raised := match a.zone with
    | some zone =>
      if a.intrinsic.rank < a.severity.rank then
        Style.paint colours .dimmed (" (raised from " ++ a.intrinsic.name ++ " near " ++ zone ++ ")")
      else ""
    | none => ""
  let dead := if a.inDeadCode then Style.paint colours (.strong .red) " [DEAD]" else ""
  "  " ++ Style.paint colours a.severity.style a.severity.name ++ " " ++ a.file.text ++ ":" ++
    toString a.line ++ " [" ++ Style.paint colours .dimmed a.cwe ++ "] " ++ a.description ++ raised ++ dead

def alertLines (alerts : List Alert) : List String :=
  if alerts.isEmpty then []
  else
    let rest := alerts.length - maxAlerts
    ["", Style.paint colours (.strong .yellow) ("Security findings (" ++ toString alerts.length ++ "):")] ++
      (alerts.take maxAlerts).map (alertLine colours) ++
      (if rest > 0 then
        ["  " ++ Style.paint colours .dimmed
          ("... and " ++ toString rest ++ " more (use --format json for all)")]
      else [])

def deadFileLines (files : List DeadFile) : List String :=
  if files.isEmpty then []
  else
    ["", Style.paint colours (.strong .yellow) ("Found " ++ toString files.length ++ " dead files:")] ++
      files.map fun d =>
        "  " ++ Style.paint colours (.plain .cyan) d.file.text ++ " " ++
          Style.paint colours .dimmed ("(" ++ toString d.lines ++ " lines, " ++ humanBytes d.size ++ ")")

def partialFileLines (files : List PartialFile) : List String :=
  if files.isEmpty then []
  else
    ["", Style.paint colours (.strong .yellow)
      ("Unused exports in " ++ toString files.length ++ " live files:")] ++
      files.flatMap fun p =>
        ("  " ++ Style.paint colours (.plain .cyan) p.file.text) ::
          p.deadExports.map fun name =>
            "    " ++ Style.paint colours .dimmed "→" ++ " " ++ Style.paint colours (.plain .white) name

def summaryLines (r : ScanReport) : List String :=
  let s := r.summary
  ["", Style.paint colours .dimmed (String.ofList (List.replicate 60 '─')),
    "Files: " ++ toString s.totalFiles ++ " total, " ++ toString s.entryPoints ++ " entry points, " ++
      toString s.reachableFiles ++ " reachable, " ++
      Style.paint colours (.plain .red) (toString s.deadFiles ++ " dead (" ++ s.deadRate.fixed 1 ++ "%)")] ++
    (if s.deadFiles > 0 then ["Dead code size: " ++ humanBytes s.totalDeadBytes] else []) ++
    (if s.partialFiles > 0 then ["Files with unused exports: " ++ toString s.partialFiles] else []) ++
    (r.security.map fun security =>
      "Security: " ++ toString security.total ++ " findings, " ++
        Style.paint colours (.plain .red) (toString security.inDeadCode) ++ " in dead code").toList ++
    (r.unresolvedImports.map fun n =>
      Style.paint colours .dimmed (toString n ++ " imports could not be resolved")).toList

def scan (r : ScanReport) : String :=
  render ((if r.hasDeadCode then [] else [Style.paint colours (.strong .green) "No dead code found!"]) ++
    deadFileLines colours r.deadFiles ++ partialFileLines colours r.partialFiles ++
    ((r.security.map fun security => alertLines colours security.alerts).getD []) ++
    summaryLines colours r)

def successLine (path : Path) : String :=
  "  " ++ Style.paint colours (.plain .green) "✓" ++ " " ++ path.text

def failureLine (f : FileFailure) : String :=
  "  " ++ Style.paint colours (.plain .red) "✗" ++ " " ++ f.path.text ++ ": " ++ f.reason

def clean (colours : Bool) (r : CleanReport) : String :=
  if r.filesRemoved == 0 && r.failed.isEmpty then
    render [Style.paint colours (.plain .green) "No dead files to clean."]
  else
    let header :=
      if r.dryRun then Style.paint colours (.strong .yellow) "Dry run - would quarantine:"
      else Style.paint colours (.strong .cyan) "Quarantined:"
    render (["", header] ++ r.files.map (successLine colours) ++ r.failed.map (failureLine colours) ++
      ["", toString r.filesRemoved ++ " files, " ++ humanBytes r.bytesRemoved ++ " removed; " ++
        toString r.importsPruned ++ " imports and " ++ toString r.reExportsPruned ++
        " barrel exports scrubbed"] ++
      (r.sessionId.map fun id =>
        Style.paint colours .dimmed "→" ++ " Undo with: deadfiles restore " ++
          Style.paint colours (.strong .white) id).toList)

def statusText (s : SessionStatus) : String :=
  s.name ++ String.ofList (List.replicate (8 - s.name.length) ' ')

def sessionLine (r : SessionRecord) : String :=
  let style : Style := match r.status with
    | .active => .plain .yellow
    | .restored => .plain .green
  Style.paint colours (.strong .white) r.id ++ "  " ++ r.createdAt.text ++ "  " ++
    Style.paint colours style (statusText r.status) ++ "  " ++ toString r.fileCount ++ " files, " ++
    humanBytes r.totalSize

def sessions (colours : Bool) (records : List SessionRecord) : String :=
  if records.isEmpty then render [Style.paint colours .dimmed "No quarantine sessions."]
  else render (records.map (sessionLine colours))

def restore (id : String) (r : Quarantine.RestoreReport) : String :=
  render (r.restored.map (successLine colours) ++ r.failed.map (failureLine colours) ++
    ["Session " ++ Style.paint colours (.strong .white) id ++ ": " ++ toString r.restored.length ++
      " restored, " ++ toString r.failed.length ++ " failed"])

def purge (id : String) (count : Nat) : String :=
  render ["Session " ++ Style.paint colours (.strong .white) id ++ " purged (" ++ toString count ++
    " files permanently deleted)"]

end Terminal

end Deadwood
