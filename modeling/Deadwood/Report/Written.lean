import Deadwood.Cleanup.Clean
import Deadwood.Report.Summary

/-!
# Reports for other programs

The reports as JSON.
-/

namespace Deadwood

def Path.toJson (p : Path) : Json := .string p.text

def optionalField {α : Type} (name : String) (value : Option α) (toJson : α → Json) : List (String × Json) :=
  (value.map fun a => (name, toJson a)).toList

def Alert.toJson (a : Alert) : Json :=
  .object [("file", a.file.toJson), ("line", .natural a.line), ("severity", .string a.severity.name),
    ("intrinsicSeverity", .string a.intrinsic.name), ("category", .string a.category),
    ("cwe", .string a.cwe), ("cweName", .string a.cweName), ("description", .string a.description),
    ("risk", .string a.risk), ("proximity", (a.zone.map Json.string).getD .null),
    ("inDeadCode", .bool a.inDeadCode)]

def SecurityReport.toJson (r : SecurityReport) : Json :=
  .object
    [("summary", .object [("total", .natural r.total), ("inDeadCode", .natural r.inDeadCode),
      ("inLiveCode", .natural r.inLiveCode)]),
    ("findings", .array (r.alerts.map Alert.toJson))]

def DeadFile.toJson (d : DeadFile) : Json :=
  .object [("file", d.file.toJson), ("size", .natural d.size), ("lines", .natural d.lines)]

def PartialFile.toJson (p : PartialFile) : Json :=
  .object [("file", p.file.toJson), ("deadExports", .array (p.deadExports.map Json.string))]

def ScanSummary.toJson (s : ScanSummary) : Json :=
  .object [("totalFiles", .natural s.totalFiles), ("entryPoints", .natural s.entryPoints),
    ("reachableFiles", .natural s.reachableFiles), ("deadFiles", .natural s.deadFiles),
    ("deadRate", .real s.deadRate), ("partialFiles", .natural s.partialFiles),
    ("totalDeadBytes", .natural s.totalDeadBytes)]

def ScanReport.toJson (r : ScanReport) : Json :=
  .object ([("summary", r.summary.toJson), ("deadFiles", .array (r.deadFiles.map DeadFile.toJson)),
    ("partialFiles", .array (r.partialFiles.map PartialFile.toJson))] ++
    optionalField "security" r.security SecurityReport.toJson ++
    optionalField "unresolvedImports" r.unresolvedImports Json.natural)

def FileFailure.toJson (f : FileFailure) : Json :=
  .object [("path", f.path.toJson), ("reason", .string f.reason)]

def CleanReport.toJson (r : CleanReport) : Json :=
  .object ([("filesRemoved", .natural r.filesRemoved), ("bytesRemoved", .natural r.bytesRemoved),
    ("files", .array (r.files.map Path.toJson)), ("importsRemoved", .natural r.importsPruned),
    ("barrelExportsRemoved", .natural r.reExportsPruned)] ++
    optionalField "sessionId" r.sessionId Json.string ++
    [("failed", .array (r.failed.map FileFailure.toJson))])

def Quarantine.RestoreReport.toJson (r : Quarantine.RestoreReport) : Json :=
  .object [("restored", .array (r.restored.map Path.toJson)),
    ("failed", .array (r.failed.map FileFailure.toJson))]

def purgeJson (count : Nat) : Json := .object [("purgedFiles", .natural count)]

end Deadwood
