import Deadwood.Project.Scan

/-!
# The summary of a scan

* `ScanReport.ofScan`: the dead files, the files with dead exports and the weaknesses of a project,
  with counts;
* `ScanReport.exceeds`: too many files are dead.
-/

namespace Deadwood

/-- A file nothing reaches. -/
structure DeadFile where
  file : Path
  size : Nat
  lines : Nat

/-- A live file with unused exports. -/
structure PartialFile where
  file : Path
  deadExports : List String

/-- The figures of a scan. -/
structure ScanSummary where
  totalFiles : Nat := 0
  entryPoints : Nat := 0
  reachableFiles : Nat := 0
  deadFiles : Nat := 0
  deadRate : Binary64 := .zero
  partialFiles : Nat := 0
  totalDeadBytes : Nat := 0

/-- What `scan` reports. -/
structure ScanReport where
  summary : ScanSummary := {}
  deadFiles : List DeadFile := []
  partialFiles : List PartialFile := []
  security : Option SecurityReport := none
  unresolvedImports : Option Nat := none

namespace ScanReport

instance : Inhabited ScanReport := ⟨{}⟩

def percentage (part whole : Nat) : Binary64 :=
  if whole == 0 then .zero
  else
    let hundred := Binary64.ofNat 100
    let rate := ((Binary64.ofNat part).mul hundred).div (.ofNat whole)
    (rate.mul hundred).round.div hundred

/-- What a scan comes to. -/
def ofScan (s : Scan) : ScanReport :=
  let units := s.graph.units
  let dead := (units.filter fun u => s.reachability.dead.contains u.relative).map fun u =>
    (⟨u.relative, u.size, u.lines⟩ : DeadFile)
  let withDeadExports := s.reachability.deadExports.map fun (file, names) => (⟨file, names⟩ : PartialFile)
  { summary :=
      { totalFiles := units.length
        entryPoints := s.entryPoints.length
        reachableFiles := s.reachability.reachable.length
        deadFiles := dead.length
        deadRate := percentage dead.length units.length
        partialFiles := withDeadExports.length
        totalDeadBytes := dead.foldl (fun total f => total + f.size) 0 }
    deadFiles := dead
    partialFiles := withDeadExports
    security := s.security
    unresolvedImports := if s.graph.unresolved.isEmpty then none else some s.graph.unresolved.length }

def exceeds (r : ScanReport) (percent : Binary64) : Bool := percent.lt r.summary.deadRate

def hasDeadCode (r : ScanReport) : Bool := !r.deadFiles.isEmpty || !r.partialFiles.isEmpty

end ScanReport

end Deadwood
