import Deadwood.Graph.Build
import Deadwood.Liveness.Entry
import Deadwood.Liveness.Reachability
import Deadwood.Project.Discovery
import Deadwood.Security.Alert

/-!
# Scanning a project

A scan finds the files of a project, reads them, and tells which of them are dead.
-/

namespace Deadwood

/-! ## Reading -/

def Config.load (path : Path) : FileTask (Except ConfigError Config) := do
  match ← FileTask.readText path with
  | .ok text => return Config.ofText path text
  | .error _ => return .error (.unreadable path.text)

def Config.loadFirst : List Path → FileTask (Except ConfigError Config)
  | [] => return .ok {}
  | path :: paths => do if ← FileTask.exists? path then Config.load path else Config.loadFirst paths

def Config.loadFrom (root : Path) : FileTask (Except ConfigError Config) :=
  Config.loadFirst (Config.defaultNames.map fun name => root.join ⟨name⟩)

/-- Reads the manifests of a project. Those that cannot be read name nothing. -/
def ManifestEntries.load (root : Path) (manifests : List Path) : FileTask ManifestEntries := do
  let texts ← manifests.mapM FileTask.readText
  return (manifests.zip texts).foldl (fun m (path, text) =>
    match text with
    | .error _ => m
    | .ok text =>
      let directory := ((path.parent?.bind (·.below? root)).map (·.slashed)).getD ""
      m.addManifest directory path.fileName text) {}

/-- The unit of a file with some contents, or with the reason why it cannot be read. -/
def SourceUnit.ofContents [TreeReader] (path relative : Path) (language : Language) :
    Except FileError Bytes → SourceUnit
  | .error e =>
    SourceUnit.failed { path, relative, language } ("unreadable: " ++ e.message)
  | .ok contents =>
    let u : SourceUnit := { path, relative, language, size := contents.length }
    match contents.text? with
    | none => u.failed "not valid UTF-8"
    | some text => SourceUnit.readText { u with lines := (Text.lines text).length } text

def SourceUnit.load [TreeReader] (path relative : Path) (language : Language) : FileTask SourceUnit :=
  return SourceUnit.ofContents path relative language (← FileTask.read path)

/-! ## Scans -/

/-- What a scan knows of a project. -/
structure Scan where
  root : Path
  graph : Graph
  entryPoints : List EntryPoint
  reachability : Reachability
  security : Option SecurityReport := none

namespace Scan

/-- What is known once the units are read. -/
def ofUnits (root : Path) (detector : Detector) (units : List SourceUnit) : Scan :=
  let graph := Graph.build units
  let entryPoints := detector.detectAll graph.units
  { root, graph, entryPoints, reachability := .ofGraph graph (entryPoints.map (·.unit)) }

/-- The units no entry point reaches. -/
def deadUnits (s : Scan) : List Nat :=
  (s.graph.units.zipIdx.filter fun (u, _) => s.reachability.dead.contains u.relative).map (·.2)

def withSecurity (s : Scan) (texts : List String) : Scan :=
  { s with security := some (.ofUnits Weakness.catalog s.reachability.dead (s.graph.units.zip texts)) }

end Scan

/-- Why a scan failed. -/
inductive ScanError where
  | noProject (path : String)
  | config (error : ConfigError)

def ScanError.message : ScanError → String
  | noProject path => "Cannot open project root " ++ path
  | config error => error.message

def lossyTextOf (path : Path) : FileTask String := do
  match ← FileTask.read path with
  | .ok contents => return contents.lossyText
  | .error _ => return ""

/-- Reads the files of a project and judges them. -/
def scan [TreeReader] (config : Config) (directory : Path) : FileTask (Except ScanError Scan) := do
  match ← FileTask.resolve directory with
  | .error _ => return .error (.noProject directory.text)
  | .ok root =>
    match ← discover config root with
    | .error e => return .error (.config e)
    | .ok found =>
      let units ← found.files.mapM fun f => SourceUnit.load f.path f.relative f.language
      match Detector.ofConfig config root.text (← ManifestEntries.load root found.manifests) with
      | .error e => return .error (.config e)
      | .ok detector =>
        let result := Scan.ofUnits root detector units
        if config.securityEnabled then
          return .ok (result.withSecurity (← result.graph.units.mapM (lossyTextOf ·.path)))
        else return .ok result

end Deadwood
