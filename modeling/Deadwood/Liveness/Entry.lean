import Deadwood.Config
import Deadwood.Dialect
import Deadwood.Liveness.Manifest

/-!
# Entry points

* `Detector`: all that decides about entry points;
* `Detector.detect?`: why a unit is an entry point, if it is one;
* `Detector.detectAll`: the entry points among some units.
-/

namespace Deadwood

/-- An entry point and why it is one. -/
structure EntryPoint where
  unit : Nat
  path : Path
  reason : EntryReason

/-- By what entry points are recognised. -/
structure Detector where
  configured : Option Selection := none
  manifests : ManifestEntries := {}
  diAnnotations : List String := []
  registrationCalls : List String := []

namespace Detector

def ofConfig (c : Config) (root : String) (manifests : ManifestEntries) : Except ConfigError Detector := do
  let configured ← if c.entryPoints.isEmpty then .ok none else (c.entrySelection root).map some
  return ⟨configured, manifests, c.diAnnotations, c.registrationCalls⟩

def rootStems : List String := ["index", "main", "app", "server"]

def conventional? (u : SourceUnit) : Option EntryReason :=
  let parent := directoryOf u.relText
  if u.summary.flag "shebang" then some (.convention "shebang script")
  else if !u.language.isAsset && rootStems.contains u.stem && (parent.isEmpty || parent == "src") then
    some (.convention (u.stem ++ " module"))
  else u.language.entryReason? u

/-- A call is one of a registered name: the name itself, or the name after what it belongs to. -/
def isCallOf (call name : String) : Bool :=
  call == name ||
    match Text.dropTail? call name with
    | some before => Text.endsWith before "." || Text.endsWith before "::"
    | none => false

def framework? (d : Detector) (u : SourceUnit) : Option EntryReason :=
  match u.summary.annotations.toList.find? d.diAnnotations.contains with
  | some name => some (.framework ("@" ++ name))
  | none => u.summary.calls.toList.findSome? fun call =>
      (d.registrationCalls.find? (isCallOf call)).map fun name => .framework (name ++ "()")

/-- The first reason for which a unit is an entry point. -/
def detect? (d : Detector) (u : SourceUnit) : Option EntryReason :=
  let path := u.relText
  if u.failure.isSome then some .unread
  else if d.configured.any (·.judge path false == .taken) then some .configured
  else if u.summary.entryFunction then some .mainFunction
  else if d.manifests.contains path then some .manifest
  else conventional? u <|> (if u.summary.testFile then some .test else none) <|> d.framework? u

def detectAll (d : Detector) (units : List SourceUnit) : List EntryPoint :=
  units.zipIdx.filterMap fun (u, i) => (d.detect? u).map fun reason => ⟨i, u.relative, reason⟩

end Detector

end Deadwood
