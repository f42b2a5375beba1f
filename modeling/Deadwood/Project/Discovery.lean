import Deadwood.Config
import Deadwood.Files.Task
import Deadwood.Liveness.Manifest

/-!
# Finding the files of a project

All files below a directory are looked at, except those that the configuration excludes or that
ignore files rule out.
-/

namespace Deadwood

/-! ## Ignore files -/

/-- The ignore files of one directory. -/
structure IgnoreRules where
  general : RuleSet
  shared : RuleSet
  repository : RuleSet

namespace IgnoreRules

def splitLines : Bytes → List Bytes
  | [] => []
  | b :: bytes =>
    if b = 10 then [b] :: splitLines bytes
    else
      match splitLines bytes with
      | [] => [[b]]
      | line :: lines => (b :: line) :: lines

/-- The rules in an ignore file: its lines up to the first that is not text, without a byte order
mark at the start. -/
def rulesOf (directory : String) (contents : Bytes) : RuleSet :=
  let lines := ((splitLines contents).map Bytes.text?).takeWhile Option.isSome
  let text := String.join (lines.filterMap id)
  RuleSet.ofText directory (Text.trimStartWhere (· == '\ufeff') text)

/-- Reads the rules in an ignore file. A file that cannot be read has none. -/
def loadFile (directory : Path) (name : String) : FileTask RuleSet := do
  match ← FileTask.read (directory.join ⟨name⟩) with
  | .ok contents => return rulesOf directory.text contents
  | .error _ => return ⟨directory.text, []⟩

def load (directory : Path) : FileTask IgnoreRules := do
  let general ← loadFile directory ".ignore"
  let shared ← loadFile directory ".gitignore"
  let repository ← loadFile directory ".git/info/exclude"
  return ⟨general, shared, repository⟩

def firstVerdict (rules : List RuleSet) (path : String) (isDirectory : Bool) : Verdict :=
  rules.foldr (fun r v => (r.judge path isDirectory).orElse v) .undecided

/-- What the rules of the directories around a path say about it, the innermost first. Each kind of
ignore file is asked only if those before it do not decide. -/
def judge (around : List IgnoreRules) (path : String) (isDirectory : Bool) : Verdict :=
  let ask (rules : IgnoreRules → RuleSet) : Verdict := firstVerdict (around.map rules) path isDirectory
  (ask (·.general)).orElse ((ask (·.shared)).orElse (ask (·.repository)))

end IgnoreRules

/-! ## Walking -/

/-- Names that are never looked at: the stores of version control, and the store of this program. -/
def skippedNames : List String := [".git", ".hg", ".svn", ".deadfiles"]

/-- The files below a directory that no rule leaves out. The fuel bounds the depth. -/
def filesBelow (exclusion : Selection) : (fuel : Nat) → (around : List IgnoreRules) → Path →
    FileTask (List Path)
  | 0, _, _ => return []
  | fuel + 1, around, directory => do
    match ← FileTask.list directory with
    | .error _ => return []
    | .ok names =>
      let around := (← IgnoreRules.load directory) :: around
      let found ← (names.filter (!skippedNames.contains ·)).mapM fun name => do
        let path := directory.join ⟨name⟩
        match ← FileTask.status path with
        | .error _ => return []
        | .ok status =>
          let verdict := (exclusion.judge path.text status.isDirectory).orElse
            (IgnoreRules.judge around path.text status.isDirectory)
          if verdict = .ignored then return []
          else if status.isDirectory then filesBelow exclusion fuel around path
          else return [path]
      return found.flatten

def maxDepth : Nat := 4096

def directoriesAbove : (fuel : Nat) → Path → List Path
  | 0, _ => []
  | fuel + 1, p =>
    match p.parent? with
    | none => []
    | some above => above :: directoriesAbove fuel above

/-- The files of the project in a directory. Ignore files above the directory count too. A file
stands for itself. -/
def projectFiles (exclusion : Selection) (root : Path) : FileTask (List Path) := do
  if ← FileTask.isDirectory root then
    let above ← (directoriesAbove root.components.length root).mapM IgnoreRules.load
    filesBelow exclusion maxDepth above root
  else return [root]

/-! ## Source files -/

/-- A file found, with its language. -/
structure SourceFile where
  path : Path
  relative : Path
  language : Language

/-- The source files and manifests a walk finds. -/
structure Discovery where
  files : List SourceFile := []
  manifests : List Path := []

namespace SourceFile

def trunk (p : Path) : Option (List Component) × String := (p.parent?.map Path.components, p.stem)

def isCppSource (f : SourceFile) : Bool := ["cpp", "cc", "cxx"].any (f.relative.extension? == some ·)

/-- The files, where a header that stands beside a C++ source of the same name is C++ too. -/
def settleHeaders (files : List SourceFile) : List SourceFile :=
  let trunks := (files.filter isCppSource).map fun f => trunk f.relative
  files.map fun f =>
    if f.relative.extension? == some "h" && trunks.contains (trunk f.relative) then
      { f with language := .cpp }
    else f

end SourceFile

def Discovery.ofFiles (files : List SourceFile) (manifests : List Path) : Discovery where
  files := (SourceFile.settleHeaders files).mergeSort fun a b => a.relative.le b.relative
  manifests := manifests.mergeSort Path.le

def headLength : Nat := 256

def interpreterLanguage? (path : Path) : FileTask (Option Language) := do
  match ← FileTask.read path with
  | .error _ => return none
  | .ok contents =>
    return (Text.lines (Bytes.lossyText (contents.take headLength))).head?.bind Language.ofShebang?

/-- The language of a file: by its name or, if the name has no extension, by its interpreter
line. -/
def languageOf? (path : Path) : FileTask (Option Language) :=
  match Language.ofPath? path with
  | some language => return some language
  | none => if path.extension?.isNone then interpreterLanguage? path else return none

def classify (root : Path) (files : List Path) : FileTask (List SourceFile) := do
  let classified ← files.mapM fun path => do
    return (← languageOf? path).map fun language =>
      (⟨path, (path.below? root).getD path, language⟩ : SourceFile)
  return classified.filterMap id

/-- Walks a project and classifies what it finds. -/
def discover (config : Config) (root : Path) : FileTask (Except ConfigError Discovery) := do
  match config.exclusion root.text with
  | .error e => return .error e
  | .ok exclusion =>
    let files ← projectFiles exclusion root
    let (manifests, sources) := files.partition fun p => ManifestEntries.manifestNames.contains p.fileName
    return .ok (.ofFiles (← classify root sources) manifests)

end Deadwood
