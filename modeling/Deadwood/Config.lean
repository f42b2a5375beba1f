import Deadwood.Data.Toml
import Deadwood.Data.Yaml
import Deadwood.Glob.Rules
import Deadwood.Path

/-!
# Configuration

What a project can configure, with the defaults, and how it is read from a file.
-/

namespace Deadwood

/-- Why a configuration is refused. -/
inductive ConfigError where
  | unreadable (path : String)
  | malformedYaml
  | malformedToml
  | malformed
  | badExclusion (glob : String)
  | badEntry (glob : String)
deriving Repr, DecidableEq

def ConfigError.message : ConfigError → String
  | unreadable path => "Failed to read config file: " ++ path
  | malformedYaml => "Failed to parse YAML config"
  | malformedToml => "Failed to parse TOML config"
  | malformed => "Failed to parse config file"
  | badExclusion glob => "Invalid exclude pattern: " ++ glob
  | badEntry glob => "Invalid entry point pattern: " ++ glob

/-- The settings of a project. -/
structure Config where
  exclude : List String :=
    ["**/node_modules/**", "**/bower_components/**", "**/vendor/**", "**/target/**", "**/build/**",
      "**/.venv/**", "**/venv/**", "**/__pycache__/**", "**/*.min.js", "**/*.min.css"]
  entryPoints : List String := []
  securityEnabled : Bool := true
  /-- Highest share of dead files, in percent, that passes. -/
  failThreshold : Binary64 := .ofNat 10
  diAnnotations : List String :=
    ["Component", "Service", "Repository", "Controller", "RestController", "Configuration",
      "SpringBootApplication", "Module", "HiltAndroidApp", "AndroidEntryPoint", "HiltViewModel",
      "Singleton", "Injectable", "NgModule", "Entity", "ApiController", "app.route", "router.get",
      "router.post", "shared_task", "receiver", "pytest.fixture"]
  registrationCalls : List String :=
    ["register_blueprint", "admin.site.register", "add_action", "add_filter", "add_shortcode",
      "customElements.define", "inventory::submit", "ctor"]
deriving Repr, DecidableEq

namespace Config

instance : Inhabited Config := ⟨{}⟩

/-- How the settings are read off a data format. -/
structure View (α : Type) where
  /-- The named values of a table. A format may also allow a list of the values in the order of
  their names. -/
  fields? : (names : List String) → α → Option (List (String × α))
  items? : α → Option (List α)
  text? : α → Option String
  bool? : α → Option Bool
  number? : α → Option Binary64

/-- The value under a name, or a default if there is none. A name may not occur twice. -/
def field {α β : Type} (fields : List (String × α)) (name : String) (default : β) (decode : α → Option β) : Option β :=
  match fields.filter (·.1 == name) with
  | [] => some default
  | [(_, value)] => decode value
  | _ => none

/-- The configuration in a value. Names that mean nothing are passed over. -/
def decode {α : Type} (view : View α) (value : α) : Option Config := do
  let texts (a : α) : Option (List String) := (view.items? a).bind fun items => items.mapM view.text?
  let c : Config := {}
  let top ← view.fields? ["exclude", "entry_points", "security", "ci", "frameworks"] value
  let exclude ← field top "exclude" c.exclude texts
  let entryPoints ← field top "entry_points" c.entryPoints texts
  let security ← field top "security" [] (view.fields? ["enabled"])
  let enabled ← field security "enabled" c.securityEnabled view.bool?
  let ci ← field top "ci" [] (view.fields? ["fail_threshold"])
  let threshold ← field ci "fail_threshold" c.failThreshold view.number?
  let frameworks ← field top "frameworks" [] (view.fields? ["di_annotations", "registration_calls"])
  let annotations ← field frameworks "di_annotations" c.diAnnotations texts
  let calls ← field frameworks "registration_calls" c.registrationCalls texts
  return ⟨exclude, entryPoints, enabled, threshold, annotations, calls⟩

def yamlNumber? (text : String) : Option Binary64 :=
  let unsigned := (Text.dropHead? text "+").getD text
  if unsigned != text && (Text.startsWith unsigned "+" || Text.startsWith unsigned "-") then none
  else if [".inf", ".Inf", ".INF"].contains unsigned then some (.infinite false)
  else if ["-.inf", "-.Inf", "-.INF"].contains text then some (.infinite true)
  else if [".nan", ".NaN", ".NAN"].contains text then some .nan
  else (Binary64.read? unsigned).bind fun x => if x.isFinite then some x else none

/-- Values of YAML. A value that is not written is an empty table or list. -/
def yamlView : View Yaml.Node where
  fields?
    | _, .mapping pairs => pairs.mapM fun (key, value) =>
        match key with
        | .scalar _ text => some (text, value)
        | _ => none
    | _, .scalar true "" => some []
    | _, _ => none
  items?
    | .sequence items => some items
    | .scalar true "" => some []
    | _ => none
  text?
    | .scalar _ text => some text
    | _ => none
  bool?
    | .scalar true text =>
      if ["true", "True", "TRUE"].contains text then some true
      else if ["false", "False", "FALSE"].contains text then some false
      else none
    | _ => none
  number?
    | .scalar true text => yamlNumber? text
    | _ => none

def tomlView : View Toml where
  fields?
    | _, .table fields => some fields
    | names, .array items => some (names.zip items)
    | _, _ => none
  items? := Toml.items?
  text? := Toml.text?
  bool?
    | .scalar (.bool b) => some b
    | _ => none
  number?
    | .scalar (.real x) => some x
    | .scalar (.integer n) => some (.ofRatio (n < 0) n.natAbs 1)
    | _ => none

def ofYaml? (text : String) : Option Config := do
  match ← Yaml.read? text with
  | some node => decode yamlView node
  | none => some {}

def ofToml? (text : String) : Option Config := (Toml.read? text).bind (decode tomlView)

def ofText (path : Path) (text : String) : Except ConfigError Config :=
  match path.extension?.getD "" with
  | "yml" | "yaml" => (ofYaml? text).elim (.error .malformedYaml) .ok
  | "toml" => (ofToml? text).elim (.error .malformedToml) .ok
  | _ => (ofYaml? text <|> ofToml? text).elim (.error .malformed) .ok

def defaultNames : List String := [".deadfiles.yml", ".deadfiles.yaml", ".deadfiles.toml"]

/-- The selection that leaves the excluded paths out. -/
def exclusion (c : Config) (root : String) : Except ConfigError Selection := do
  let rules ← c.exclude.mapM fun glob =>
    match GlobRule.ofLine? false ("!" ++ glob) with
    | some rule => .ok rule
    | none => .error (ConfigError.badExclusion glob)
  return ⟨⟨root, rules.filterMap id⟩⟩

def entrySelection (c : Config) (root : String) : Except ConfigError Selection :=
  match Selection.ofLines root c.entryPoints with
  | .ok s => .ok s
  | .error glob => .error (.badEntry glob)

end Config

end Deadwood
