import Deadwood.Path

/-!
# Sensitive places

How grave a weakness is, and the directories in which it is graver than elsewhere.
-/

namespace Deadwood

/-- How grave an alert is. -/
inductive Severity where
  | low
  | medium
  | high
  | critical
deriving Repr, DecidableEq

namespace Severity

def rank : Severity → Nat
  | low => 0
  | medium => 1
  | high => 2
  | critical => 3

def name : Severity → String
  | low => "LOW"
  | medium => "MEDIUM"
  | high => "HIGH"
  | critical => "CRITICAL"

def ofName? (name : String) : Option Severity := [low, medium, high, critical].find? (·.name == name)

def max (s t : Severity) : Severity := if s.rank < t.rank then t else s

end Severity

/-- Directories in which weaknesses are graver. -/
structure Zone where
  category : String
  floor : Severity
  names : List String
deriving Repr, DecidableEq

namespace Zone

def all : List Zone :=
  [⟨"authentication", .critical,
      ["auth", "authentication", "login", "oauth", "sso", "session", "sessions"]⟩,
    ⟨"cryptography", .critical, ["crypto", "cryptography", "encryption", "cipher", "keys"]⟩,
    ⟨"sandboxing", .critical, ["sandbox", "isolation", "jail", "seccomp"]⟩,
    ⟨"payments", .critical, ["payment", "payments", "billing", "checkout", "stripe"]⟩,
    ⟨"secrets", .critical, ["secret", "secrets", "credentials", "vault"]⟩,
    ⟨"access control", .high,
      ["acl", "authz", "rbac", "permission", "permissions", "policy", "policies"]⟩,
    ⟨"tokens", .high, ["token", "tokens", "jwt"]⟩,
    ⟨"file upload", .high, ["upload", "uploads"]⟩,
    ⟨"webhooks", .high, ["webhook", "webhooks", "hooks"]⟩,
    ⟨"admin", .high, ["admin", "backoffice"]⟩,
    ⟨"API surface", .medium, ["api", "apis", "graphql", "rpc"]⟩,
    ⟨"middleware", .medium, ["middleware", "middlewares", "interceptors"]⟩]

def ofDirectory? (name : String) : Option Zone :=
  let name := String.ofList (name.toList.map Text.asciiLower)
  all.find? (·.names.contains name)

/-- The zone with the highest floor; of several, the last. -/
def gravest? : List Zone → Option Zone
  | [] => none
  | zone :: zones =>
    match gravest? zones with
    | none => some zone
    | some other => if other.floor.rank < zone.floor.rank then some zone else some other

def around? (path : Path) : Option Zone :=
  path.parent?.bind fun directory => gravest? (directory.components.filterMap (ofDirectory? ·.text))

end Zone

end Deadwood
