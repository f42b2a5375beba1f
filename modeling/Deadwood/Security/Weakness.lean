import Deadwood.Pattern.Match
import Deadwood.Pattern.Notation
import Deadwood.Security.Zone

/-!
# Weaknesses

A weakness is known by how a line of code looks that has it. `Weakness.catalog` holds all of them.
-/

namespace Deadwood

/-- A kind of weakness and the lines that show it. -/
structure Weakness where
  holds : String → Bool
  category : String
  cwe : String
  cweName : String
  severity : Severity
  description : String
  risk : String

namespace Weakness

def hardcodedSecret : Pattern :=
  r#"(?i)\b(?:password|passwd|pwd|secret|api[_-]?key|auth[_-]?token|access[_-]?token|client[_-]?secret)\b["']?\s*[:=]\s*["'][^"'\s]{6}[^"'\s]*["']"#

def cloudKey : Pattern :=
  r"\bAKIA[0-9A-Z]{16}\b|\bAIza[0-9A-Za-z_\-]{35}\b|\bgh[pousr]_[A-Za-z0-9]{36}[A-Za-z0-9]*\b|\bsk_live_[0-9A-Za-z]{24}[0-9A-Za-z]*\b|\bxox[abpr]-[0-9A-Za-z\-]{10}[0-9A-Za-z\-]*"

def privateKey : Pattern := r"-----BEGIN (?:RSA |EC |DSA |OPENSSH |PGP |ENCRYPTED )?PRIVATE KEY"

def evaluation : Pattern := r"\beval\s*\(|\bnew\s+Function\s*\(|\bsetTimeout\s*\(\s*['\x60]"

def commandInjection : Pattern :=
  r"\bos\.(?:system|popen)\s*\(|\bchild_process\.exec(?:Sync)?\s*\(|\bexecSync\s*\(|\b(?:shell_exec|passthru|proc_open)\s*\(|Runtime\.getRuntime\(\)\.exec\s*\(|\bshell\s*=\s*True\b"

def sqlInjection : Pattern :=
  r#"(?i)\b(?:select\s+.+?\s+from|insert\s+into|update\s+\w+\s+set|delete\s+from)\b.*(?:["'\x60]\s*\+\s*\w|\$\x7b|%s["']\s*%|\.format\s*\()|\.(?:execute|query|raw)\s*\(\s*f["']"#

/-- Text goes into a page as markup. -/
def crossSiteScripting : Pattern :=
  r"\.(?:inner|outer)HTML\s*=[^=]|\bdocument\.write\s*\(|\bdangerouslySetInnerHTML\b|\bv-html\b|\bmark_safe\s*\(|\|\s*safe\b|\bhtml_safe\b"

/-- Objects are read from bytes that may make any object. -/
def untrustedDeserialization : Pattern :=
  r"\bpickle\.loads?\s*\(|\bmarshal\.loads?\s*\(|\byaml\.load\s*\(|\bunserialize\s*\(|\bObjectInputStream\b|\bBinaryFormatter\b|\bMarshal\.load\b"

def unverifiedCertificate : Pattern :=
  r#"\bverify\s*=\s*False\b|\brejectUnauthorized\s*:\s*false\b|\bInsecureSkipVerify\s*:\s*true\b|NODE_TLS_REJECT_UNAUTHORIZED\s*=\s*['"]?0|CURLOPT_SSL_VERIFYPEER\s*,\s*(?:false|0)\b|danger_accept_invalid_certs\s*\(\s*true"#

def weakHash : Pattern :=
  r#"\bhashlib\.(?:md5|sha1)\b|\bcreateHash\s*\(\s*['"](?:md5|sha1)['"]|MessageDigest\.getInstance\s*\(\s*"(?:MD5|SHA-?1)"|\b(?:md5|sha1)\s*\(|\bMD5\.Create\s*\("#

def weakRandomness : Pattern :=
  r"\bMath\.random\s*\(|\brandom\.(?:random|randint|choice)\s*\(|\bmt_rand\s*\(|\brand\s*\(\s*\)|\bnew\s+Random\s*\("

def debugMode : Pattern := r"\bDEBUG\s*=\s*True\b|\bdebug\s*=\s*True\b|\bapp\.debug\s*=\s*true\b"

def permissiveOrigins : Pattern :=
  r#"Access-Control-Allow-Origin['"]?\s*[,:]\s*['"]\*|\borigin\s*:\s*['"]\*['"]|\bCORS_ORIGIN_ALLOW_ALL\s*=\s*True\b|\bAllowAnyOrigin\s*\(|\bcors\s*\(\s*\)"#

def catalog : List Weakness :=
  [{ holds := hardcodedSecret.occursIn
     category := "hardcoded secret"
     cwe := "CWE-798"
     cweName := "Use of Hard-coded Credentials"
     severity := .medium
     description := "Credential assigned from a string literal"
     risk := "Anyone with read access to the source can authenticate as the application" },
    { holds := cloudKey.occursIn
      category := "cloud key"
      cwe := "CWE-798"
      cweName := "Use of Hard-coded Credentials"
      severity := .high
      description := "Cloud provider or SaaS access key in source"
      risk := "Leaked keys grant direct access to third-party accounts and billing" },
    { holds := privateKey.occursIn
      category := "private key"
      cwe := "CWE-321"
      cweName := "Use of Hard-coded Cryptographic Key"
      severity := .critical
      description := "Private key material embedded in source"
      risk := "Signatures and encrypted traffic can be forged or decrypted" },
    { holds := evaluation.occursIn
      category := "eval"
      cwe := "CWE-95"
      cweName := "Eval Injection"
      severity := .high
      description := "Dynamic code evaluation"
      risk := "Attacker-influenced input can execute arbitrary code" },
    { holds := commandInjection.occursIn
      category := "command injection"
      cwe := "CWE-78"
      cweName := "OS Command Injection"
      severity := .high
      description := "Command executed through a shell"
      risk := "Shell metacharacters in arguments run attacker commands" },
    { holds := sqlInjection.occursIn
      category := "sql injection"
      cwe := "CWE-89"
      cweName := "SQL Injection"
      severity := .high
      description := "SQL statement built by string concatenation or interpolation"
      risk := "Crafted input can read or modify arbitrary database rows" },
    { holds := crossSiteScripting.occursIn
      category := "xss"
      cwe := "CWE-79"
      cweName := "Cross-site Scripting"
      severity := .medium
      description := "Unescaped HTML sink"
      risk := "Injected markup runs script in other users' browsers" },
    { holds := untrustedDeserialization.occursIn
      category := "unsafe deserialization"
      cwe := "CWE-502"
      cweName := "Deserialization of Untrusted Data"
      severity := .high
      description := "Deserializer that can instantiate arbitrary types"
      risk := "A crafted payload can execute code during deserialization" },
    { holds := unverifiedCertificate.occursIn
      category := "tls verification disabled"
      cwe := "CWE-295"
      cweName := "Improper Certificate Validation"
      severity := .high
      description := "TLS certificate verification turned off"
      risk := "Traffic can be intercepted by any network attacker" },
    { holds := weakHash.occursIn
      category := "weak hash"
      cwe := "CWE-328"
      cweName := "Use of Weak Hash"
      severity := .medium
      description := "MD5 or SHA-1 digest"
      risk := "Collisions and fast brute force defeat integrity and password storage" },
    { holds := weakRandomness.occursIn
      category := "insecure randomness"
      cwe := "CWE-338"
      cweName := "Use of Cryptographically Weak PRNG"
      severity := .low
      description := "Non-cryptographic random number generator"
      risk := "Tokens or identifiers derived from it are predictable" },
    { holds := debugMode.occursIn
      category := "debug mode"
      cwe := "CWE-489"
      cweName := "Active Debug Code"
      severity := .low
      description := "Debug mode enabled in code"
      risk := "Stack traces and debug consoles leak internals in production" },
    { holds := permissiveOrigins.occursIn
      category := "permissive cors"
      cwe := "CWE-942"
      cweName := "Permissive Cross-domain Policy"
      severity := .medium
      description := "CORS allows every origin"
      risk := "Any site can make credentialed requests on a user's behalf" }]

end Weakness

end Deadwood
