import Deadwood.Glob.Basic

/-!
# Rules on paths

A rule is a line of an ignore file: a glob, which `!` at the start turns around and a slash at the
end restricts to directories. A glob without a slash holds at any depth; others hold from the
directory of the rules. Of several rules the last that fits decides.
-/

namespace Deadwood

open Text

/-- What the rules say of a path. -/
inductive Verdict where
  | undecided
  | ignored
  | taken
deriving Repr, DecidableEq

namespace Verdict

def invert : Verdict → Verdict
  | undecided => undecided
  | ignored => taken
  | taken => ignored

def orElse (v other : Verdict) : Verdict := if v = undecided then other else v

end Verdict

/-- One glob, as on a line of an ignore file. -/
structure GlobRule where
  pattern : Pattern
  negated : Bool
  directoriesOnly : Bool

namespace GlobRule

/-- The glob in a line, with the signs at its ends taken off: whether it is turned around, about
directories only, and bound to the directory of the rules. -/
structure Written where
  glob : String
  negated : Bool := false
  directoriesOnly : Bool := false
  anchored : Bool := false

def Written.ofStart (line : String) : Written :=
  if startsWith line "\\!" || startsWith line "\\#" then { glob := String.ofList (line.toList.drop 1) }
  else
    let (negated, line) := match dropHead? line "!" with
      | some rest => (true, rest)
      | none => (false, line)
    match dropHead? line "/" with
    | some rest => { glob := rest, negated, anchored := true }
    | none => { glob := line, negated }

def Written.withoutEnd (w : Written) : Written :=
  match dropTail? w.glob "/" with
  | some rest => { w with glob := (dropTail? rest "\\").getD rest, directoriesOnly := true }
  | none => w

/-- The glob that is matched with whole paths: without a slash it holds at any depth, and `/**` at
the end does not mean the directory itself. -/
def Written.full (w : Written) : String :=
  let anywhere := !w.anchored && !containsChar w.glob '/' && w.glob != "**"
  let glob := if anywhere then "**/" ++ w.glob else w.glob
  if endsWith glob "/**" then glob ++ "/*" else glob

/-- The rule of a line: `none` if its glob is not well formed, `some none` if the line is blank or
a comment. -/
def ofLine? (lenient : Bool) (line : String) : Option (Option GlobRule) :=
  if startsWith line "#" then some none
  else
    let line := if endsWith line "\\ " then line else trimEnd line
    if line.isEmpty then some none
    else
      let w := (Written.ofStart line).withoutEnd
      (Glob.read? lenient w.full).map fun p => some ⟨p, w.negated, w.directoriesOnly⟩

def fits (r : GlobRule) (path : String) (isDirectory : Bool) : Bool :=
  (!r.directoriesOnly || isDirectory) && Glob.describes r.pattern path

def verdict (r : GlobRule) : Verdict := if r.negated then .taken else .ignored

end GlobRule

/-- Rules about the paths below a root. -/
structure RuleSet where
  root : String
  rules : List GlobRule

namespace RuleSet

/-- The part of a path that the rules look at. A path without a slash is left as it is. -/
def relevant (s : RuleSet) (path : String) : String :=
  let path := (dropHead? path "./").getD path
  if s.root == "." || !containsChar path '/' then path
  else
    match dropHead? path s.root with
    | some rest => (dropHead? rest "/").getD rest
    | none => path

def judge (s : RuleSet) (path : String) (isDirectory : Bool) : Verdict :=
  match s.rules.reverse.find? (·.fits (s.relevant path) isDirectory) with
  | some rule => rule.verdict
  | none => .undecided

/-- The rules of a text with one rule a line. Lines that are not well formed do not count. -/
def ofText (root text : String) : RuleSet where
  root
  rules := (lines text).filterMap fun line => (GlobRule.ofLine? true line).join

end RuleSet

/-- Globs that pick paths below a root. -/
structure Selection where
  rules : RuleSet

namespace Selection

def ofLines (root : String) (lines : List String) : Except String Selection := do
  let rules ← lines.mapM fun line =>
    match GlobRule.ofLine? false line with
    | some rule => .ok rule
    | none => .error line
  return ⟨⟨root, rules.filterMap id⟩⟩

/-- What the selection says about a path. If some rule names what to take, a file that no rule is
about is left out. -/
def judge (s : Selection) (path : String) (isDirectory : Bool) : Verdict :=
  match (s.rules.judge path isDirectory).invert with
  | .undecided =>
    if s.rules.rules.any (!·.negated) && !isDirectory then .ignored else .undecided
  | verdict => verdict

end Selection

end Deadwood
