import Deadwood.Graph.Basic

/-!
# Pruning imports

When files are removed, the lines that import them, and nothing else, are pruned from the files
that stay.
-/

namespace Deadwood

open Text

/-- An import of a removed unit. -/
structure StaleImport where
  line : Nat
  kind : ImportKind
  target : String
deriving Repr, DecidableEq

/-- The stale imports of one unit. -/
structure PruningPlan where
  unit : Nat
  relative : Path
  path : Path
  imports : List StaleImport

/-- A pruned text and how much it lost. -/
structure Pruned where
  text : String
  imports : Nat
  reExports : Nat
deriving Repr, DecidableEq

def Pruned.changed (p : Pruned) : Bool := p.imports + p.reExports > 0

def insertAtLine (site : ImportSite) : List ImportSite → List ImportSite
  | [] => [site]
  | other :: rest =>
    if site.line < other.line then site :: other :: rest
    else if site.line = other.line then site :: rest
    else other :: insertAtLine site rest

namespace Graph

variable (g : Graph) (removed : List Nat)

/-- The places where a unit imports removed units, one for each line. Markup is left as it is. -/
def staleSites (unit : Nat) : List ImportSite :=
  let edges := (g.edgesFrom unit).filter fun e => removed.contains e.target
  let sites := (edges.flatMap (·.sites)).filter (·.kind != .asset)
  sites.foldl (fun lines site => insertAtLine site lines) []

/-- The lines on which a unit imports something that stays or that is not known. -/
def neededLines (unit : Nat) (u : SourceUnit) : List Nat :=
  let edges := (g.edgesFrom unit).filter fun e => !removed.contains e.target
  let unknown := g.unresolved.filter (·.importer == u.relative)
  edges.flatMap (·.sites.map (·.line)) ++ unknown.map (·.line)

/-- The imports to be pruned from a unit. -/
def staleImports (unit : Nat) (u : SourceUnit) :
    List StaleImport :=
  let needed := g.neededLines removed unit u
  ((g.staleSites removed unit).filter fun site => !needed.contains site.line).filterMap fun site =>
    (u.summary.imports.find? fun i => i.line == site.line && i.kind == site.kind).map fun i =>
      ⟨site.line, site.kind, i.target⟩

/-- One plan for every unit that stays and has a stale import. -/
def pruningPlans : List PruningPlan :=
  (g.units.zipIdx.filter fun (_, i) => !removed.contains i).filterMap fun (u, i) =>
    match g.staleImports removed i u with
    | [] => none
    | imports => some ⟨i, u.relative, u.path, imports⟩

end Graph

def balanced (opening closing : Char) (s : String) : Bool :=
  s.toList.count opening == s.toList.count closing

/-- The line holds an import of the target that neither starts before it nor goes on after it. -/
def isWholeImport (line target : String) : Bool :=
  let line := trimEnd line
  contains line target && !endsWith line "\\" && !endsWith line "," &&
    balanced '\x7b' '\x7d' line && balanced '(' ')' line && balanced '[' ']' line

def staleImport? (imports : List StaleImport) (number : Nat) (line : String) : Option StaleImport :=
  imports.find? fun i => i.line == number && isWholeImport line i.target

/-- Drops each line that is a stale import as a whole. -/
def pruneLines (imports : List StaleImport) : (number : Nat) → List String → Pruned
  | _, [] => ⟨"", 0, 0⟩
  | number, line :: lines =>
    let rest := pruneLines imports (number + 1) lines
    match staleImport? imports number line with
    | none => { rest with text := line ++ rest.text }
    | some i =>
      if i.kind = .reExport then { rest with reExports := rest.reExports + 1 }
      else { rest with imports := rest.imports + 1 }

/-- A text without the lines of a plan that hold a whole import. All other lines keep their text
and their ends. -/
def prune (text : String) (imports : List StaleImport) : Pruned :=
  pruneLines imports 1 (rawLines text)

end Deadwood
