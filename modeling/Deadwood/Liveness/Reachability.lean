import Deadwood.Graph.Basic

/-!
# Reachability

A file is alive if an entry point depends on it, through any number of imports, and dead
otherwise. An export of a live file is dead if nothing imports it.
-/

namespace Deadwood

/-- Units that can be reached from those in the queue, with those seen before. The fuel bounds the
number of units that are visited. -/
def walk (next : Nat → List Nat) : (fuel : Nat) → (queue seen : List Nat) → List Nat
  | 0, _, seen => seen
  | _ + 1, [], seen => seen
  | fuel + 1, unit :: queue, seen =>
    let fresh := ((next unit).filter (!seen.contains ·)).eraseDups
    walk next fuel (queue ++ fresh) (seen ++ fresh)

def insertPath (p : Path) : List Path → List Path
  | [] => [p]
  | q :: qs =>
    match p.compare q with
    | .lt => p :: q :: qs
    | .eq => q :: qs
    | .gt => q :: insertPath p qs

def insertAtPath {α : Type} (p : Path) (a : α) : List (Path × α) → List (Path × α)
  | [] => [(p, a)]
  | (q, b) :: rest =>
    match p.compare q with
    | .lt => (p, a) :: (q, b) :: rest
    | .eq => (q, a) :: rest
    | .gt => (q, b) :: insertAtPath p a rest

/-- What the entries reach, what not, and the exports nothing uses. -/
structure Reachability where
  dead : List Path := []
  reachable : List Path := []
  deadExports : List (Path × List String) := []

namespace Graph

variable (g : Graph)

/-- The units from which everything starts: the entries, and the units that could not be read. -/
def roots (entries : List Nat) : List Nat :=
  let unread := (g.units.zipIdx.filter fun (u, _) => u.failure.isSome).map (·.2)
  ((entries ++ unread).filter (· < g.units.length)).eraseDups

def reachableUnits (entries : List Nat) : List Nat :=
  let roots := g.roots entries
  walk (fun unit => (g.edgesFrom unit).map (·.target)) g.units.length roots roots

/-- The exports of a unit that no edge names; an import of everything names them all. -/
def deadExportsOf (unit : Nat) (u : SourceUnit) : List String :=
  let into := g.edgesInto unit
  if into.any (·.names.isEverything) then []
  else (u.summary.exports.filter fun e => !into.any (·.names.contains e.name)).map (·.name)

end Graph

namespace Reachability

def add (g : Graph) (alive : List Nat) (r : Reachability) (unit : SourceUnit × Nat) :
    Reachability :=
  let (u, i) := unit
  if alive.contains i then
    let dead := g.deadExportsOf i u
    { r with
      reachable := insertPath u.relative r.reachable
      deadExports := if dead.isEmpty then r.deadExports else insertAtPath u.relative dead r.deadExports }
  else { r with dead := insertPath u.relative r.dead }

/-- The report on the units of a graph. -/
def ofGraph (g : Graph) (entries : List Nat) : Reachability :=
  g.units.zipIdx.foldl (add g (g.reachableUnits entries)) {}

end Reachability

end Deadwood
