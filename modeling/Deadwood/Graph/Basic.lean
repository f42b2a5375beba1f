import Deadwood.Source.Unit

/-!
# The dependency graph

The nodes are source units, known by their position; an edge leads from a unit to one it imports
and holds all that it imports from it. There is at most one edge between two units in each
direction, and none from a unit to itself.
-/

namespace Deadwood

/-- Where an import is written. -/
structure ImportSite where
  line : Nat
  kind : ImportKind
deriving Repr, DecidableEq

/-- What one unit imports from another. -/
structure Edge where
  source : Nat
  target : Nat
  names : ImportedNames
  /-- The imports behind the edge; none if the units are linked without an import. -/
  sites : List ImportSite
deriving DecidableEq

namespace Edge

def absorb (e : Edge) (names : ImportedNames) (site : Option ImportSite) : Edge :=
  let sites := match site with
    | some site => if e.sites.contains site then e.sites else e.sites ++ [site]
    | none => e.sites
  { e with names := e.names.merge names, sites }

def isImplicit (e : Edge) : Bool := e.sites.isEmpty

end Edge

/-- An import that no unit answers. -/
structure UnresolvedImport where
  importer : Path
  target : String
  line : Nat

def Edge.sameEnds (e f : Edge) : Prop := e.source = f.source ∧ e.target = f.target

def Edge.Within (e : Edge) (count : Nat) : Prop :=
  e.source ≠ e.target ∧ e.source < count ∧ e.target < count

theorem Edge.within_nil (count : Nat) : ∀ e ∈ ([] : List Edge), e.Within count := by
  intro e he
  cases he

theorem Edge.single_nil :
    ([] : List Edge).Pairwise fun e f => ¬ e.sameEnds f := List.Pairwise.nil

/-- The units and their edges, at most one for each pair of units. -/
structure Graph where
  units : List SourceUnit
  edges : List Edge := []
  unresolved : List UnresolvedImport := []
  within : ∀ e ∈ edges, e.Within units.length := by exact Edge.within_nil _
  single : edges.Pairwise fun e f => ¬ e.sameEnds f := by exact Edge.single_nil

namespace Graph

variable (g : Graph) (source target : Nat)

def edge? : Option Edge :=
  g.edges.find? fun e => e.source == source && e.target == target

def canLink : Bool :=
  source != target && source < g.units.length && target < g.units.length

def absorbAt (names : ImportedNames) (site : Option ImportSite) (e : Edge) : Edge :=
  if e.source == source && e.target == target then e.absorb names site else e

@[simp]
theorem absorbAt_source (source target : Nat) (names : ImportedNames) (site : Option ImportSite)
    (e : Edge) : (absorbAt source target names site e).source = e.source := by
  unfold absorbAt; split <;> rfl

@[simp]
theorem absorbAt_target (source target : Nat) (names : ImportedNames) (site : Option ImportSite)
    (e : Edge) : (absorbAt source target names site e).target = e.target := by
  unfold absorbAt; split <;> rfl

/-- Adds an import. An edge that is there takes it in; else there is a new one, unless the ends do
not allow it. -/
def addEdge (names : ImportedNames) (site : Option ImportSite) : Graph :=
  if hlink : !g.canLink source target then g
  else if hedge : (g.edge? source target).isSome then
    { g with
      edges := g.edges.map (absorbAt source target names site)
      within := by
        intro e he
        obtain ⟨f, hf, rfl⟩ := List.mem_map.1 he
        simpa [Edge.Within] using g.within f hf
      single := by
        rw [List.pairwise_map]
        exact g.single.imp fun h => by simpa [Edge.sameEnds] using h }
  else
    { g with
      edges := ⟨source, target, names, site.toList⟩ :: g.edges
      within := by
        intro e he
        rcases List.mem_cons.1 he with rfl | he
        · simpa [canLink, Edge.Within, and_assoc] using hlink
        · exact g.within e he
      single := by
        refine List.pairwise_cons.2 ⟨fun f hf h => hedge ?_, g.single⟩
        exact List.find?_isSome.2 ⟨f, hf, by simp [h.1.symm, h.2.symm]⟩ }

/-- Adds what is imported to the edge between two units. -/
def insertEdge (names : ImportedNames) (site : Option ImportSite) : Graph × Bool :=
  (g.addEdge source target names site, g.canLink source target && (g.edge? source target).isNone)

def addUnresolved (u : UnresolvedImport) : Graph :=
  { g with unresolved := g.unresolved ++ [u] }

def edgesFrom (unit : Nat) : List Edge :=
  g.edges.filter (·.source == unit)

def edgesInto (unit : Nat) : List Edge :=
  g.edges.filter (·.target == unit)

def indexOf? (path : Path) : Option Nat :=
  ((g.units.zipIdx.filter fun (u, _) => u.relative == path).getLast?).map (·.2)

end Graph

end Deadwood
