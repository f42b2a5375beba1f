import Deadwood.Proofs.Edges
import Deadwood.Proofs.Partition

/-!
# More imports, more live files

An import that is added to a graph may make an edge, widen one, or be dropped. In no case does it
take anything away: what was reached stays reached, and a name that was asked for stays asked for.
-/

namespace Deadwood

open List NameSet

variable {s : NameSet} {a : String}

/-! ## Names -/

theorem NameSet.contains_iff : s.contains a = true ↔ a ∈ s := by
  rw [contains, contains_iff_mem]
  exact Iff.rfl

theorem NameSet.mem_foldl_insert (names : List String) (s : NameSet) :
    a ∈ names.foldl insert s ↔ a ∈ s ∨ a ∈ names := by
  induction names generalizing s with
  | nil => simp
  | cons n names ih =>
    rw [foldl_cons, ih, mem_insert, mem_cons]
    tauto

theorem NameSet.mem_ofList {names : List String} : a ∈ ofList names ↔ a ∈ names :=
  (mem_foldl_insert names ∅).trans (or_iff_right not_mem_nil)

theorem ImportedNames.contains_merge (m n : ImportedNames) (name : String) :
    (m.merge n).contains name = true ↔ m.contains name = true ∨ n.contains name = true := by
  cases m <;> cases n
  case names.names s t =>
    simp only [merge, contains, contains_iff]
    exact mem_foldl_insert _ _
  all_goals simp [merge, contains]

theorem ImportedNames.contains_merge_single (names : ImportedNames) (last name : String) :
    (names.merge (.single last)).contains name = true ↔ names.contains name = true ∨ name = last := by
  rw [contains_merge, single, contains, contains_iff, mem_ofList, mem_singleton]

/-! ## Names that are asked for -/

namespace Graph

variable {g : Graph} {unit : Nat} {name : String}

/-- Some edge into the unit asks for the name. -/
def Uses (g : Graph) (unit : Nat) (name : String) : Prop :=
  ∃ e ∈ g.edges, e.target = unit ∧ e.names.contains name = true

instance (unit : Nat) (name : String) : Decidable (g.Uses unit name) :=
  decidable_of_iff (g.edges.any fun e => e.target == unit && e.names.contains name) (by
    simp [Uses, any_eq_true])

/-- **The dead exports of a unit are those that no edge asks for**, in the order of the exports. -/
theorem deadExportsOf_eq (g : Graph) (unit : Nat) (u : SourceUnit) : g.deadExportsOf unit u =
    (u.summary.exports.filter fun e => ¬ g.Uses unit e.name).map (·.name) := by
  have huses (name : String) : (g.edgesInto unit).any (·.names.contains name) = true ↔ g.Uses unit name := by
    simp only [edgesInto, Uses, any_eq_true, mem_filter, beq_iff_eq, and_assoc]
  rw [deadExportsOf]
  split
  · rename_i hall
    -- an import of everything asks for every name
    obtain ⟨e, he, hevery⟩ := any_eq_true.1 hall
    have hused (name : String) : g.Uses unit name := by
      refine (huses name).1 (any_eq_true.2 ⟨e, he, ?_⟩)
      cases hnames : e.names with
      | everything => rfl
      | names set => rw [hnames] at hevery; cases hevery
    simp [hused]
  · refine congrArg (List.map _) (filter_congr fun e _ => ?_)
    rw [Bool.eq_iff_iff, Bool.not_eq_true', ← Bool.not_eq_true, huses, decide_eq_true_eq]

theorem mem_deadExportsOf {u : SourceUnit} : name ∈ g.deadExportsOf unit u ↔
      (∃ e ∈ u.summary.exports, e.name = name) ∧ ¬ g.Uses unit name := by
  simp only [deadExportsOf_eq, mem_map, mem_filter, decide_eq_true_eq]
  constructor
  · rintro ⟨e, ⟨he, hunused⟩, rfl⟩
    exact ⟨⟨e, he, rfl⟩, hunused⟩
  · rintro ⟨⟨e, he, rfl⟩, hunused⟩
    exact ⟨e, ⟨he, hunused⟩, rfl⟩

/-- **One more import asks for its names, and no name is forgotten.** -/
theorem uses_addEdge {source target : Nat} {names : ImportedNames} {site : Option ImportSite} :
    (g.addEdge source target names site).Uses unit name ↔
      g.Uses unit name ∨ (g.Allows source target ∧ unit = target ∧ names.contains name = true) := by
  unfold addEdge
  split
  · rename_i hlink
    rw [Bool.not_eq_true', ← Bool.not_eq_true, canLink_iff] at hlink
    simp [hlink]
  · rename_i hlink
    rw [Bool.not_eq_true', Bool.not_eq_false, canLink_iff] at hlink
    split
    · rename_i hedge
      obtain ⟨old, hold⟩ := Option.isSome_iff_exists.1 hedge
      have hends := find?_some hold
      have habsorb (e : Edge) : (absorbAt source target names site e).names.contains name = true ↔
          e.names.contains name = true ∨ (e.source = source ∧ e.target = target ∧ names.contains name = true) := by
        unfold absorbAt
        split
        · rename_i h
          rw [Bool.and_eq_true, beq_iff_eq, beq_iff_eq] at h
          simp [Edge.absorb, ImportedNames.contains_merge, h]
        · rename_i h
          rw [Bool.and_eq_true, beq_iff_eq, beq_iff_eq] at h
          refine ⟨.inl, ?_⟩
          rintro (hname | ⟨hs, ht, -⟩)
          · exact hname
          · exact absurd ⟨hs, ht⟩ h
      simp only [Uses, mem_map, exists_exists_and_eq_and, absorbAt_target, habsorb]
      constructor
      · rintro ⟨e, he, rfl, hname | ⟨-, ht, hname⟩⟩
        · exact .inl ⟨e, he, rfl, hname⟩
        · exact .inr ⟨hlink, ht, hname⟩
      · rintro (⟨e, he, ht, hname⟩ | ⟨-, rfl, hname⟩)
        · exact ⟨e, he, ht, .inl hname⟩
        · rw [Bool.and_eq_true, beq_iff_eq, beq_iff_eq] at hends
          exact ⟨old, mem_of_find?_eq_some hold, hends.2, .inr ⟨hends.1, hends.2, hname⟩⟩
    · simp only [Uses, mem_cons, exists_eq_or_imp]
      constructor
      · rintro (⟨rfl, hname⟩ | h)
        · exact .inr ⟨hlink, rfl, hname⟩
        · exact .inl h
      · rintro (h | ⟨-, rfl, hname⟩)
        · exact .inr h
        · exact .inl ⟨rfl, hname⟩

/-! ## Graphs with more imports -/

/-- The second graph is the first with one import added. -/
def AddsImport (g g' : Graph) : Prop :=
  ∃ source target names site, g' = g.addEdge source target names site

/-- The second graph has the units of the first, and all that is imported in it. -/
structure Includes (g' g : Graph) : Prop where
  units : g'.units = g.units
  imports : ∀ i j, g.Imports i j → g'.Imports i j
  uses : ∀ i name, g.Uses i name → g'.Uses i name

/-- **Added imports leave all that was imported.** -/
theorem includes_of_addsImport {g' : Graph} (h : Relation.ReflTransGen AddsImport g g') : g'.Includes g := by
  induction h with
  | refl => exact ⟨rfl, fun _ _ h => h, fun _ _ h => h⟩
  | tail _ hstep ih =>
    obtain ⟨source, target, names, site, rfl⟩ := hstep
    refine ⟨?_, fun i j h => ?_, fun i name h => ?_⟩
    · rw [units_addEdge, ih.units]
    · exact imports_addEdge.2 (.inl (ih.imports i j h))
    · exact uses_addEdge.2 (.inl (ih.uses i name h))

variable {g' : Graph} {entries entries' : List Nat}

theorem Includes.isRoot (h : g'.Includes g) (hentries : entries ⊆ entries') {i : Nat}
    (hi : g.IsRoot entries i) : g'.IsRoot entries' i := by
  rcases hi with ⟨hi, hlt⟩ | ⟨u, hu, hfailed⟩
  · exact .inl ⟨hentries hi, h.units ▸ hlt⟩
  · exact .inr ⟨u, h.units ▸ hu, hfailed⟩

theorem Includes.reachableUnits (h : g'.Includes g) (hentries : entries ⊆ entries') :
    g.reachableUnits entries ⊆ g'.reachableUnits entries' := by
  intro i hi
  obtain ⟨r, hr, hchain⟩ := (mem_reachableUnits g entries).1 hi
  exact (mem_reachableUnits g' entries').2 ⟨r, h.isRoot hentries hr, Relation.ReflTransGen.mono h.imports _ _ hchain⟩

theorem Includes.deadExportsOf (h : g'.Includes g) (unit : Nat) (u : SourceUnit) :
    g'.deadExportsOf unit u ⊆ g.deadExportsOf unit u := by
  intro name hname
  obtain ⟨hexport, hunused⟩ := mem_deadExportsOf.1 hname
  exact mem_deadExportsOf.2 ⟨hexport, fun hused => hunused (h.uses unit name hused)⟩

end Graph

/-! ## What is reported -/

theorem lookup_insertAtPath {α : Type} (p q : Path) (a : α) (l : List (Path × α)) :
    (insertAtPath p a l).lookup q = if q == p then some a else l.lookup q := by
  induction l with
  | nil =>
    rw [insertAtPath, lookup_cons]
    cases q == p <;> rfl
  | cons x l ih =>
    obtain ⟨k, b⟩ := x
    rw [insertAtPath]
    cases hcmp : p.compare k with
    | lt =>
      rw [lookup_cons]
      cases q == p <;> rfl
    | eq =>
      have hpk : p.components = k.components := Path.compare_eq_iff.1 hcmp
      have hqk : (q == k) = (q == p) := by
        rw [Bool.eq_iff_iff, Path.beq_iff, Path.beq_iff, hpk]
      simp only [lookup_cons, hqk]
      cases q == p <;> rfl
    | gt =>
      have hpk : p.components ≠ k.components := by
        intro h
        rw [Path.compare_eq_iff.2 h] at hcmp
        cases hcmp
      simp only [lookup_cons, ih]
      by_cases hqk : (q == k) = true
      · have hqp : (q == p) = false := by
          rw [Bool.eq_false_iff, Ne, Path.beq_iff, Path.beq_iff.1 hqk]
          exact fun h => hpk h.symm
        simp [hqk, hqp]
      · simp [hqk]

namespace Reachability

variable {i : Nat} {p : Path} {r : Reachability} {u : SourceUnit}

def deadExportsAt (r : Reachability) (p : Path) : List String := (r.deadExports.lookup p).getD []

variable {g : Graph} {alive entries : List Nat}

theorem deadExports_add (r : Reachability) (x : SourceUnit × Nat) : (add g alive r x).deadExports =
    if x.2 ∈ alive ∧ g.deadExportsOf x.2 x.1 ≠ [] then
      insertAtPath x.1.relative (g.deadExportsOf x.2 x.1) r.deadExports
    else r.deadExports := by
  unfold add
  by_cases halive : x.2 ∈ alive <;> by_cases hdead : g.deadExportsOf x.2 x.1 = [] <;>
    simp [halive, hdead]

theorem deadExportsAt_add_of_ne {x : SourceUnit × Nat} (h : x.1.relative.components ≠ p.components) :
    (add g alive r x).deadExportsAt p = r.deadExportsAt p := by
  have hne : ¬ (p == x.1.relative) = true := by
    rw [Path.beq_iff]
    exact h ∘ Eq.symm
  rw [deadExportsAt, deadExports_add]
  split
  · rw [lookup_insertAtPath, if_neg hne]
    rfl
  · rfl

theorem deadExportsAt_foldl_of_ne {l : List (SourceUnit × Nat)} (h : ∀ x ∈ l, x.1.relative.components ≠ p.components) :
    (l.foldl (add g alive) r).deadExportsAt p = r.deadExportsAt p := by
  induction l generalizing r with
  | nil => rfl
  | cons x l ih =>
    rw [foldl_cons, ih fun y hy => h y (mem_cons_of_mem x hy)]
    exact deadExportsAt_add_of_ne (h x mem_cons_self)

theorem deadExportsAt_add_self (h : r.deadExportsAt u.relative = []) : (add g alive r (u, i)).deadExportsAt u.relative =
      if i ∈ alive then g.deadExportsOf i u else [] := by
  rw [deadExportsAt, deadExports_add]
  by_cases halive : i ∈ alive
  · by_cases hdead : g.deadExportsOf i u = []
    · rw [if_neg (fun hne => hne.2 hdead), if_pos halive, hdead]
      exact h
    · rw [if_pos ⟨halive, hdead⟩, if_pos halive, lookup_insertAtPath, if_pos (Path.beq_iff.2 rfl)]
      rfl
  · rw [if_neg (fun hne => halive hne.1), if_neg halive]
    exact h

/-- **The dead exports of each live unit are reported at its path.** -/
theorem deadExportsAt_ofGraph (h : DistinctPaths g.units)
    (hu : g.units[i]? = some u) : (ofGraph g entries).deadExportsAt u.relative =
      if i ∈ g.reachableUnits entries then g.deadExportsOf i u else [] := by
  obtain ⟨before, after, hsplit⟩ :=
    append_of_mem ((mem_zipIdx_iff_getElem? (x := (u, i))).2 hu)
  have hnodup : (g.units.zipIdx.map (·.1.relative.components)).Nodup := by
    rw [← zipIdx_map_fst 0 g.units, DistinctPaths, map_map] at h
    exact h
  rw [hsplit, map_append, map_cons, nodup_append, nodup_cons] at hnodup
  obtain ⟨-, ⟨hafter, -⟩, hbefore⟩ := hnodup
  have hempty : (before.foldl (add g (g.reachableUnits entries)) {}).deadExportsAt u.relative = [] :=
    deadExportsAt_foldl_of_ne fun x hx =>
      hbefore _ (mem_map_of_mem hx) _ mem_cons_self
  have hrest : ∀ x ∈ after, x.1.relative.components ≠ u.relative.components := fun x hx heq =>
    hafter (heq ▸ mem_map_of_mem (f := fun x : SourceUnit × Nat => x.1.relative.components) hx)
  rw [ofGraph, hsplit, foldl_append, foldl_cons, deadExportsAt_foldl_of_ne hrest, deadExportsAt_add_self hempty]

end Reachability

/-- **The analysis is monotone.** If imports are added to a graph, and entries to its entries, the
live files stay live, no file becomes dead, and no export of a file that was live becomes dead. -/
theorem analysis_monotone {g g' : Graph} {entries entries' : List Nat} (hpaths : DistinctPaths g.units)
    (hgraph : Relation.ReflTransGen Graph.AddsImport g g') (hentries : entries ⊆ entries') :
    (Reachability.ofGraph g entries).reachable ⊆ (Reachability.ofGraph g' entries').reachable ∧
    (Reachability.ofGraph g' entries').dead ⊆ (Reachability.ofGraph g entries).dead ∧
    ∀ u ∈ g.units, u.relative ∈ (Reachability.ofGraph g entries).reachable →
      (Reachability.ofGraph g' entries').deadExportsAt u.relative ⊆
        (Reachability.ofGraph g entries).deadExportsAt u.relative := by
  have hincl : g'.Includes g := Graph.includes_of_addsImport hgraph
  have hreach : g.reachableUnits entries ⊆ g'.reachableUnits entries' := hincl.reachableUnits hentries
  have hpaths' : DistinctPaths g'.units := hincl.units ▸ hpaths
  refine ⟨fun p hp => ?_, fun p hp => ?_, fun u hu hlive => ?_⟩
  · obtain ⟨i, u, hu, hi, rfl⟩ := (Reachability.mem_reachable hpaths).1 hp
    exact (Reachability.mem_reachable hpaths').2 ⟨i, u, hincl.units ▸ hu, hreach hi, rfl⟩
  · obtain ⟨i, u, hu, hi, rfl⟩ := (Reachability.mem_dead hpaths').1 hp
    exact (Reachability.mem_dead hpaths).2 ⟨i, u, hincl.units ▸ hu, fun h => hi (hreach h), rfl⟩
  · obtain ⟨i, hi⟩ := List.mem_iff_getElem?.1 hu
    have hu' : g'.units[i]? = some u := hincl.units ▸ hi
    have halive : i ∈ g.reachableUnits entries := by
      obtain ⟨j, v, hv, hj, hvu⟩ := (Reachability.mem_reachable hpaths).1 hlive
      rwa [hpaths.eq_of_getElem? hi hv (congrArg Path.components hvu.symm)]
    rw [Reachability.deadExportsAt_ofGraph hpaths hi, Reachability.deadExportsAt_ofGraph hpaths' hu',
      if_pos halive, if_pos (hreach halive)]
    exact hincl.deadExportsOf i u

/-- A script that imports one of two functions of a library, and a script that nothing imports. -/
def libraryGraph : Graph :=
  let unit (path : String) : SourceUnit := { path := ⟨path⟩, relative := ⟨path⟩, language := .python }
  let library : SourceUnit :=
    { unit "lib/b.py" with summary := { exports := [⟨"f", 1⟩, ⟨"g", 3⟩] } }
  let g : Graph := { units := [unit "a.py", library, unit "c.py"] }
  g.addEdge 0 1 (.single "f") none

/-- The second function is imported by the script that nothing imports, and an import of a script by
itself is dropped. -/
theorem analysis_monotone_libraryGraph :
    let wider := (libraryGraph.addEdge 2 1 (.single "g") none).addEdge 0 0 .everything none
    DistinctPaths libraryGraph.units ∧
    (Reachability.ofGraph wider [0, 1]).dead ⊆ (Reachability.ofGraph libraryGraph [0]).dead ∧
    (Reachability.ofGraph libraryGraph [0]).deadExportsAt ⟨"lib/b.py"⟩ = ["g"] ∧
    (Reachability.ofGraph wider [0, 1]).deadExportsAt ⟨"lib/b.py"⟩ = [] ∧
    (Reachability.ofGraph wider [0, 1]).dead.map (·.text) = ["c.py"] := by
  intro wider
  have hgraph : Relation.ReflTransGen Graph.AddsImport libraryGraph wider :=
    .tail (.single ⟨2, 1, .single "g", none, rfl⟩) ⟨0, 0, .everything, none, rfl⟩
  have hmono := analysis_monotone (by decide : DistinctPaths libraryGraph.units) hgraph
    (by decide : [0] ⊆ [0, 1])
  exact ⟨by decide, hmono.2.1, by decide, by decide, by decide⟩

end Deadwood
