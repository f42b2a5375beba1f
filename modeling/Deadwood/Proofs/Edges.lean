import Deadwood.Project.Scan
import Deadwood.Proofs.Walk

/-!
# The edges that are built

* `Graph.imports_addEdge`: the edges after one more import;
* `Catalog.DependsOn`: what a unit depends on, by its imports and without them;
* `Graph.imports_build`: the edges of the graph of some units are its dependencies.
-/

namespace Deadwood

/-- A unit depends on the unit at a position: an import of it leads there, or they are linked without
an import. -/
def Catalog.DependsOn (c : Catalog) (e : CatalogEntry) (target : Nat) : Prop :=
  (∃ i ∈ e.unit.summary.imports, ∃ links, c.resolve e i = some links ∧ ∃ l ∈ links, l.target = target) ∨
    ∃ l ∈ c.implicitLinks e, l.target = target

namespace Graph

variable {g g' : Graph} {i j source target : Nat}

/-! ## One edge -/

@[simp]
theorem units_addEdge (g : Graph) (source target : Nat) (names : ImportedNames)
    (site : Option ImportSite) : (g.addEdge source target names site).units = g.units := by
  unfold addEdge
  split
  · rfl
  · split <;> rfl

def Allows (g : Graph) (i j : Nat) : Prop := i ≠ j ∧ i < g.units.length ∧ j < g.units.length

theorem canLink_iff : g.canLink source target = true ↔ g.Allows source target := by
  simp [canLink, Allows, and_assoc]

/-- **One more import makes one more edge, unless it is there or not allowed.** -/
theorem imports_addEdge {names : ImportedNames} {site : Option ImportSite} :
    (g.addEdge source target names site).Imports i j ↔ g.Imports i j ∨ (i = source ∧ j = target ∧ g.Allows i j) := by
  unfold addEdge
  split
  · rename_i hlink
    rw [Bool.not_eq_true', ← Bool.not_eq_true, canLink_iff] at hlink
    refine ⟨.inl, ?_⟩
    rintro (h | ⟨rfl, rfl, h⟩)
    · exact h
    · exact absurd h hlink
  · rename_i hlink
    rw [Bool.not_eq_true', Bool.not_eq_false, canLink_iff] at hlink
    split
    · rename_i hedge
      -- the edge is there, and takes the import in without changing its ends
      have hmap : (∃ e ∈ g.edges.map (absorbAt source target names site), e.source = i ∧ e.target = j) ↔
          g.Imports i j := by
        simp [Imports]
      refine hmap.trans ⟨.inl, ?_⟩
      rintro (h | ⟨rfl, rfl, -⟩)
      · exact h
      · obtain ⟨e, he⟩ := Option.isSome_iff_exists.1 hedge
        have hends := List.find?_some he
        rw [Bool.and_eq_true, beq_iff_eq, beq_iff_eq] at hends
        exact ⟨e, List.mem_of_find?_eq_some he, hends⟩
    · simp only [Imports, List.mem_cons, exists_eq_or_imp]
      constructor
      · rintro (⟨rfl, rfl⟩ | h)
        · exact .inr ⟨rfl, rfl, hlink⟩
        · exact .inl h
      · rintro (h | ⟨rfl, rfl, -⟩)
        · exact .inr h
        · exact .inl ⟨rfl, rfl⟩

/-! ## Whole graphs -/

/-- What a step of the construction does: it adds the edges that `P` names, as far as they are
allowed. -/
structure Adds (g g' : Graph) (P : Nat → Nat → Prop) : Prop where
  units : g'.units = g.units
  imports : ∀ i j, g'.Imports i j ↔ g.Imports i j ∨ (P i j ∧ g.Allows i j)

theorem Adds.refl (g : Graph) : Adds g g fun _ _ => False := ⟨rfl, by simp⟩

theorem Adds.congr {P Q : Nat → Nat → Prop} (h : Adds g g' P) (hPQ : ∀ i j, P i j ↔ Q i j) : Adds g g' Q :=
  ⟨h.units, fun i j => by rw [h.imports, hPQ]⟩

theorem Adds.trans {g'' : Graph} {P Q : Nat → Nat → Prop} (h : Adds g g' P)
    (h' : Adds g' g'' Q) : Adds g g'' fun i j => P i j ∨ Q i j := by
  refine ⟨h'.units.trans h.units, fun i j => ?_⟩
  rw [h'.imports, h.imports, Allows, Allows, h.units]
  tauto

/-- **Steps of the construction add up.** -/
theorem Adds.foldl {α : Type} {f : Graph → α → Graph} {P : α → Nat → Nat → Prop}
    (h : ∀ g a, Adds g (f g a) (P a)) (as : List α) (g : Graph) :
    Adds g (as.foldl f g) fun i j => ∃ a ∈ as, P a i j := by
  induction as generalizing g with
  | nil => exact (Adds.refl g).congr (by simp)
  | cons a as ih => exact ((h g a).trans (ih (f g a))).congr (by simp)

theorem adds_links (source : Nat) (site : Option ImportSite) (links : List Link) (g : Graph) :
    Adds g (links.foldl (fun g link => g.addEdge source link.target link.names site) g)
      fun i j => i = source ∧ ∃ l ∈ links, l.target = j := by
  have hstep (g : Graph) (l : Link) :
      Adds g (g.addEdge source l.target l.names site) fun i j => i = source ∧ j = l.target :=
    ⟨units_addEdge .., fun i j => by rw [imports_addEdge, and_assoc]⟩
  refine (Adds.foldl hstep links g).congr fun i j => ?_
  constructor
  · rintro ⟨l, hl, rfl, rfl⟩
    exact ⟨rfl, l, hl, rfl⟩
  · rintro ⟨rfl, l, hl, rfl⟩
    exact ⟨l, hl, rfl, rfl⟩

theorem adds_import (c : Catalog) (e : CatalogEntry) (g : Graph) (imp : Import) : Adds g (addImport c e g imp)
      fun i j => i = e.index ∧ ∃ links, c.resolve e imp = some links ∧ ∃ l ∈ links, l.target = j := by
  unfold addImport
  split
  · rename_i links hlinks
    refine (adds_links e.index _ links g).congr fun i j => and_congr_right fun _ => ?_
    simp [hlinks]
  · rename_i hnone
    split
    · exact (Adds.refl g).congr (by simp [hnone])
    · exact ⟨rfl, fun i j => by simp [Imports, addUnresolved, hnone]⟩

theorem adds_unit (c : Catalog) (g : Graph) (e : CatalogEntry) :
    Adds g (addUnit c g e) fun i j => i = e.index ∧ c.DependsOn e j := by
  have himports := Adds.foldl (adds_import c e) e.unit.summary.imports g
  have hlinks := adds_links e.index none (c.implicitLinks e) (e.unit.summary.imports.foldl (addImport c e) g)
  refine (himports.trans hlinks).congr fun i j => ?_
  unfold Catalog.DependsOn
  constructor
  · rintro (⟨imp, himp, rfl, h⟩ | ⟨rfl, h⟩)
    · exact ⟨rfl, .inl ⟨imp, himp, h⟩⟩
    · exact ⟨rfl, .inr h⟩
  · rintro ⟨rfl, ⟨imp, himp, h⟩ | h⟩
    · exact .inl ⟨imp, himp, rfl, h⟩
    · exact .inr ⟨rfl, h⟩

theorem adds_build (units : List SourceUnit) : Adds { units } (build units) fun i j =>
    ∃ e ∈ (Catalog.ofUnits units).entries, i = e.index ∧ (Catalog.ofUnits units).DependsOn e j :=
  Adds.foldl (adds_unit (Catalog.ofUnits units)) _ _

@[simp]
theorem units_build (units : List SourceUnit) : (build units).units = units := (adds_build units).units

/-- **The edges of the graph of some units are the dependencies between different units.** -/
theorem imports_build {units : List SourceUnit} : (build units).Imports i j ↔ i ≠ j ∧ j < units.length ∧
      ∃ u, units[i]? = some u ∧ (Catalog.ofUnits units).DependsOn ⟨i, u.relText, u⟩ j := by
  rw [(adds_build units).imports]
  have hnone : ¬ Graph.Imports { units } i j := by simp [Imports]
  simp only [hnone, false_or, Allows, Catalog.ofUnits, List.mem_map, List.mem_zipIdx_iff_getElem?, Prod.exists]
  constructor
  · rintro ⟨⟨e, ⟨u, k, hu, rfl⟩, rfl, hdep⟩, hne, -, hj⟩
    exact ⟨hne, hj, u, hu, hdep⟩
  · rintro ⟨hne, hj, u, hu, hdep⟩
    exact ⟨⟨_, ⟨u, i, hu, rfl⟩, rfl, hdep⟩, hne, (List.getElem?_eq_some_iff.1 hu).1, hj⟩

end Graph

/-! ## Units as they are read -/

theorem SourceUnit.readText_same [TreeReader] (u : SourceUnit) (text : String) : (u.readText text).path = u.path ∧
    (u.readText text).relative = u.relative ∧ (u.readText text).language = u.language := by
  unfold readText
  split
  · exact ⟨rfl, rfl, rfl⟩
  · split <;> exact ⟨rfl, rfl, rfl⟩

theorem SourceUnit.ofContents_same [TreeReader] (path relative : Path) (language : Language) (contents : Except FileError Bytes) :
    let u := ofContents path relative language contents
    u.path = path ∧ u.relative = relative ∧ u.language = language := by
  unfold ofContents
  split
  · exact ⟨rfl, rfl, rfl⟩
  · dsimp only
    split
    · exact ⟨rfl, rfl, rfl⟩
    · exact readText_same _ _

end Deadwood
