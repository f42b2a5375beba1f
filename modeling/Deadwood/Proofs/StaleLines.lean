import Deadwood.Cleanup.Pruning
import Deadwood.Proofs.Linking

/-!
# The lines that are pruned

A line goes if a plan has an import for it and the line holds that import as a whole.

* `Catalog.StaleLine`, **`staleLine_of_mem_staleImports`**: the lines of a plan, as the resolution of imports sees
  them.
-/

namespace Deadwood

open List Catalog

variable {site : ImportSite} {sites : List ImportSite}

/-! ## Lines of a text -/

/-- `kept` are lines, numbered from `n` on, of which some are left out, but none for which `P` does not hold. -/
inductive LinesLeft (P : Nat → String → Prop) : (n : Nat) → (lines kept : List String) → Prop
  | nil {n : Nat} : LinesLeft P n [] []
  | keep {n : Nat} {line : String} {lines kept : List String} (h : LinesLeft P (n + 1) lines kept) :
      LinesLeft P n (line :: lines) (line :: kept)
  | drop {n : Nat} {line : String} {lines kept : List String} (hline : P n line)
      (h : LinesLeft P (n + 1) lines kept) : LinesLeft P n (line :: lines) kept

theorem LinesLeft.mono {P Q : Nat → String → Prop} {n : Nat} {lines kept : List String} (h : LinesLeft P n lines kept)
    (hPQ : ∀ n line, P n line → Q n line) : LinesLeft Q n lines kept := by
  induction h with
  | nil => exact .nil
  | keep _ ih => exact .keep ih
  | drop hline _ ih => exact .drop (hPQ _ _ hline) ih

def HoldsStale (imports : List StaleImport) (n : Nat) (line : String) : Prop :=
  ∃ x ∈ imports, x.line = n ∧ isWholeImport line x.target = true

/-- **Pruning leaves out lines that hold an import of the plan**, and changes no other line. -/
theorem linesLeft_pruneLines (imports : List StaleImport) (n : Nat) (lines : List String) :
    ∃ kept, LinesLeft (HoldsStale imports) n lines kept ∧ (pruneLines imports n lines).text = String.join kept := by
  induction lines generalizing n with
  | nil => exact ⟨[], .nil, rfl⟩
  | cons line lines ih =>
    obtain ⟨kept, hkept, htext⟩ := ih (n + 1)
    rw [pruneLines]
    split
    · refine ⟨line :: kept, .keep hkept, ?_⟩
      rw [String.join_cons, ← htext]
    · rename_i x hx
      have hfound := find?_some hx
      rw [Bool.and_eq_true, beq_iff_eq] at hfound
      refine ⟨kept, .drop ⟨x, mem_of_find?_eq_some hx, hfound⟩ hkept, ?_⟩
      split <;> exact htext

/-! ## Lines of a plan -/

/-- All imports of a line of a unit lead to units that are removed, or to the unit itself, and there is one that leads
to a removed unit. The line holds the target of one of them. Only references of documents may lead nowhere. -/
structure Catalog.StaleLine (c : Catalog) (e : CatalogEntry) (removed : List Nat) (n : Nat) (line : String) : Prop where
  holds : ∃ x ∈ e.unit.summary.imports, x.line = n ∧ isWholeImport line x.target = true
  leads : ∃ x ∈ e.unit.summary.imports, x.line = n ∧ ∃ j ∈ removed, c.leadsTo e j x = true
  only : ∀ x ∈ e.unit.summary.imports, x.line = n → (c.resolve e x = none ∧ x.kind = .asset) ∨
    ∃ links, c.resolve e x = some links ∧ ∀ l ∈ links, l.target ∈ removed ∨ l.target = e.index

theorem Catalog.leadsTo_iff {c : Catalog} {e : CatalogEntry} {j : Nat} {x : Import} : c.leadsTo e j x = true ↔
    ∃ links, c.resolve e x = some links ∧ ∃ l ∈ links, l.target = j := by
  cases h : c.resolve e x <;> simp [leadsTo, h]

theorem mem_of_mem_insertAtLine {other : ImportSite}
    (h : other ∈ insertAtLine site sites) : other = site ∨ other ∈ sites := by
  induction sites with
  | nil => exact .inl (mem_singleton.1 h)
  | cons first sites ih =>
    rw [insertAtLine] at h
    split at h
    · exact mem_cons.1 h
    · split at h
      · rcases mem_cons.1 h with rfl | h
        · exact .inl rfl
        · exact .inr (mem_cons_of_mem _ h)
      · rcases mem_cons.1 h with rfl | h
        · exact .inr mem_cons_self
        · exact (ih h).imp_right (mem_cons_of_mem _)

theorem mem_of_mem_insertAtLines {lines : List ImportSite}
    (h : site ∈ sites.foldl (fun lines site => insertAtLine site lines) lines) : site ∈ sites ∨ site ∈ lines := by
  induction sites generalizing lines with
  | nil => exact .inr h
  | cons first sites ih =>
    rcases ih h with h | h
    · exact .inl (mem_cons_of_mem _ h)
    · rcases mem_of_mem_insertAtLine h with rfl | h
      · exact .inl mem_cons_self
      · exact .inr h

namespace Graph

variable {units : List SourceUnit} {removed : List Nat} {i n : Nat} {u : SourceUnit} {x : StaleImport}
  {g : Graph} {site : ImportSite}

theorem exists_edge_of_mem_staleSites (h : site ∈ g.staleSites removed i) :
    ∃ e ∈ g.edges, e.source = i ∧ e.target ∈ removed ∧ site ∈ e.sites := by
  rcases mem_of_mem_insertAtLines h with h | h
  · obtain ⟨e, he, hsite⟩ := mem_flatMap.1 (mem_of_mem_filter h)
    obtain ⟨hfrom, hremoved⟩ := mem_filter.1 he
    obtain ⟨he, hsource⟩ := mem_filter.1 hfrom
    exact ⟨e, he, beq_iff_eq.1 hsource, contains_iff_mem.1 hremoved, hsite⟩
  · cases h

theorem exists_of_mem_staleImports (h : x ∈ g.staleImports removed i u) :
    (∃ site ∈ g.staleSites removed i, site.line = x.line) ∧ x.line ∉ g.neededLines removed i u ∧
      ∃ y ∈ u.summary.imports, y.line = x.line ∧ y.target = x.target := by
  obtain ⟨site, hsite, hx⟩ := mem_filterMap.1 h
  obtain ⟨hsite, hneeded⟩ := mem_filter.1 hsite
  obtain ⟨y, hy, rfl⟩ := Option.map_eq_some_iff.1 hx
  have hfound := find?_some hy
  rw [Bool.and_eq_true, beq_iff_eq] at hfound
  refine ⟨⟨site, hsite, rfl⟩, ?_, y, mem_of_find?_eq_some hy, hfound.1, rfl⟩
  intro hmem
  rw [contains_iff_mem.2 hmem] at hneeded
  cases hneeded

theorem mem_entries (hu : units[i]? = some u) : (⟨i, u.relText, u⟩ : CatalogEntry) ∈ (ofUnits units).entries :=
  mem_ofUnits.2 ⟨hu, rfl⟩

theorem mem_sites_of_leadsTo {e : Edge} (he : e ∈ (build units).edges) (hu : units[i]? = some u)
    (hsource : i = e.source) : site ∈ e.sites ↔ ∃ y ∈ u.summary.imports,
      (ofUnits units).leadsTo ⟨i, u.relText, u⟩ e.target y = true ∧ site = ⟨y.line, y.kind⟩ := by
  rw [sites_build he (mem_entries hu) hsource]
  simp only [mem_eraseDups, mem_map, mem_filter, and_assoc, eq_comm]

theorem exists_edge_of_leadsTo (hu : units[i]? = some u) {x : Import} (hx : x ∈ u.summary.imports) {j : Nat}
    (hleads : (ofUnits units).leadsTo ⟨i, u.relText, u⟩ j x = true) (hne : i ≠ j) :
    ∃ e ∈ (build units).edgesFrom i, e.target = j ∧ ⟨x.line, x.kind⟩ ∈ e.sites := by
  obtain ⟨links, hlinks, l, hl, rfl⟩ := leadsTo_iff.1 hleads
  have hdep : (ofUnits units).DependsOn ⟨i, u.relText, u⟩ l.target := .inl ⟨x, hx, links, hlinks, l, hl, rfl⟩
  obtain ⟨e, he, hsource, htarget⟩ : (build units).Imports i l.target :=
    imports_build_iff.2 ⟨hne, _, mem_entries hu, rfl, hdep⟩
  refine ⟨e, mem_filter.2 ⟨he, beq_iff_eq.2 hsource⟩, htarget, ?_⟩
  exact (mem_sites_of_leadsTo he hu hsource.symm).2 ⟨x, hx, htarget ▸ hleads, rfl⟩

theorem mem_unresolved_build {x : UnresolvedImport} : x ∈ (build units).unresolved ↔
    ∃ f ∈ (ofUnits units).entries, ∃ y ∈ f.unit.summary.imports,
      (ofUnits units).resolve f y = none ∧ y.kind ≠ .asset ∧ x = ⟨f.unit.relative, y.target, y.line⟩ := by
  simp only [unresolved_build, missingOf, isMissing, unresolvedOf, mem_flatMap, mem_map, mem_filter,
    Bool.and_eq_true, Option.isNone_iff_eq_none, bne_iff_ne, and_assoc, eq_comm (b := x)]

/-- **A line is needed** if an import on it leads to another unit that stays, or if one leads nowhere and is no
reference of a document. Units of the same path share the lines that lead nowhere. -/
theorem mem_neededLines_iff (hu : units[i]? = some u) : n ∈ (build units).neededLines removed i u ↔
    (∃ x ∈ u.summary.imports, x.line = n ∧ ∃ links, (ofUnits units).resolve ⟨i, u.relText, u⟩ x = some links ∧
      ∃ l ∈ links, l.target ∉ removed ∧ l.target ≠ i) ∨
    ∃ f ∈ (ofUnits units).entries, (f.unit.relative == u.relative) = true ∧ ∃ x ∈ f.unit.summary.imports,
      x.line = n ∧ (ofUnits units).resolve f x = none ∧ x.kind ≠ .asset := by
  rw [neededLines, mem_append]
  refine or_congr ⟨?_, ?_⟩ ⟨?_, ?_⟩
  · intro h
    obtain ⟨e, he, hline⟩ := mem_flatMap.1 h
    obtain ⟨hfrom, hstays⟩ := mem_filter.1 he
    obtain ⟨he, hsource⟩ := mem_filter.1 hfrom
    obtain ⟨site, hsite, rfl⟩ := mem_map.1 hline
    rw [beq_iff_eq] at hsource
    obtain ⟨x, hx, hleads, rfl⟩ := (mem_sites_of_leadsTo he hu hsource.symm).1 hsite
    obtain ⟨links, hlinks, l, hl, htarget⟩ := leadsTo_iff.1 hleads
    have hself : e.target ≠ i := hsource ▸ ((build units).within e he).1.symm
    exact ⟨x, hx, rfl, links, hlinks, l, hl, htarget ▸ by simpa using hstays, htarget ▸ hself⟩
  · rintro ⟨x, hx, rfl, links, hlinks, l, hl, hstays, hself⟩
    have hleads : (ofUnits units).leadsTo ⟨i, u.relText, u⟩ l.target x = true :=
      leadsTo_iff.2 ⟨links, hlinks, l, hl, rfl⟩
    obtain ⟨e, he, htarget, hsite⟩ := exists_edge_of_leadsTo hu hx hleads hself.symm
    refine mem_flatMap.2 ⟨e, mem_filter.2 ⟨he, ?_⟩, mem_map.2 ⟨_, hsite, rfl⟩⟩
    simpa [htarget] using hstays
  · intro h
    obtain ⟨y, hy, rfl⟩ := mem_map.1 h
    obtain ⟨hmem, hpath⟩ := mem_filter.1 hy
    obtain ⟨f, hf, x, hx, hnone, hkind, rfl⟩ := mem_unresolved_build.1 hmem
    exact ⟨f, hf, hpath, x, hx, rfl, hnone, hkind⟩
  · rintro ⟨f, hf, hpath, x, hx, rfl, hnone, hkind⟩
    refine mem_map.2 ⟨⟨f.unit.relative, x.target, x.line⟩, mem_filter.2 ⟨?_, hpath⟩, rfl⟩
    exact mem_unresolved_build.2 ⟨f, hf, x, hx, hnone, hkind, rfl⟩

/-- **The lines of a plan import nothing else**, as far as the resolution of imports goes. -/
theorem staleLine_of_mem_staleImports (hu : units[i]? = some u) (hx : x ∈ (build units).staleImports removed i u)
    {line : String} (hline : isWholeImport line x.target = true) :
    (ofUnits units).StaleLine ⟨i, u.relText, u⟩ removed x.line line := by
  obtain ⟨⟨site, hsite, hat⟩, hneeded, y, hy, hyline, hytarget⟩ := exists_of_mem_staleImports hx
  rw [mem_neededLines_iff hu, not_or] at hneeded
  refine ⟨⟨y, hy, hyline, hytarget ▸ hline⟩, ?_, fun z hz hzline => ?_⟩
  · obtain ⟨e, he, hsource, htarget, hsite⟩ := exists_edge_of_mem_staleSites hsite
    obtain ⟨z, hz, hleads, rfl⟩ := (mem_sites_of_leadsTo he hu hsource.symm).1 hsite
    exact ⟨z, hz, hat, e.target, htarget, hleads⟩
  cases hlinks : (ofUnits units).resolve ⟨i, u.relText, u⟩ z with
  | none =>
    refine .inl ⟨rfl, by_contra fun hkind => hneeded.2 ?_⟩
    exact ⟨_, mem_entries hu, Path.beq_iff.2 rfl, z, hz, hzline, hlinks, hkind⟩
  | some links =>
    refine .inr ⟨links, rfl, fun l hl => by_contra fun hstays => hneeded.1 ?_⟩
    exact ⟨z, hz, hzline, links, hlinks, l, hl, not_or.1 hstays⟩

theorem eq_of_mem_pruningPlans {plan : PruningPlan} (h : plan ∈ g.pruningPlans removed) :
    ∃ i u, g.units[i]? = some u ∧ i ∉ removed ∧ g.staleImports removed i u ≠ [] ∧
      plan = ⟨i, u.relative, u.path, g.staleImports removed i u⟩ := by
  obtain ⟨⟨u, i⟩, hmem, hplan⟩ := mem_filterMap.1 h
  obtain ⟨hunit, hstays⟩ := mem_filter.1 hmem
  refine ⟨i, u, mem_zipIdx_iff_getElem?.1 hunit, by simpa using hstays, ?_⟩
  dsimp only at hplan
  split at hplan
  · cases hplan
  · rename_i himports
    cases hplan
    exact ⟨himports, rfl⟩

end Graph

end Deadwood
