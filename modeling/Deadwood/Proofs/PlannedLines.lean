import Deadwood.Proofs.StaleLines

/-!
# Which lines a plan has

When units are removed, a plan has a line of a unit that stays if an import on that line leads to a removed unit and
nothing on it is needed. Several imports may share a line.

* **`planned_line_iff`**: a plan has exactly the lines that are prunable.
-/

namespace Deadwood

open List

/-- An import on the line leads to a removed unit, and no other unit that stays is imported there. All imports on the
line lead somewhere, in this unit and in those of the same path; only references of documents may lead nowhere. -/
structure Catalog.Prunable (c : Catalog) (e : CatalogEntry) (removed : List Nat) (n : Nat) : Prop where
  leads : ∃ x ∈ e.unit.summary.imports, x.line = n ∧ x.kind ≠ .asset ∧ ∃ j ∈ removed, c.leadsTo e j x = true
  spares : ∀ x ∈ e.unit.summary.imports, x.line = n → ∀ links, c.resolve e x = some links →
    ∀ l ∈ links, l.target ∈ removed ∨ l.target = e.index
  known : ∀ f ∈ c.entries, (f.unit.relative == e.unit.relative) = true →
    ∀ x ∈ f.unit.summary.imports, x.line = n → c.resolve f x = none → x.kind = .asset

/-! ## Lines of sites -/

theorem exists_insertAtLine_iff {site : ImportSite} {sites : List ImportSite} {n : Nat} :
    (∃ s ∈ insertAtLine site sites, s.line = n) ↔ site.line = n ∨ ∃ s ∈ sites, s.line = n := by
  induction sites with
  | nil => simp [insertAtLine]
  | cons first sites ih =>
    rw [insertAtLine]
    split
    · simp
    · split
      · rename_i hline
        simp [← hline]
      · rw [exists_mem_cons_iff, exists_mem_cons_iff, ih]
        exact or_left_comm

theorem exists_insertAtLines_iff {sites lines : List ImportSite} {n : Nat} :
    (∃ s ∈ sites.foldl (fun lines site => insertAtLine site lines) lines, s.line = n) ↔
      (∃ s ∈ sites, s.line = n) ∨ ∃ s ∈ lines, s.line = n := by
  induction sites generalizing lines with
  | nil => simp
  | cons first sites ih =>
    rw [foldl_cons, ih, exists_insertAtLine_iff, exists_mem_cons_iff, or_assoc]
    exact or_left_comm

namespace Graph

variable {units : List SourceUnit} {removed : List Nat} {i n : Nat} {u : SourceUnit}

/-! ## Lines that import something removed -/

theorem exists_staleSites_iff (hu : units[i]? = some u) (hstays : i ∉ removed) :
    (∃ site ∈ (build units).staleSites removed i, site.line = n) ↔
      ∃ x ∈ u.summary.imports, x.line = n ∧ x.kind ≠ .asset ∧
        ∃ j ∈ removed, (Catalog.ofUnits units).leadsTo ⟨i, u.relText, u⟩ j x = true := by
  simp only [staleSites, exists_insertAtLines_iff, not_mem_nil, false_and, exists_false, or_false,
    mem_filter, mem_flatMap]
  constructor
  · rintro ⟨site, ⟨⟨e, ⟨he, hremoved⟩, hsite⟩, hkind⟩, rfl⟩
    obtain ⟨he, hsource⟩ := mem_filter.1 he
    obtain ⟨x, hx, hleads, rfl⟩ := (mem_sites_of_leadsTo he hu (beq_iff_eq.1 hsource).symm).1 hsite
    exact ⟨x, hx, rfl, by simpa using hkind, e.target, by simpa using hremoved, hleads⟩
  · rintro ⟨x, hx, rfl, hkind, j, hj, hleads⟩
    obtain ⟨e, he, rfl, hsite⟩ := exists_edge_of_leadsTo hu hx hleads fun heq => hstays (heq ▸ hj)
    exact ⟨_, ⟨⟨e, ⟨he, by simpa using hj⟩, hsite⟩, by simpa using hkind⟩, rfl⟩

/-! ## Lines of a plan -/

theorem exists_staleImports_iff (hu : units[i]? = some u) : (∃ x ∈ (build units).staleImports removed i u, x.line = n) ↔
    (∃ site ∈ (build units).staleSites removed i, site.line = n) ∧ n ∉ (build units).neededLines removed i u := by
  constructor
  · rintro ⟨x, hx, rfl⟩
    obtain ⟨hsite, hneeded, -⟩ := exists_of_mem_staleImports hx
    exact ⟨hsite, hneeded⟩
  · rintro ⟨⟨site, hsite, rfl⟩, hneeded⟩
    obtain ⟨e, he, hsource, -, hmem⟩ := exists_edge_of_mem_staleSites hsite
    obtain ⟨x, hx, -, rfl⟩ := (mem_sites_of_leadsTo he hu hsource.symm).1 hmem
    have hfound : (u.summary.imports.find? fun y => y.line == x.line && y.kind == x.kind).isSome :=
      find?_isSome.2 ⟨x, hx, by simp⟩
    obtain ⟨y, hy⟩ := Option.isSome_iff_exists.1 hfound
    refine ⟨⟨x.line, x.kind, y.target⟩, mem_filterMap.2 ⟨_, mem_filter.2 ⟨hsite, ?_⟩, ?_⟩, rfl⟩
    · simpa using hneeded
    · rw [hy, Option.map_some]

theorem prunable_iff (hu : units[i]? = some u) (hstays : i ∉ removed) :
    (∃ x ∈ (build units).staleImports removed i u, x.line = n) ↔
      (Catalog.ofUnits units).Prunable ⟨i, u.relText, u⟩ removed n := by
  rw [exists_staleImports_iff hu, exists_staleSites_iff hu hstays, mem_neededLines_iff hu, not_or]
  constructor
  · rintro ⟨hleads, hspares, hknown⟩
    refine ⟨hleads, ?_, ?_⟩
    · intro x hx hline links hlinks l hl
      apply by_contra
      intro hneeded
      rw [not_or] at hneeded
      exact hspares ⟨x, hx, hline, links, hlinks, l, hl, hneeded⟩
    · intro f hf hpath x hx hline hnone
      apply by_contra
      intro hkind
      exact hknown ⟨f, hf, hpath, x, hx, hline, hnone, hkind⟩
  · rintro ⟨hleads, hspares, hknown⟩
    refine ⟨hleads, ?_, ?_⟩
    · rintro ⟨x, hx, hline, links, hlinks, l, hl, hne, hself⟩
      exact (hspares x hx hline links hlinks l hl).elim hne hself
    · rintro ⟨f, hf, hpath, x, hx, hline, hnone, hkind⟩
      exact hkind (hknown f hf hpath x hx hline hnone)

theorem mem_pruningPlans_of_staleImports {g : Graph} (hu : g.units[i]? = some u) (hstays : i ∉ removed)
    (hne : g.staleImports removed i u ≠ []) :
    (⟨i, u.relative, u.path, g.staleImports removed i u⟩ : PruningPlan) ∈ g.pruningPlans removed := by
  refine mem_filterMap.2 ⟨(u, i), mem_filter.2 ⟨mem_zipIdx_iff_getElem?.2 hu, by simpa using hstays⟩, ?_⟩
  dsimp only
  split
  · rename_i hnil
    exact absurd hnil hne
  · rfl

end Graph

/-- **The lines of the plans are the prunable lines of the units that stay.** A line on which something else is imported
is in no plan, unless it is a reference of a document that no file satisfies; and no prunable line is left out. -/
theorem planned_line_iff (units : List SourceUnit) (removed : List Nat) (i n : Nat) :
    (∃ plan ∈ (Graph.build units).pruningPlans removed, plan.unit = i ∧ ∃ x ∈ plan.imports, x.line = n) ↔
      i ∉ removed ∧ ∃ u, units[i]? = some u ∧ (Catalog.ofUnits units).Prunable ⟨i, u.relText, u⟩ removed n := by
  constructor
  · rintro ⟨plan, hplan, rfl, x, hx, hline⟩
    obtain ⟨i, u, hu, hstays, -, rfl⟩ := Graph.eq_of_mem_pruningPlans hplan
    rw [Graph.units_build] at hu
    exact ⟨hstays, u, hu, (Graph.prunable_iff hu hstays).1 ⟨x, hx, hline⟩⟩
  · rintro ⟨hstays, u, hu, hprunable⟩
    obtain ⟨x, hx, hline⟩ := (Graph.prunable_iff hu hstays).2 hprunable
    have hplan := Graph.mem_pruningPlans_of_staleImports ((Graph.units_build units).symm ▸ hu)
      hstays (List.ne_nil_of_mem hx)
    exact ⟨_, hplan, rfl, x, hx, hline⟩

def documentWithPicture : SourceUnit where
  path := ⟨"index.html"⟩
  relative := ⟨"index.html"⟩
  language := .html
  summary := { imports := [⟨"b.png", .everything, 1, .asset⟩, ⟨"./b.js", .none, 1, .sideEffect⟩] }

/-- When `b.js` is removed, the line goes and takes the reference to the picture with it, though that leads nowhere. -/
theorem planned_beside_picture :
    let units := [documentWithPicture, { path := ⟨"b.js"⟩, relative := ⟨"b.js"⟩, language := .javaScript }]
    let page : CatalogEntry := ⟨0, documentWithPicture.relText, documentWithPicture⟩
    ((Graph.build units).pruningPlans [1]).map (fun plan => (plan.unit, plan.imports)) =
        [(0, [⟨1, .sideEffect, "./b.js"⟩])] ∧
      ∃ x ∈ documentWithPicture.summary.imports, x.line = 1 ∧ (Catalog.ofUnits units).resolve page x = none := by
  decide +kernel

end Deadwood
