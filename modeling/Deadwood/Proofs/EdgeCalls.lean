import Deadwood.Proofs.Reordering

/-!
# Imports added in any order

A graph takes imports between any positions, one after the other, and answers of each whether it made a new edge. What
it is in the end does not depend on their order.

* **`additions_collected`**: the edges are what the imports between two units come to.
-/

namespace Deadwood

open List

variable {g : Graph} {units : List SourceUnit} {as bs : List Addition}

namespace Graph

variable {e : Edge} {i j : Nat}

def insertAll : Graph → List Addition → Graph × List Bool
  | g, [] => (g, [])
  | g, a :: as =>
    let first := g.insertEdge a.source a.target a.names a.site
    let rest := insertAll first.1 as
    (rest.1, first.2 :: rest.2)

/-! ## One import -/

/-- **The answer is right**: there is one edge more if it says so, and else there are as many as before. -/
theorem length_edges_insertEdge (g : Graph) (source target : Nat) (names : ImportedNames) (site : Option ImportSite) :
    (g.insertEdge source target names site).1.edges.length =
      g.edges.length + [(g.insertEdge source target names site).2].count true := by
  show (g.addEdge source target names site).edges.length =
    g.edges.length + [g.canLink source target && (g.edge? source target).isNone].count true
  unfold addEdge
  split
  · rename_i hlink
    simp_all
  · rename_i hlink
    split
    · rename_i hedge
      obtain ⟨e, he⟩ := Option.isSome_iff_exists.1 hedge
      simp [he]
    · rename_i hedge
      have hcan : g.canLink source target = true := by simpa using hlink
      have hnone : g.edge? source target = none := by simpa using hedge
      simp [hcan, hnone]

/-! ## Several imports -/

theorem length_edges_insertAll (g : Graph) (as : List Addition) :
    (g.insertAll as).1.edges.length = g.edges.length + (g.insertAll as).2.count true := by
  induction as generalizing g with
  | nil => rfl
  | cons a as ih =>
    have hfirst := length_edges_insertEdge g a.source a.target a.names a.site
    have hrest := ih (g.insertEdge a.source a.target a.names a.site).1
    simp only [insertAll, count_cons, count_nil] at hfirst hrest ⊢
    omega

theorem grows_insertAll (g : Graph) (as : List Addition) : Grows g (g.insertAll as).1 as [] := by
  induction as generalizing g with
  | nil => exact .refl g
  | cons a as ih => exact (grows_add g a).trans (ih (g.add a))

theorem isJoin_insertAll (units : List SourceUnit) (as : List Addition) (i j : Nat) :
    IsJoin (as.filter fun a => a.between i j && canLink { units } i j) ((insertAll { units } as).1.edge? i j) := by
  rw [(grows_insertAll { units } as).edge i j]
  exact isJoin_joinAll _

/-- The graph has the edges that some imports make between units: one edge from a unit to another if the first imports
the second, with the names and the places of these imports. -/
structure Collects (g : Graph) (units : List SourceUnit) (as : List Addition) : Prop where
  single : ∀ i j, (g.edges.filter fun e => e.source == i && e.target == j).length ≤ 1
  /-- No edge leads from a unit to itself, and none leads from or to a position without a unit. -/
  ends : ∀ e ∈ g.edges, e.source ≠ e.target ∧ e.source < units.length ∧ e.target < units.length
  outgoing : ∀ i j e, e ∈ g.edgesFrom i ∧ e.target = j ↔ g.edge? i j = some e
  incoming : ∀ i j e, e ∈ g.edgesInto j ∧ e.source = i ↔ g.edge? i j = some e
  linked : ∀ i j, (∃ e, g.edge? i j = some e) ↔
    (i ≠ j ∧ i < units.length ∧ j < units.length) ∧ ∃ a ∈ as, a.source = i ∧ a.target = j
  names : ∀ i j e, g.edge? i j = some e → ∀ name, e.names.contains name = true ↔
    ∃ a ∈ as, (a.source = i ∧ a.target = j) ∧ a.names.contains name = true
  /-- An edge holds the places of its imports, each once. -/
  sites : ∀ i j e, g.edge? i j = some e → e.sites.Nodup ∧ ∀ site, site ∈ e.sites ↔
    ∃ a ∈ as, (a.source = i ∧ a.target = j) ∧ a.site = some site

theorem length_filter_ends_le (g : Graph) (i j : Nat) :
    (g.edges.filter fun e => e.source == i && e.target == j).length ≤ 1 := by
  have hsingle := g.single.sublist (filter_sublist (p := fun e => e.source == i && e.target == j))
  have hends : ∀ x ∈ g.edges.filter fun e => e.source == i && e.target == j, x.source = i ∧ x.target = j := by
    intro x hx
    simpa using (mem_filter.1 hx).2
  generalize g.edges.filter (fun e => e.source == i && e.target == j) = edges at hsingle hends ⊢
  match edges with
  | [] => simp
  | [_] => simp
  | e :: f :: rest =>
    obtain ⟨hes, het⟩ := hends e (by simp)
    obtain ⟨hfs, hft⟩ := hends f (by simp)
    exact absurd ⟨hes.trans hfs.symm, het.trans hft.symm⟩ (rel_of_pairwise_cons hsingle (by simp))

theorem mem_filter_between (hcan : canLink { units } i j = true) {a : Addition} :
    a ∈ as.filter (fun a => a.between i j && canLink { units } i j) ↔ a ∈ as ∧ a.source = i ∧ a.target = j := by
  simp [hcan, Addition.between]

theorem canLink_of_edge? (h : (insertAll { units } as).1.edge? i j = some e) : canLink { units } i j = true := by
  apply by_contra
  intro hcan
  have hnone := (isJoin_insertAll units as i j).none_iff.2 (by simp [hcan])
  rw [h] at hnone
  cases hnone

/-- **Whatever is added, the edges are what the imports come to.** -/
theorem collects_insertAll (units : List SourceUnit) (as : List Addition) :
    (insertAll { units } as).1.Collects units as := by
  have hjoin := isJoin_insertAll units as
  refine ⟨length_filter_ends_le _, ?_, fun i j e => by simp [edge?_eq_some, edgesFrom, and_assoc],
    fun i j e => by simp [edge?_eq_some, edgesInto, and_assoc, and_comm], ?_, ?_, ?_⟩
  · intro e he
    have hwithin := (insertAll { units } as).1.within e he
    rwa [(grows_insertAll { units } as).units] at hwithin
  · intro i j
    constructor
    · rintro ⟨e, he⟩
      have hcan := canLink_of_edge? he
      refine ⟨canLink_iff.1 hcan, ?_⟩
      apply by_contra
      intro hno
      -- without an import between the two there would be no edge
      have hnone := (hjoin i j).none_iff.2 (eq_nil_iff_forall_not_mem.2 fun a ha => ?_)
      · rw [he] at hnone
        cases hnone
      · obtain ⟨hmem, hends⟩ := (mem_filter_between hcan).1 ha
        exact hno ⟨a, hmem, hends⟩
    · rintro ⟨hallows, a, ha, hends⟩
      have hcan : canLink { units } i j = true := canLink_iff.2 hallows
      apply Option.ne_none_iff_exists'.1
      intro hnone
      have hnil := (hjoin i j).none_iff.1 hnone
      exact not_mem_nil (hnil ▸ (mem_filter_between hcan).2 ⟨ha, hends⟩)
  · intro i j e he name
    rw [(hjoin i j).names e he]
    simp only [mem_filter_between (canLink_of_edge? he), and_assoc]
  · intro i j e he
    rw [(hjoin i j).sites e he]
    refine ⟨nodup_eraseDups _, fun site => ?_⟩
    simp only [mem_eraseDups, mem_filterMap, mem_filter_between (canLink_of_edge? he), and_assoc]

theorem Collects.perm (h : g.Collects units as) (hperm : as.Perm bs) : g.Collects units bs := by
  have hmem (P : Addition → Prop) : (∃ a ∈ as, P a) ↔ ∃ a ∈ bs, P a := by simp only [hperm.mem_iff]
  refine ⟨h.single, h.ends, h.outgoing, h.incoming, ?_, ?_, ?_⟩
  · intro i j
    rw [h.linked, hmem]
  · intro i j e he name
    rw [h.names i j e he, hmem]
  · intro i j e he
    refine ⟨(h.sites i j e he).1, fun site => ?_⟩
    rw [(h.sites i j e he).2, hmem]

end Graph

/-- The edges hold the same names, and the same places in some order. -/
def Edge.SameImports (e f : Edge) : Prop :=
  e.source = f.source ∧ e.target = f.target ∧ e.names = f.names ∧ e.sites.Perm f.sites

namespace Graph

theorem Collects.sameImports {g' : Graph} (h : g.Collects units as) (h' : g'.Collects units as) (i j : Nat) :
    Option.Rel Edge.SameImports (g.edge? i j) (g'.edge? i j) := by
  cases hedge : g.edge? i j with
  | none =>
    cases hedge' : g'.edge? i j with
    | none => exact .none
    | some f =>
      obtain ⟨e, he⟩ := (h.linked i j).2 ((h'.linked i j).1 ⟨f, hedge'⟩)
      rw [hedge] at he
      cases he
  | some e =>
    obtain ⟨f, hf⟩ := (h'.linked i j).2 ((h.linked i j).1 ⟨e, hedge⟩)
    obtain ⟨-, hes, het⟩ := edge?_eq_some.1 hedge
    obtain ⟨-, hfs, hft⟩ := edge?_eq_some.1 hf
    obtain ⟨hnodup, hsites⟩ := h.sites i j e hedge
    obtain ⟨hnodup', hsites'⟩ := h'.sites i j f hf
    rw [hf]
    refine .some ⟨hes.trans hfs.symm, het.trans hft.symm, ?_, ?_⟩
    · apply ImportedNames.ext_contains
      intro name
      rw [h.names i j e hedge, h'.names i j f hf]
    · apply (perm_ext_iff_of_nodup hnodup hnodup').2
      intro site
      rw [hsites, hsites']

end Graph

/-- **The edges of a graph are what the imports that were added come to**, whatever the positions, names and places
are. Every new edge was announced by the answer to the import that made it. In another order the imports come to the
same edges, with the same names and the same places. -/
theorem additions_collected (units : List SourceUnit) (as : List Addition) :
    (Graph.insertAll { units } as).1.Collects units as ∧
      (Graph.insertAll { units } as).1.edges.length =
        (Graph.insertAll { units } as).2.count true ∧
      ∀ bs : List Addition, as.Perm bs → ∀ i j, Option.Rel Edge.SameImports
        ((Graph.insertAll { units } as).1.edge? i j)
        ((Graph.insertAll { units } bs).1.edge? i j) := by
  have hcollects := Graph.collects_insertAll units as
  refine ⟨hcollects, ?_, fun bs hperm i j => ?_⟩
  · rw [Graph.length_edges_insertAll]
    exact Nat.zero_add _
  · exact (hcollects.perm hperm).sameImports (Graph.collects_insertAll units bs) i j

/-- A new edge, an import of all names that it takes in, a place that it has already, a unit that imports itself, a
position without a unit, and an edge the other way; then the same backwards. -/
theorem additions_collected_backwards :
    let unit (path : String) : SourceUnit := { path := ⟨path⟩, relative := ⟨path⟩, language := .javaScript }
    let units := [unit "a.js", unit "b.js"]
    let as : List Addition := [⟨0, 1, .single "x", some ⟨1, .module⟩⟩, ⟨0, 1, .everything, none⟩,
      ⟨0, 1, .single "y", some ⟨1, .module⟩⟩, ⟨1, 1, .single "x", some ⟨2, .module⟩⟩, ⟨0, 2, .everything, none⟩,
      ⟨1, 0, .none, some ⟨4, .reExport⟩⟩]
    as.Perm as.reverse ∧
      (Graph.insertAll { units } as).2 = [true, false, false, false, false, true] ∧
      (Graph.insertAll { units } as.reverse).2 = [true, false, false, true, false, false] ∧
      ∀ i j, Option.Rel Edge.SameImports ((Graph.insertAll { units } as).1.edge? i j)
        ((Graph.insertAll { units } as.reverse).1.edge? i j) := by
  intro unit units as
  have hperm : as.Perm as.reverse := as.reverse_perm.symm
  exact ⟨hperm, by decide, by decide, (additions_collected units as).2.2 as.reverse hperm⟩

end Deadwood
