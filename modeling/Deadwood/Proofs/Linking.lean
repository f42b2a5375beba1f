import Deadwood.Proofs.FixedPoint
import Deadwood.Proofs.Monotone
import Mathlib.Data.List.Induction
import Mathlib.Data.List.Pairwise

/-!
# The graph that is built

The graph of some units is built by adding imports one after the other. What becomes of the edge between two units
depends on the imports between these two alone (`Graph.edge?_add`).

* **`resolves_build`**: the graph of some units says what the resolution of their imports says.
-/

namespace Deadwood

open List Deadwood.Graph Catalog

/-! ## Links lead to units -/

namespace Catalog

variable {c : Catalog} {e : CatalogEntry} {l : Link} {f : CatalogEntry}

/-- Sends every position at which no unit is to that of the unit `e`. -/
def clamp (c : Catalog) (e : CatalogEntry) (t : Nat) : Nat := if ∃ f ∈ c.entries, f.index = t then t else e.index

theorem clamp_of_mem (hf : f ∈ c.entries) : c.clamp e f.index = f.index :=
  if_pos ⟨f, hf, rfl⟩

theorem exists_index_clamp (he : e ∈ c.entries) (t : Nat) : ∃ f ∈ c.entries, f.index = c.clamp e t := by
  unfold clamp
  split
  · assumption
  · exact ⟨e, he, rfl⟩

theorem moved_clamp (hf : f ∈ c.entries) : f.moved (c.clamp e) = f := by
  rw [CatalogEntry.moved, clamp_of_mem hf]

theorem exists_of_lookup? {path : String} {t : Nat} (h : c.lookup? path = some t) : ∃ f ∈ c.entries, f.index = t := by
  unfold lookup? at h
  split at h
  · cases h
  · obtain ⟨f, hf, ht⟩ := Option.map_eq_some_iff.1 h
    exact ⟨f, mem_of_mem_filter (mem_of_getLast? hf), ht⟩

theorem thinned_clamp (c : Catalog) (e : CatalogEntry) : Thinned c c (c.clamp e) fun _ => True where
  old f hf := (moved_clamp hf).symm ▸ hf
  kept f hf _ := ⟨f, hf, moved_clamp hf⟩
  injective f hf f' hf' heq := by rwa [clamp_of_mem hf, clamp_of_mem hf'] at heq
  lookup? path := by
    refine ⟨id, fun t ht _ => ⟨t, ht, ?_⟩⟩
    obtain ⟨f, hf, rfl⟩ := exists_of_lookup? ht
    exact clamp_of_mem hf

theorem inOrder_clamp (c : Catalog) (e : CatalogEntry) : InOrder c c (c.clamp e) fun _ => True := by
  refine ⟨fun _ => true, fun _ _ _ => rfl, ?_⟩
  rw [filter_true, map_congr_left fun f hf => moved_clamp hf, map_id']

theorem exists_of_resolve (he : e ∈ c.entries) {i : Import} {links : List Link}
    (hlinks : c.resolve e i = some links) (hl : l ∈ links) : ∃ f ∈ c.entries, f.index = l.target := by
  have hsteady := (c.thinned_clamp e).resolve (c.inOrder_clamp e) he trivial i
  rw [moved_clamp he] at hsteady
  obtain ⟨links', -, hsame⟩ := hsteady.found links hlinks ⟨ne_nil_of_mem hl, fun _ _ => trivial⟩
  obtain ⟨l', -, rfl⟩ := hsame l hl
  exact exists_index_clamp he l'.target

theorem exists_of_implicitLinks (he : e ∈ c.entries) (hl : l ∈ c.implicitLinks e) :
    ∃ f ∈ c.entries, f.index = l.target := by
  have hsteady := (c.thinned_clamp e).implicitLinks he
  rw [moved_clamp he] at hsteady
  obtain ⟨l', -, rfl⟩ := hsteady.found l hl trivial
  exact exists_index_clamp he l'.target

theorem DependsOn.exists_index (he : e ∈ c.entries) {target : Nat} (h : c.DependsOn e target) :
    ∃ f ∈ c.entries, f.index = target := by
  rcases h with ⟨i, -, links, hlinks, l, hl, rfl⟩ | ⟨l, hl, rfl⟩
  · exact exists_of_resolve he hlinks hl
  · exact exists_of_implicitLinks he hl

end Catalog

/-! ## Without repeats -/

section EraseDups

variable {α β : Type} [BEq α] [LawfulBEq α]

theorem eraseDups_concat (l : List α) (a : α) :
    (l ++ [a]).eraseDups = if a ∈ l then l.eraseDups else l.eraseDups ++ [a] := by
  rw [eraseDups_append]
  by_cases h : a ∈ l <;> simp [List.removeAll, h, eraseDups_cons]

/-- What is added to lists that are equal up to repeats is added once. -/
theorem eraseDups_append_replicate {l l' : List α} (h : l.eraseDups = l'.eraseDups) (a : α) :
    ∀ n : Nat, (l ++ List.replicate (n + 1) a).eraseDups = (l' ++ [a]).eraseDups
  | 0 => by
    have hmem : a ∈ l ↔ a ∈ l' := by rw [← mem_eraseDups, h, mem_eraseDups]
    simp only [Nat.zero_add, replicate_one, eraseDups_concat, hmem, h]
  | n + 1 => by
    rw [replicate_succ', ← append_assoc, eraseDups_concat, if_pos (by simp)]
    exact eraseDups_append_replicate h a n

theorem eraseDups_flatMap_replicate (f : β → α) (count : β → Nat) (l : List β) :
    (l.flatMap fun b => List.replicate (count b) (f b)).eraseDups =
      ((l.filter fun b => count b != 0).map f).eraseDups := by
  induction l using List.reverseRecOn with
  | nil => rfl
  | append_singleton l b ih =>
    rw [flatMap_append, flatMap_singleton, filter_append, map_append]
    cases hb : count b with
    | zero => simpa [hb] using ih
    | succ n => simpa [hb] using eraseDups_append_replicate ih (f b) n

end EraseDups

/-! ## Additions -/

structure Addition where
  source : Nat
  target : Nat
  names : ImportedNames
  site : Option ImportSite

namespace Addition

def between (i j : Nat) (a : Addition) : Bool := a.source == i && a.target == j

def join (a : Addition) : Option Edge → Edge
  | some e => e.absorb a.names a.site
  | none => ⟨a.source, a.target, a.names, a.site.toList⟩

theorem between_iff {a : Addition} {i j : Nat} : a.between i j = true ↔ a.source = i ∧ a.target = j := by
  simp [between]

end Addition

def joinAll (as : List Addition) (o : Option Edge) : Option Edge :=
  as.foldl (fun o a => some (a.join o)) o

/-- The edge that some imports make together holds the names of all of them, and the places where they
are written, each once. -/
structure IsJoin (as : List Addition) (o : Option Edge) : Prop where
  none_iff : o = none ↔ as = []
  names : ∀ e, o = some e → ∀ name, e.names.contains name = true ↔ ∃ a ∈ as, a.names.contains name = true
  sites : ∀ e, o = some e → e.sites = (as.filterMap (·.site)).eraseDups

theorem IsJoin.step {as : List Addition} {o : Option Edge} (h : IsJoin as o) (a : Addition) :
    IsJoin (as ++ [a]) (some (a.join o)) := by
  refine ⟨by simp, ?_, ?_⟩
  · rintro _ ⟨⟩ name
    simp only [mem_append, mem_singleton, or_and_right, exists_or, exists_eq_left]
    cases o with
    | none => simp [h.none_iff.1 rfl, Addition.join]
    | some e => rw [← h.names e rfl, ← ImportedNames.contains_merge]; rfl
  · rintro _ ⟨⟩
    rw [filterMap_append]
    cases o with
    | none =>
      rw [h.none_iff.1 rfl]
      cases hsite : a.site <;> simp [Addition.join, hsite, eraseDups_cons]
    | some e =>
      have hsites := h.sites e rfl
      cases hsite : a.site with
      | none => simp [Addition.join, Edge.absorb, hsite, hsites]
      | some site => simp [Addition.join, Edge.absorb, hsite, hsites, eraseDups_concat]

theorem IsJoin.joinAll {seen : List Addition} {o : Option Edge} (h : IsJoin seen o)
    (as : List Addition) : IsJoin (seen ++ as) (joinAll as o) := by
  induction as generalizing seen o with
  | nil => simpa [Deadwood.joinAll] using h
  | cons a as ih => simpa [Deadwood.joinAll] using ih (h.step a)

theorem isJoin_joinAll (as : List Addition) : IsJoin as (joinAll as none) :=
  (⟨by simp, nofun, nofun⟩ : IsJoin [] none).joinAll as

variable {s : CatalogEntry} {e : Edge} {units : List SourceUnit}

namespace Graph

variable {g g' g'' : Graph}

def add (g : Graph) (a : Addition) : Graph := g.addEdge a.source a.target a.names a.site

theorem eq_of_sameEnds {f : Edge} (he : e ∈ g.edges) (hf : f ∈ g.edges) (h : e.sameEnds f) : e = f := by
  have hsymm : Std.Symm fun e f : Edge => ¬ e.sameEnds f :=
    ⟨fun _ _ hne hends => hne ⟨hends.1.symm, hends.2.symm⟩⟩
  exact by_contra fun hne => g.single.forall he hf hne h

theorem edge?_eq_some {i j : Nat} : g.edge? i j = some e ↔ e ∈ g.edges ∧ e.source = i ∧ e.target = j := by
  have hfound {f : Edge} (hf : g.edge? i j = some f) : f ∈ g.edges ∧ f.source = i ∧ f.target = j := by
    have hends := find?_some hf
    rw [Bool.and_eq_true, beq_iff_eq, beq_iff_eq] at hends
    exact ⟨mem_of_find?_eq_some hf, hends⟩
  refine ⟨hfound, ?_⟩
  rintro ⟨he, rfl, rfl⟩
  have hsome : (g.edge? e.source e.target).isSome := find?_isSome.2 ⟨e, he, by simp⟩
  obtain ⟨f, hf⟩ := Option.isSome_iff_exists.1 hsome
  obtain ⟨hmem, hends⟩ := hfound hf
  rw [hf, eq_of_sameEnds hmem he hends]

/-- **What becomes of an edge when an import is added.** Only the edge between the two units changes. -/
theorem edge?_add (g : Graph) (a : Addition) (i j : Nat) : (g.add a).edge? i j =
    if a.between i j && g.canLink i j then some (a.join (g.edge? i j)) else g.edge? i j := by
  have hbetween : a.between i j = true → a.source = i ∧ a.target = j := Addition.between_iff.1
  unfold add addEdge
  split
  · rename_i hlink
    rw [if_neg]
    rw [Bool.and_eq_true]
    rintro ⟨hends, hcan⟩
    obtain ⟨rfl, rfl⟩ := hbetween hends
    simp [hcan] at hlink
  · rename_i hlink
    rw [Bool.not_eq_true', Bool.not_eq_false] at hlink
    split
    · rename_i hedge
      -- the edge is there: the one between these units takes the import in, the others stay
      have hmap : (g.edges.map (absorbAt a.source a.target a.names a.site)).find?
          (fun e => e.source == i && e.target == j) =
            (g.edge? i j).map (absorbAt a.source a.target a.names a.site) := by
        rw [find?_map, edge?]
        congr 2
        funext e
        simp
      refine hmap.trans ?_
      by_cases hends : a.between i j
      · obtain ⟨rfl, rfl⟩ := hbetween hends
        obtain ⟨e, he⟩ := Option.isSome_iff_exists.1 hedge
        obtain ⟨-, hs, ht⟩ := edge?_eq_some.1 he
        simp [hends, hlink, he, absorbAt, hs, ht, Addition.join]
      · rw [if_neg (by simp [hends])]
        cases he : g.edge? i j with
        | none => rfl
        | some e =>
          obtain ⟨-, rfl, rfl⟩ := edge?_eq_some.1 he
          have hne : ¬ (e.source = a.source ∧ e.target = a.target) := fun h =>
            hends (Addition.between_iff.2 ⟨h.1.symm, h.2.symm⟩)
          simp [absorbAt, hne]
    · rename_i hedge
      rw [Bool.not_eq_true, Option.isSome_eq_false_iff, Option.isNone_iff_eq_none] at hedge
      rw [edge?, find?_cons]
      by_cases hends : a.between i j
      · obtain ⟨rfl, rfl⟩ := hbetween hends
        simp [hends, hlink, hedge, Addition.join]
      · have hfirst : (a.source == i && a.target == j) = false := Bool.eq_false_iff.2 hends
        rw [if_neg (by simp [hends]), hfirst]
        rfl

/-! ## Steps of the construction -/

theorem canLink_congr (h : g'.units = g.units) (i j : Nat) : g'.canLink i j = g.canLink i j := by
  simp only [canLink, h]

/-- What a step of the construction does: it adds imports between units, and records some that lead to
none. -/
structure Grows (g g' : Graph) (as : List Addition) (missing : List UnresolvedImport) : Prop where
  units : g'.units = g.units
  edge : ∀ i j, g'.edge? i j = joinAll (as.filter fun a => a.between i j && g.canLink i j) (g.edge? i j)
  unresolved : g'.unresolved = g.unresolved ++ missing

namespace Grows

variable {as bs : List Addition} {missing missing' : List UnresolvedImport}

theorem refl (g : Graph) : Grows g g [] [] := ⟨rfl, fun _ _ => rfl, (append_nil _).symm⟩

theorem trans (h : Grows g g' as missing) (h' : Grows g' g'' bs missing') :
    Grows g g'' (as ++ bs) (missing ++ missing') := by
  refine ⟨h'.units.trans h.units, fun i j => ?_, by rw [h'.unresolved, h.unresolved, append_assoc]⟩
  rw [h'.edge, h.edge, filter_append, canLink_congr h.units, joinAll, joinAll, joinAll, foldl_append]

theorem foldl {α : Type} {f : Graph → α → Graph} {as : α → List Addition}
    {missing : α → List UnresolvedImport} (h : ∀ g x, Grows g (f g x) (as x) (missing x)) (xs : List α)
    (g : Graph) : Grows g (xs.foldl f g) (xs.flatMap as) (xs.flatMap missing) := by
  induction xs generalizing g with
  | nil => exact refl g
  | cons x xs ih => exact (h g x).trans (ih (f g x))

end Grows

theorem unresolved_addEdge (g : Graph) (source target : Nat) (names : ImportedNames)
    (site : Option ImportSite) : (g.addEdge source target names site).unresolved = g.unresolved := by
  unfold addEdge
  split
  · rfl
  · split <;> rfl

theorem grows_add (g : Graph) (a : Addition) : Grows g (g.add a) [a] [] := by
  refine ⟨units_addEdge .., fun i j => ?_, by rw [append_nil]; exact unresolved_addEdge ..⟩
  rw [edge?_add, filter_cons, filter_nil]
  split <;> rfl

def linkAdditions (source : Nat) (site : Option ImportSite) (links : List Link) : List Addition :=
  links.map fun l => ⟨source, l.target, l.names, site⟩

theorem grows_links (source : Nat) (site : Option ImportSite) (links : List Link) (g : Graph) :
    Grows g (links.foldl (fun g l => g.addEdge source l.target l.names site) g)
      (linkAdditions source site links) [] := by
  have h := Grows.foldl (fun g (l : Link) => grows_add g ⟨source, l.target, l.names, site⟩) links g
  rwa [← map_eq_flatMap, flatMap_eq_nil_iff.2 fun _ _ => rfl] at h

def importAdditions (c : Catalog) (e : CatalogEntry) (i : Import) : List Addition :=
  linkAdditions e.index (some ⟨i.line, i.kind⟩) ((c.resolve e i).getD [])

/-- No file satisfies the import of a unit, and it is not one of those that are passed over. -/
def isMissing (c : Catalog) (e : CatalogEntry) (i : Import) : Bool :=
  (c.resolve e i).isNone && i.kind != .asset

def unresolvedOf (e : CatalogEntry) (i : Import) : UnresolvedImport := ⟨e.unit.relative, i.target, i.line⟩

theorem grows_import (c : Catalog) (e : CatalogEntry) (g : Graph) (i : Import) :
    Grows g (addImport c e g i) (importAdditions c e i) (if isMissing c e i then [unresolvedOf e i] else []) := by
  unfold addImport importAdditions isMissing
  cases hlinks : c.resolve e i with
  | some links => exact grows_links e.index _ links g
  | none =>
    by_cases hkind : i.kind = .asset
    · simpa [hkind, linkAdditions] using Grows.refl g
    · simp only [hkind, beq_iff_eq, if_false]
      exact ⟨rfl, fun _ _ => rfl, by simp [hkind, addUnresolved, unresolvedOf]⟩

def unitAdditions (c : Catalog) (e : CatalogEntry) : List Addition :=
  e.unit.summary.imports.flatMap (importAdditions c e) ++ linkAdditions e.index none (c.implicitLinks e)

def missingOf (c : Catalog) (e : CatalogEntry) : List UnresolvedImport :=
  (e.unit.summary.imports.filter (isMissing c e)).map (unresolvedOf e)

theorem grows_unit (c : Catalog) (g : Graph) (e : CatalogEntry) :
    Grows g (addUnit c g e) (unitAdditions c e) (missingOf c e) := by
  have himports := Grows.foldl (grows_import c e) e.unit.summary.imports g
  have hlinks := grows_links e.index none (c.implicitLinks e) (e.unit.summary.imports.foldl (addImport c e) g)
  have hmissing : (e.unit.summary.imports.flatMap fun i =>
      if isMissing c e i then [unresolvedOf e i] else []) = missingOf c e := by
    unfold missingOf
    induction e.unit.summary.imports with
    | nil => rfl
    | cons i is ih => by_cases hi : isMissing c e i <;> simp [hi, ih]
  have h := himports.trans hlinks
  rwa [append_nil, hmissing] at h

theorem grows_build (units : List SourceUnit) : Grows { units } (build units)
    ((ofUnits units).entries.flatMap (unitAdditions (.ofUnits units)))
    ((ofUnits units).entries.flatMap (missingOf (.ofUnits units))) :=
  Grows.foldl (grows_unit (.ofUnits units)) _ _

/-! ## Edges and what is on them -/

theorem source_of_mem_unitAdditions {c : Catalog} {a : Addition} (ha : a ∈ unitAdditions c s) : a.source = s.index := by
  simp only [unitAdditions, importAdditions, linkAdditions, mem_append, mem_flatMap, mem_map] at ha
  rcases ha with ⟨i, -, l, -, rfl⟩ | ⟨l, -, rfl⟩ <;> rfl

theorem nodup_index_ofUnits (units : List SourceUnit) : ((ofUnits units).entries.map (·.index)).Nodup := by
  have hindex : (ofUnits units).entries.map (·.index) = List.range' 0 units.length := by
    rw [ofUnits, map_map]
    exact zipIdx_map_snd 0 units
  rw [hindex]
  exact nodup_range'

theorem filter_unitAdditions (hs : s ∈ (ofUnits units).entries) (j : Nat) :
    (((ofUnits units).entries.flatMap (unitAdditions (.ofUnits units))).filter
      (·.between s.index j)) = (unitAdditions (.ofUnits units) s).filter (·.between s.index j) := by
  have hnodup := nodup_index_ofUnits units
  obtain ⟨before, after, hsplit⟩ := append_of_mem hs
  rw [hsplit, map_append, map_cons, nodup_append, nodup_cons] at hnodup
  obtain ⟨-, ⟨hafter, -⟩, hbefore⟩ := hnodup
  have hnone {es : List CatalogEntry} (hes : ∀ e ∈ es, e.index ≠ s.index) :
      (es.flatMap (unitAdditions (.ofUnits units))).filter (·.between s.index j) = [] := by
    rw [filter_eq_nil_iff]
    intro a ha hbetween
    obtain ⟨e, he, hae⟩ := mem_flatMap.1 ha
    exact hes e he ((source_of_mem_unitAdditions hae).symm.trans (Addition.between_iff.1 hbetween).1)
  rw [hsplit, flatMap_append, flatMap_cons, filter_append, filter_append,
    hnone fun e he => hbefore _ (mem_map_of_mem he) _ mem_cons_self,
    hnone fun e he heq => hafter (heq ▸ mem_map_of_mem he), nil_append, append_nil]

/-- **An edge of the graph is made of the additions of the importing unit.** -/
theorem isJoin_edge (he : e ∈ (build units).edges) (hs : s ∈ (ofUnits units).entries) (hsource : s.index = e.source) :
    IsJoin ((unitAdditions (.ofUnits units) s).filter (·.between e.source e.target)) (some e) := by
  have hcan : canLink { units } e.source e.target = true := by
    have hwithin := (build units).within e he
    rw [units_build] at hwithin
    exact canLink_iff.2 hwithin
  have hedge := (grows_build units).edge e.source e.target
  simp only [edge?_eq_some.2 ⟨he, rfl, rfl⟩, hcan, Bool.and_true] at hedge
  rw [hedge, ← hsource, filter_unitAdditions hs]
  exact isJoin_joinAll _

end Graph

namespace Catalog

def leadsTo (c : Catalog) (s : CatalogEntry) (target : Nat) (i : Import) : Bool :=
  ((c.resolve s i).getD []).any (·.target == target)

/-- A unit asks for a name of the unit at a position: a link that leads there, of an import or without
one, carries the name. -/
def AsksFor (c : Catalog) (s : CatalogEntry) (target : Nat) (name : String) : Prop :=
  (∃ i ∈ s.unit.summary.imports, ∃ links, c.resolve s i = some links ∧
    ∃ l ∈ links, l.target = target ∧ l.names.contains name = true) ∨
  ∃ l ∈ c.implicitLinks s, l.target = target ∧ l.names.contains name = true

theorem asksFor_iff {c : Catalog} {s : CatalogEntry} {target : Nat} {name : String} :
    c.AsksFor s target name ↔ ∃ a ∈ (unitAdditions c s).filter (·.between s.index target),
      a.names.contains name = true := by
  simp only [unitAdditions, importAdditions, linkAdditions,
    mem_filter, mem_append, mem_flatMap, mem_map, Addition.between_iff]
  constructor
  · rintro (⟨i, hi, links, hlinks, l, hl, ht, hname⟩ | ⟨l, hl, ht, hname⟩)
    · exact ⟨_, ⟨.inl ⟨i, hi, l, by rwa [hlinks], rfl⟩, rfl, ht⟩, hname⟩
    · exact ⟨_, ⟨.inr ⟨l, hl, rfl⟩, rfl, ht⟩, hname⟩
  · rintro ⟨a, ⟨⟨i, hi, l, hl, rfl⟩ | ⟨l, hl, rfl⟩, -, ht⟩, hname⟩
    · cases hlinks : c.resolve s i with
      | none => simp [hlinks] at hl
      | some links => exact .inl ⟨i, hi, links, hlinks, l, by simpa [hlinks] using hl, ht, hname⟩
    · exact .inr ⟨l, hl, ht, hname⟩

theorem sites_unitAdditions (c : Catalog) (s : CatalogEntry) (target : Nat) :
    ((unitAdditions c s).filter (·.between s.index target)).filterMap (·.site) = s.unit.summary.imports.flatMap fun i =>
        List.replicate (((c.resolve s i).getD []).countP (·.target == target)) (⟨i.line, i.kind⟩ : ImportSite) := by
  have hlinks (site : Option ImportSite) (links : List Link) :
      ((linkAdditions s.index site links).filter (·.between s.index target)).filterMap (·.site) =
        (links.filter (·.target == target)).filterMap fun _ => site := by
    rw [linkAdditions, filter_map, filterMap_map]
    simp [Function.comp_def, Addition.between]
  simp only [unitAdditions, importAdditions, filter_append, filterMap_append, filter_flatMap, filterMap_flatMap, hlinks]
  simp [countP_eq_length_filter]

theorem sites_eq (c : Catalog) (s : CatalogEntry) (target : Nat) :
    (((unitAdditions c s).filter (·.between s.index target)).filterMap (·.site)).eraseDups =
      ((s.unit.summary.imports.filter (c.leadsTo s target)).map fun i => ⟨i.line, i.kind⟩).eraseDups := by
  rw [sites_unitAdditions, eraseDups_flatMap_replicate]
  congr 2
  refine filter_congr fun i _ => ?_
  rw [leadsTo, Bool.eq_iff_iff, bne_iff_ne, any_eq_true, ← Nat.pos_iff_ne_zero, countP_pos_iff]

end Catalog

namespace Graph

theorem imports_build_iff {i j : Nat} : (build units).Imports i j ↔
    i ≠ j ∧ ∃ s ∈ (ofUnits units).entries, s.index = i ∧ (ofUnits units).DependsOn s j := by
  rw [imports_build]
  refine and_congr_right fun _ => ⟨?_, ?_⟩
  · rintro ⟨-, u, hu, hdep⟩
    exact ⟨_, mem_ofUnits.2 ⟨hu, rfl⟩, rfl, hdep⟩
  · rintro ⟨s, hs, rfl, hdep⟩
    obtain ⟨f, hf, rfl⟩ := hdep.exists_index hs
    obtain ⟨hu, hpath⟩ := mem_ofUnits.1 hs
    exact ⟨(List.getElem?_eq_some_iff.1 (mem_ofUnits.1 hf).1).1, s.unit, hu, by rwa [← hpath]⟩

section

variable (he : e ∈ (build units).edges) (hs : s ∈ (ofUnits units).entries) (hsource : s.index = e.source)
include he hs hsource

theorem names_build (name : String) : e.names.contains name = true ↔ (ofUnits units).AsksFor s e.target name := by
  rw [asksFor_iff, hsource]
  exact (isJoin_edge he hs hsource).names e rfl name

theorem sites_build : e.sites = ((s.unit.summary.imports.filter ((ofUnits units).leadsTo s e.target)).map
        fun i => (⟨i.line, i.kind⟩ : ImportSite)).eraseDups := by
  rw [← sites_eq, hsource]
  exact (isJoin_edge he hs hsource).sites e rfl

theorem isImplicit_build : e.isImplicit = true ↔
      ∀ i ∈ s.unit.summary.imports, (ofUnits units).leadsTo s e.target i = false := by
  rw [Edge.isImplicit, List.isEmpty_iff, sites_build he hs hsource, eq_nil_iff_forall_not_mem]
  simp only [mem_eraseDups, mem_map, mem_filter]
  constructor
  · intro hnone i hi
    exact Bool.eq_false_iff.2 fun hlead => hnone _ ⟨i, ⟨hi, hlead⟩, rfl⟩
  · rintro hnone _ ⟨i, ⟨hi, hlead⟩, -⟩
    rw [hnone i hi] at hlead
    cases hlead

end

theorem unresolved_build (units : List SourceUnit) : (build units).unresolved =
    (ofUnits units).entries.flatMap (missingOf (.ofUnits units)) :=
  (grows_build units).unresolved

/-- A graph says of some units what the resolution of their imports says. -/
structure Resolves (g : Graph) (units : List SourceUnit) : Prop where
  /-- There is an edge between two different units if and only if the first depends on the second. -/
  edges : ∀ i j, g.Imports i j ↔ i ≠ j ∧ ∃ s ∈ (ofUnits units).entries, s.index = i ∧ (ofUnits units).DependsOn s j
  /-- The names on an edge are those that the first unit asks for. -/
  names : ∀ e ∈ g.edges, ∀ s ∈ (ofUnits units).entries, s.index = e.source →
    ∀ name, e.names.contains name = true ↔ (ofUnits units).AsksFor s e.target name
  /-- The sites of an edge are those of the imports that lead to the second unit, in order, each once. -/
  sites : ∀ e ∈ g.edges, ∀ s ∈ (ofUnits units).entries, s.index = e.source →
    e.sites = ((s.unit.summary.imports.filter ((ofUnits units).leadsTo s e.target)).map
      fun i => (⟨i.line, i.kind⟩ : ImportSite)).eraseDups
  /-- An edge is implicit if and only if no import leads to the second unit. -/
  implicit : ∀ e ∈ g.edges, ∀ s ∈ (ofUnits units).entries, s.index = e.source →
    (e.isImplicit = true ↔ ∀ i ∈ s.unit.summary.imports, (ofUnits units).leadsTo s e.target i = false)
  /-- The imports that no file satisfies are recorded in the order of the units and their imports, but
  for references of documents. -/
  unresolved : g.unresolved = (ofUnits units).entries.flatMap fun s =>
    (s.unit.summary.imports.filter fun i =>
      ((ofUnits units).resolve s i).isNone && i.kind != .asset).map fun i => ⟨s.unit.relative, i.target, i.line⟩

end Graph

/-- **The graph that is built is exactly what resolution says**, whatever the units are. -/
theorem resolves_build (units : List SourceUnit) : (Graph.build units).Resolves units where
  edges _ _ := Graph.imports_build_iff
  names _ he _ hs hsource := Graph.names_build he hs hsource
  sites _ he _ hs hsource := Graph.sites_build he hs hsource
  implicit _ he _ hs hsource := Graph.isImplicit_build he hs hsource
  unresolved := Graph.unresolved_build units

end Deadwood
