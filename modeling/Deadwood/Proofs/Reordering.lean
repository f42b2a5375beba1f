import Deadwood.Proofs.Linking
import Deadwood.Proofs.PathOrder
import Mathlib.Data.Fintype.EquivFin
import Mathlib.Data.String.Basic

/-!
# The order of the files does not matter

When the files of a project are listed in another order, all that is found out is the same up to their positions. Only
in Dart the first of several files is taken.

* **`analysis_perm`**: the graph and the analysis do not depend on the order.
-/

namespace Deadwood

open List Reachability
open Deadwood.Graph (build)

/-! ## Sets of names -/

theorem NameSet.ext_mem {s t : NameSet} (h : ∀ a, a ∈ s ↔ a ∈ t) : s = t := by
  obtain ⟨ss, hs⟩ := s
  obtain ⟨ts, ht⟩ := t
  exact (NameSet.mk.injEq ..).mpr (List.Pairwise.eq_of_mem_iff hs ht h)

theorem NameSet.exists_notMem (s : NameSet) : ∃ a, a ∉ s := by
  obtain ⟨a, ha⟩ := Infinite.exists_notMem_finset s.toList.toFinset
  exact ⟨a, fun hmem => ha (mem_toFinset.2 hmem)⟩

/-- **Imports ask for the same names only if they are the same**, since no set holds all names. -/
theorem ImportedNames.ext_contains {m n : ImportedNames}
    (h : ∀ name, m.contains name = true ↔ n.contains name = true) : m = n := by
  cases m with
  | everything =>
    cases n with
    | everything => rfl
    | names t =>
      obtain ⟨a, ha⟩ := t.exists_notMem
      exact absurd (NameSet.contains_iff.1 ((h a).1 rfl)) ha
  | names s =>
    cases n with
    | everything =>
      obtain ⟨a, ha⟩ := s.exists_notMem
      exact absurd (NameSet.contains_iff.1 ((h a).2 rfl)) ha
    | names t =>
      refine congrArg names (NameSet.ext_mem fun a => ?_)
      rw [← NameSet.contains_iff, ← NameSet.contains_iff]
      exact h a

/-! ## Positions -/

/-- The positions after the first are exchanged like all positions. -/
def shiftPositions (σ : Equiv.Perm Nat) : Equiv.Perm Nat where
  toFun
    | 0 => 0
    | n + 1 => σ n + 1
  invFun
    | 0 => 0
    | n + 1 => σ.symm n + 1
  left_inv n := by cases n <;> simp
  right_inv n := by cases n <;> simp

theorem exists_positions {α : Type} {l l' : List α} (h : l'.Perm l) : ∃ σ : Equiv.Perm Nat, ∀ a, l'[a]? = l[σ a]? := by
  induction h with
  | nil => exact ⟨.refl Nat, fun _ => rfl⟩
  | cons x _ ih =>
    obtain ⟨σ, hσ⟩ := ih
    refine ⟨shiftPositions σ, fun a => ?_⟩
    cases a with
    | zero => rfl
    | succ a => simpa [shiftPositions] using hσ a
  | swap x y l =>
    refine ⟨Equiv.swap 0 1, fun a => ?_⟩
    match a with
    | 0 => rfl
    | 1 => rfl
    | a + 2 => rw [Equiv.swap_apply_of_ne_of_ne (by omega) (by omega)]; rfl
  | trans _ _ ih₁ ih₂ =>
    obtain ⟨σ, hσ⟩ := ih₁
    obtain ⟨τ, hτ⟩ := ih₂
    exact ⟨σ.trans τ, fun a => (hσ a).trans (hτ (σ a))⟩

/-- The units of a project in two orders: `σ` takes a position in the second to that in the first. The
units can be told apart by their paths, and none is one of Dart. -/
structure Reordered (σ : Equiv.Perm Nat) (units units' : List SourceUnit) : Prop where
  get : ∀ a, units'[a]? = units[σ a]?
  texts : DistinctTexts units
  texts' : DistinctTexts units'
  paths : DistinctPaths units
  paths' : DistinctPaths units'
  noDart : ∀ u ∈ units, u.language ≠ .dart

theorem exists_reordered {units units' : List SourceUnit} (h : units'.Perm units)
    (hpaths : DistinctPaths units) (htexts : DistinctTexts units) (hdart : ∀ u ∈ units, u.language ≠ .dart) :
    ∃ σ, Reordered σ units units' := by
  obtain ⟨σ, hσ⟩ := exists_positions h
  exact ⟨σ, hσ, htexts, (h.map _).nodup_iff.2 htexts, hpaths, (h.map _).nodup_iff.2 hpaths, hdart⟩

namespace Reordered

open Catalog Deadwood.Graph

variable {σ : Equiv.Perm Nat} {units units' : List SourceUnit} (h : Reordered σ units units') {l : Link} {i j : Nat}
  {name : String}
include h

theorem symm : Reordered σ.symm units' units where
  get a := by rw [h.get, Equiv.apply_symm_apply]
  texts := h.texts'
  texts' := h.texts
  paths := h.paths'
  paths' := h.paths
  noDart u hu := by
    obtain ⟨a, ha⟩ := getElem?_of_mem hu
    exact h.noDart u (mem_of_getElem? (h.get a ▸ ha))

/-! ## Links -/

theorem mem_entries {s : CatalogEntry} (hs : s ∈ (ofUnits units').entries) : s.moved σ ∈ (ofUnits units).entries := by
  rw [mem_ofUnits, h.get] at hs
  exact mem_ofUnits.2 hs

omit h in
theorem moved_moved (s : CatalogEntry) : (s.moved σ).moved σ.symm = s := by
  simp [CatalogEntry.moved]

omit h in
theorem moved_moved_symm (s : CatalogEntry) : (s.moved σ.symm).moved σ = s := by
  simp [CatalogEntry.moved]

theorem thinned : Thinned (ofUnits units) (ofUnits units') σ fun _ => True := by
  refine .of_distinct (fun e he => h.mem_entries he) (fun e he _ => ?_) (fun _ _ _ _ heq => σ.injective heq)
    (distinct_ofUnits h.texts)
  exact ⟨e.moved σ.symm, h.symm.mem_entries he, moved_moved_symm e⟩

omit h in
theorem mem_iff_of_found {ls ls' : List Link} (hfound : ∀ l ∈ ls, ∃ l' ∈ ls', l'.moved σ = l)
    (hback : ∀ l ∈ ls', ∃ l' ∈ ls, l'.moved σ.symm = l) : l ∈ ls' ↔ l.moved σ ∈ ls := by
  constructor
  · intro hl
    obtain ⟨l', hl', rfl⟩ := hback l hl
    simpa [Link.moved] using hl'
  · intro hl
    obtain ⟨l', hl', heq⟩ := hfound _ hl
    obtain ⟨htarget, hnames⟩ := (Link.mk.injEq ..).mp heq
    obtain rfl : l' = l := by
      cases l
      cases l'
      exact (Link.mk.injEq ..).mpr ⟨σ.injective htarget, hnames⟩
    exact hl'

variable {s : CatalogEntry} (hs : s ∈ (ofUnits units').entries)
include hs

theorem steady_resolve (i : Import) : SteadyLinks σ (fun _ => True) ((ofUnits units).resolve (s.moved σ) i)
    ((ofUnits units').resolve s i) := by
  refine h.thinned.resolve_of_ne_dart hs trivial ?_ i
  exact h.noDart s.unit (mem_of_getElem? (mem_ofUnits.1 (h.mem_entries hs)).1)

theorem resolve_eq_none_iff (i : Import) :
    (ofUnits units').resolve s i = none ↔ (ofUnits units).resolve (s.moved σ) i = none := by
  refine ⟨fun hnone => ?_, (h.steady_resolve hs i).absent⟩
  have hback := h.symm.steady_resolve (h.mem_entries hs) i
  rw [moved_moved] at hback
  exact hback.absent hnone

theorem exists_link {i : Import} (hl : l ∈ ((ofUnits units).resolve (s.moved σ) i).getD []) :
    ∃ l' ∈ ((ofUnits units').resolve s i).getD [], l'.moved σ = l := by
  cases hlinks : (ofUnits units).resolve (s.moved σ) i with
  | none => simp [hlinks] at hl
  | some links =>
    rw [hlinks, Option.getD_some] at hl
    obtain ⟨links', hlinks', hsame⟩ := (h.steady_resolve hs i).found links hlinks ⟨ne_nil_of_mem hl, fun _ _ => trivial⟩
    rw [hlinks', Option.getD_some]
    exact hsame l hl

theorem mem_resolve_iff {i : Import} : l ∈ ((ofUnits units').resolve s i).getD [] ↔
    l.moved σ ∈ ((ofUnits units).resolve (s.moved σ) i).getD [] := by
  refine mem_iff_of_found (fun l hl => h.exists_link hs hl) fun l hl => ?_
  refine h.symm.exists_link (h.mem_entries hs) ?_
  rwa [moved_moved]

theorem mem_implicitLinks_iff : l ∈ (ofUnits units').implicitLinks s ↔
    l.moved σ ∈ (ofUnits units).implicitLinks (s.moved σ) := by
  refine mem_iff_of_found (fun l hl => (h.thinned.implicitLinks hs).found l hl trivial) fun l hl => ?_
  refine (h.symm.thinned.implicitLinks (h.mem_entries hs)).found l ?_ trivial
  rwa [moved_moved]

/-- **A unit has the same links in any order**, of its imports and without them. -/
theorem hasLink_iff {P : Link → Prop} :
    ((∃ i ∈ s.unit.summary.imports, ∃ links, (ofUnits units').resolve s i = some links ∧
        ∃ l ∈ links, P (l.moved σ)) ∨ ∃ l ∈ (ofUnits units').implicitLinks s, P (l.moved σ)) ↔
      (∃ i ∈ s.unit.summary.imports, ∃ links, (ofUnits units).resolve (s.moved σ) i = some links ∧
        ∃ l ∈ links, P l) ∨ ∃ l ∈ (ofUnits units).implicitLinks (s.moved σ), P l := by
  have hgetD (o : Option (List Link)) (Q : Link → Prop) :
      (∃ links, o = some links ∧ ∃ l ∈ links, Q l) ↔ ∃ l ∈ o.getD [], Q l := by
    cases o <;> simp
  have hmoved {ls ls' : List Link} (hmem : ∀ l, l ∈ ls' ↔ l.moved σ ∈ ls) :
      (∃ l ∈ ls', P (l.moved σ)) ↔ ∃ l ∈ ls, P l := by
    constructor
    · rintro ⟨l, hl, hP⟩
      exact ⟨_, (hmem l).1 hl, hP⟩
    · rintro ⟨l, hl, hP⟩
      have heq : (l.moved σ.symm).moved σ = l := by simp [Link.moved]
      exact ⟨l.moved σ.symm, (hmem _).2 (by rwa [heq]), by rwa [heq]⟩
  simp only [hgetD]
  refine or_congr (exists_congr fun i => and_congr_right fun _ => ?_) ?_
  · exact hmoved fun _ => h.mem_resolve_iff hs
  · exact hmoved fun _ => h.mem_implicitLinks_iff hs

theorem dependsOn_iff : (ofUnits units').DependsOn s j ↔ (ofUnits units).DependsOn (s.moved σ) (σ j) := by
  have hlink := h.hasLink_iff hs (P := fun l => l.target = σ j)
  simpa [Catalog.DependsOn, Link.moved] using hlink

theorem asksFor_iff : (ofUnits units').AsksFor s j name ↔ (ofUnits units).AsksFor (s.moved σ) (σ j) name := by
  have hlink := h.hasLink_iff hs (P := fun l => l.target = σ j ∧ l.names.contains name = true)
  simpa [AsksFor, Link.moved] using hlink

theorem leadsTo_eq (j : Nat) : (ofUnits units').leadsTo s j = (ofUnits units).leadsTo (s.moved σ) (σ j) := by
  funext i
  rw [Bool.eq_iff_iff, leadsTo, leadsTo, any_eq_true, any_eq_true]
  constructor
  · rintro ⟨l, hl, ht⟩
    exact ⟨_, (h.mem_resolve_iff hs).1 hl, by simpa [Link.moved] using ht⟩
  · rintro ⟨l, hl, ht⟩
    obtain ⟨l', hl', rfl⟩ := h.exists_link hs hl
    exact ⟨l', hl', by simpa [Link.moved] using ht⟩

theorem missingOf_eq : missingOf (ofUnits units') s = missingOf (ofUnits units) (s.moved σ) := by
  unfold missingOf
  refine congrArg (List.map _) (filter_congr fun i _ => ?_)
  rw [isMissing, isMissing, Bool.eq_iff_iff, Bool.and_eq_true, Bool.and_eq_true, Option.isNone_iff_eq_none,
    Option.isNone_iff_eq_none, h.resolve_eq_none_iff hs]

omit hs

/-! ## The graph -/

theorem imports_iff : (build units').Imports i j ↔ (build units).Imports (σ i) (σ j) := by
  rw [imports_build_iff, imports_build_iff, ne_eq, ne_eq, σ.injective.eq_iff]
  refine and_congr_right fun _ => ⟨?_, ?_⟩
  · rintro ⟨s, hs, rfl, hdep⟩
    exact ⟨s.moved σ, h.mem_entries hs, rfl, (h.dependsOn_iff hs).1 hdep⟩
  · rintro ⟨s, hs, hindex, hdep⟩
    have hs' := h.symm.mem_entries hs
    refine ⟨s.moved σ.symm, hs', by simp [hindex], (h.dependsOn_iff hs').2 ?_⟩
    rwa [moved_moved_symm]

theorem edge_eq {e e' : Edge} (he : e ∈ (build units).edges) (he' : e' ∈ (build units').edges)
    (hsource : e.source = σ e'.source) (htarget : e.target = σ e'.target) :
    e'.names = e.names ∧ e'.sites = e.sites := by
  have hlt := ((build units').within e' he').2.1
  rw [units_build] at hlt
  have hs : (⟨e'.source, units'[e'.source].relText, units'[e'.source]⟩ : CatalogEntry) ∈
      (ofUnits units').entries := mem_ofUnits.2 ⟨getElem?_eq_getElem hlt, rfl⟩
  constructor
  · refine ImportedNames.ext_contains fun name => ?_
    rw [names_build he' hs rfl, names_build he (h.mem_entries hs) hsource.symm, h.asksFor_iff hs, htarget]
  · rw [sites_build he' hs rfl, sites_build he (h.mem_entries hs) hsource.symm, htarget, h.leadsTo_eq hs]
    rfl

theorem edge?_eq (i j : Nat) : ((build units').edge? i j).map (fun e => (e.names, e.sites)) =
    ((build units).edge? (σ i) (σ j)).map fun e => (e.names, e.sites) := by
  have hsome {g : Graph} {a b : Nat} : g.Imports a b ↔ ∃ e, g.edge? a b = some e := by
    simp only [edge?_eq_some, Imports]
  cases hedge' : (build units').edge? i j with
  | none =>
    cases hedge : (build units).edge? (σ i) (σ j) with
    | none => rfl
    | some e =>
      obtain ⟨e', he'⟩ := hsome.1 (h.imports_iff.2 (hsome.2 ⟨e, hedge⟩))
      rw [hedge'] at he'
      cases he'
  | some e' =>
    obtain ⟨e, hedge⟩ := hsome.1 (h.imports_iff.1 (hsome.2 ⟨e', hedge'⟩))
    obtain ⟨he', rfl, rfl⟩ := edge?_eq_some.1 hedge'
    obtain ⟨he, hsource, htarget⟩ := edge?_eq_some.1 hedge
    obtain ⟨hnames, hsites⟩ := h.edge_eq he he' hsource htarget
    rw [hedge, Option.map_some, Option.map_some, hnames, hsites]

theorem entries_perm : ((ofUnits units').entries.map (·.moved σ)).Perm (ofUnits units).entries := by
  have hnodup (units : List SourceUnit) : (ofUnits units).entries.Nodup := .of_map _ (nodup_index_ofUnits units)
  have hinj : Function.Injective (CatalogEntry.moved σ) := fun s t heq => by
    rw [← moved_moved (σ := σ) s, heq, moved_moved]
  rw [perm_ext_iff_of_nodup ((hnodup units').map hinj) (hnodup units)]
  intro s
  rw [mem_map]
  constructor
  · rintro ⟨t, ht, rfl⟩
    exact h.mem_entries ht
  · intro hs
    exact ⟨s.moved σ.symm, h.symm.mem_entries hs, moved_moved_symm s⟩

theorem unresolved_perm : (build units').unresolved.Perm (build units).unresolved := by
  have hmissing : (ofUnits units').entries.flatMap (missingOf (ofUnits units')) =
      ((ofUnits units').entries.map (·.moved σ)).flatMap (missingOf (ofUnits units)) := by
    rw [flatMap_map]
    exact flatMap_congr fun s hs => h.missingOf_eq hs
  rw [unresolved_build, unresolved_build, hmissing]
  exact h.entries_perm.flatMap_right _

/-! ## The analysis -/

variable (d : Detector)

theorem isRoot (i : Nat) (hi : (build units').IsRoot ((d.detectAll units').map (·.unit)) i) :
    (build units).IsRoot ((d.detectAll units).map (·.unit)) (σ i) := by
  have hget := h.get i
  rcases hi with ⟨hentry, -⟩ | ⟨u, hu, hfailed⟩
  · obtain ⟨u, hu, hsome⟩ := mem_detectAll.1 hentry
    rw [hget] at hu
    refine .inl ⟨mem_detectAll.2 ⟨u, hu, hsome⟩, ?_⟩
    rw [units_build]
    exact (List.getElem?_eq_some_iff.1 hu).1
  · rw [units_build, hget] at hu
    exact .inr ⟨u, by rwa [units_build], hfailed⟩

theorem reachable (hi : i ∈ (build units').reachableUnits ((d.detectAll units').map (·.unit))) :
    σ i ∈ (build units).reachableUnits ((d.detectAll units).map (·.unit)) := by
  obtain ⟨r, hr, hchain⟩ := (mem_reachableUnits _ _).1 hi
  refine (mem_reachableUnits _ _).2 ⟨σ r, h.isRoot d r hr, ?_⟩
  exact hchain.lift σ fun _ _ => h.imports_iff.1

theorem reachable_iff : i ∈ (build units').reachableUnits ((d.detectAll units').map (·.unit)) ↔
    σ i ∈ (build units).reachableUnits ((d.detectAll units).map (·.unit)) := by
  refine ⟨h.reachable d, fun hi => ?_⟩
  have hback := h.symm.reachable d hi
  rwa [Equiv.symm_apply_apply] at hback

theorem uses_iff : (build units').Uses i name ↔ (build units).Uses (σ i) name := by
  have hhalf {σ : Equiv.Perm Nat} {units units' : List SourceUnit} (h : Reordered σ units units') {i : Nat}
      (huses : (build units').Uses i name) : (build units).Uses (σ i) name := by
    obtain ⟨e', he', rfl, hname⟩ := huses
    obtain ⟨e, he, hsource, htarget⟩ := h.imports_iff.1 ⟨e', he', rfl, rfl⟩
    exact ⟨e, he, htarget, (h.edge_eq he he' hsource htarget).1 ▸ hname⟩
  refine ⟨hhalf h, fun huses => ?_⟩
  have hback := hhalf h.symm huses
  rwa [Equiv.symm_apply_apply] at hback

theorem deadExportsOf_eq (i : Nat) (u : SourceUnit) :
    (build units').deadExportsOf i u = (build units).deadExportsOf (σ i) u := by
  simp only [Graph.deadExportsOf_eq, h.uses_iff]

theorem paths_build : DistinctPaths (build units).units ∧ DistinctPaths (build units').units := by
  rw [units_build, units_build]
  exact ⟨h.paths, h.paths'⟩

theorem exists_unit_iff (P : Nat → SourceUnit → Prop) :
    (∃ i u, units'[i]? = some u ∧ P (σ i) u) ↔ ∃ i u, units[i]? = some u ∧ P i u := by
  constructor
  · rintro ⟨i, u, hu, hP⟩
    exact ⟨σ i, u, h.get i ▸ hu, hP⟩
  · rintro ⟨i, u, hu, hP⟩
    exact ⟨σ.symm i, u, by rwa [h.get, Equiv.apply_symm_apply], by rwa [Equiv.apply_symm_apply]⟩

/-- **The analysis gives the same report in any order.** -/
theorem ofGraph_eq : ofGraph (build units') ((d.detectAll units').map (·.unit)) =
    ofGraph (build units) ((d.detectAll units).map (·.unit)) := by
  obtain ⟨hpaths, hpaths'⟩ := h.paths_build
  apply ext_of_mem
  · intro p
    rw [mem_dead hpaths', mem_dead hpaths]
    simp only [units_build, h.reachable_iff d]
    exact h.exists_unit_iff fun i u => i ∉ (build units).reachableUnits _ ∧ u.relative = p
  · intro p
    rw [mem_reachable hpaths', mem_reachable hpaths]
    simp only [units_build, h.reachable_iff d]
    exact h.exists_unit_iff fun i u => i ∈ (build units).reachableUnits _ ∧ u.relative = p
  · intro x
    rw [mem_deadExports hpaths', mem_deadExports hpaths]
    simp only [units_build, h.reachable_iff d, h.deadExportsOf_eq]
    exact h.exists_unit_iff fun i u => i ∈ (build units).reachableUnits _ ∧
      (build units).deadExportsOf i u ≠ [] ∧ x = (u.relative, (build units).deadExportsOf i u)

end Reordered

/-! ## Paths -/

namespace Graph

theorem indexOf?_eq_some {g : Graph} (h : DistinctPaths g.units) {p : Path} {i : Nat} :
    g.indexOf? p = some i ↔ ∃ u, g.units[i]? = some u ∧ u.relative.components = p.components := by
  have hmem (x : SourceUnit × Nat) : x ∈ g.units.zipIdx.filter (fun x => x.1.relative == p) ↔
      g.units[x.2]? = some x.1 ∧ x.1.relative.components = p.components := by
    rw [mem_filter, mem_zipIdx_iff_getElem?, Path.beq_iff]
  unfold indexOf?
  rw [Option.map_eq_some_iff]
  constructor
  · rintro ⟨x, hx, rfl⟩
    exact ⟨x.1, (hmem x).1 (mem_of_getLast? hx)⟩
  · rintro ⟨u, hu, hp⟩
    have hne : g.units.zipIdx.filter (fun x => x.1.relative == p) ≠ [] :=
      ne_nil_of_mem ((hmem (u, i)).2 ⟨hu, hp⟩)
    obtain ⟨x, hx⟩ := Option.isSome_iff_exists.1 (getLast?_isSome.2 hne)
    obtain ⟨hv, hq⟩ := (hmem x).1 (mem_of_getLast? hx)
    exact ⟨x, hx, h.eq_of_getElem? hv hu (hq.trans hp.symm)⟩

/-- What the file at a path imports from the one at another: the names, and where the imports are. -/
def importsAt? (g : Graph) (importer imported : Path) : Option (ImportedNames × List ImportSite) := do
  let i ← g.indexOf? importer
  let j ← g.indexOf? imported
  (g.edge? i j).map fun e => (e.names, e.sites)

end Graph

namespace Reordered

open Deadwood.Graph

variable {σ : Equiv.Perm Nat} {units units' : List SourceUnit} (h : Reordered σ units units')
include h

theorem indexOf?_eq (p : Path) : (build units).indexOf? p = ((build units').indexOf? p).map σ := by
  obtain ⟨hpaths, hpaths'⟩ := h.paths_build
  refine Option.ext fun i => ?_
  rw [Option.map_eq_some_iff, indexOf?_eq_some hpaths]
  simp only [indexOf?_eq_some hpaths', units_build, h.get]
  constructor
  · rintro ⟨u, hu, hp⟩
    exact ⟨σ.symm i, ⟨u, by rwa [Equiv.apply_symm_apply], hp⟩, Equiv.apply_symm_apply σ i⟩
  · rintro ⟨a, hu, rfl⟩
    exact hu

theorem importsAt?_eq (p q : Path) : (build units').importsAt? p q = (build units).importsAt? p q := by
  unfold importsAt?
  rw [h.indexOf?_eq p, h.indexOf?_eq q]
  cases (build units').indexOf? p with
  | none => rfl
  | some i =>
    cases (build units').indexOf? q with
    | none => rfl
    | some j => exact h.edge?_eq i j

end Reordered

/-- **The order of the files does not matter.** If no two files have the same path, however it is
written, and none is one of Dart, every order of the files gives the same imports between them, the same
imports that lead nowhere, and the same dead files, live files and dead exports. -/
theorem analysis_perm {units units' : List SourceUnit} (hperm : units'.Perm units)
    (hpaths : DistinctPaths units) (htexts : DistinctTexts units) (hdart : ∀ u ∈ units, u.language ≠ .dart)
    (d : Detector) :
    (∀ p q, (build units').importsAt? p q = (build units).importsAt? p q) ∧
    (build units').unresolved.Perm (build units).unresolved ∧
    Reachability.ofGraph (.build units') ((d.detectAll units').map (·.unit)) =
      Reachability.ofGraph (.build units) ((d.detectAll units).map (·.unit)) := by
  obtain ⟨σ, h⟩ := exists_reordered hperm hpaths htexts hdart
  exact ⟨h.importsAt?_eq, h.unresolved_perm, h.ofGraph_eq d⟩

/-- A script that takes one of two names from another and also imports what is not there, a program that
includes a header of which there are two, and a script that nothing imports. -/
def mixedUnits : List SourceUnit :=
  [{ path := ⟨"/p/index.js"⟩, relative := ⟨"index.js"⟩, language := .javaScript
     summary := { imports := [⟨"./util", .single "a", 1, .module⟩, ⟨"./gone", .everything, 2, .module⟩] } },
   { path := ⟨"/p/util.js"⟩, relative := ⟨"util.js"⟩, language := .javaScript
     summary := { exports := [⟨"a", 1⟩, ⟨"b", 2⟩] } },
   { path := ⟨"/p/run.c"⟩, relative := ⟨"run.c"⟩, language := .c
     summary := { imports := [⟨"x.h", .everything, 1, .include_⟩], entryFunction := true } },
   { path := ⟨"/p/one/x.h"⟩, relative := ⟨"one/x.h"⟩, language := .c },
   { path := ⟨"/p/two/x.h"⟩, relative := ⟨"two/x.h"⟩, language := .c },
   { path := ⟨"/p/old.py"⟩, relative := ⟨"old.py"⟩, language := .python }]

theorem analysis_perm_mixedUnits :
    let reach units := Reachability.ofGraph (.build units) ((({} : Detector).detectAll units).map (·.unit))
    (reach mixedUnits).dead.map (·.text) = ["old.py"] ∧
    (reach mixedUnits).deadExports.map (fun x => (x.1.text, x.2)) = [("util.js", ["b"])] ∧
    (∀ p q, (build mixedUnits.reverse).importsAt? p q =
      (build mixedUnits).importsAt? p q) ∧
    (build mixedUnits.reverse).unresolved.Perm (build mixedUnits).unresolved ∧
    reach mixedUnits.reverse = reach mixedUnits :=
  ⟨by decide +kernel, by decide +kernel,
    analysis_perm (List.reverse_perm mixedUnits) (by decide) (by decide) (by decide) {}⟩

end Deadwood
