import Deadwood.Proofs.Walk
import Deadwood.Report.Summary

/-!
# Dead and live files

From the units that a walk reaches to the sets of paths that are reported. If no two units have the
same path, every unit is on the one side or the other, and on the right one.
-/

namespace Deadwood

open List

/-! ## Paths in order -/

theorem Component.compare_normal_eq_iff {m n : String} : (normal m).compare (normal n) = .eq ↔ m = n := by
  rw [Component.compare]
  split
  · rename_i h
    refine ⟨nofun, ?_⟩
    rintro rfl
    exact absurd h (String.lt_irrefl _)
  · split
    · exact ⟨fun _ => ‹_›, fun _ => rfl⟩
    · rename_i h
      exact ⟨nofun, fun heq => absurd heq h⟩

theorem Component.compare_eq_iff {a b : Component} : a.compare b = .eq ↔ a = b := by
  cases a <;> cases b
  case normal.normal => rw [compare_normal_eq_iff, Component.normal.injEq]
  all_goals simp [Component.compare, Component.rank]

namespace Path

variable {p q : Path}

theorem beq_iff : (p == q) = true ↔ p.components = q.components := by
  show (p.components == q.components) = true ↔ _
  exact beq_iff_eq

theorem compareComponents_eq_iff {as bs : List Component} : compareComponents as bs = .eq ↔ as = bs := by
  induction as generalizing bs with
  | nil => cases bs <;> simp [compareComponents]
  | cons a as ih =>
    cases bs with
    | nil => simp [compareComponents]
    | cons b bs =>
      rw [compareComponents, List.cons.injEq, ← Component.compare_eq_iff, ← ih]
      cases h : a.compare b <;> simp

/-- **Paths that are equal in order have the same components.** -/
theorem compare_eq_iff : p.compare q = .eq ↔ p.components = q.components :=
  compareComponents_eq_iff

theorem contains_iff {ps : List Path} : ps.contains p = true ↔ ∃ q ∈ ps, p.components = q.components := by
  simp only [contains_iff_exists_mem_beq, beq_iff]

end Path

/-! ## Lists of paths -/

/-- Puts paths into an ascending list, one after the other. -/
def insertPaths (new ps : List Path) : List Path := new.foldl (fun ps p => insertPath p ps) ps

section InsertAt

variable {α : Type} {p : Path} {a : α} {l : List (Path × α)}

theorem map_insertAtPath (p : Path) (a : α) (l : List (Path × α)) :
    (insertAtPath p a l).map (·.1) = insertPath p (l.map (·.1)) := by
  induction l with
  | nil => rfl
  | cons x l ih =>
    rw [insertAtPath, map_cons, insertPath]
    cases p.compare x.1 with
    | lt => rfl
    | eq => rfl
    | gt => exact congrArg (x.1 :: ·) ih

theorem insertAtPath_perm (h : ∀ x ∈ l, p.components ≠ x.1.components) : (insertAtPath p a l).Perm ((p, a) :: l) := by
  induction l with
  | nil => exact .refl _
  | cons x l ih =>
    have ih := ih (forall_mem_cons.1 h).2
    rw [insertAtPath]
    cases hcmp : p.compare x.1 with
    | lt => exact .refl _
    | eq => exact absurd (Path.compare_eq_iff.1 hcmp) (h x mem_cons_self)
    | gt => exact (ih.cons x).trans (.swap _ x l)

/-- Puts values at their paths, one after the other. -/
def insertAllAt (new l : List (Path × α)) : List (Path × α) := new.foldl (fun l x => insertAtPath x.1 x.2 l) l

theorem map_insertAllAt (new l : List (Path × α)) :
    (insertAllAt new l).map (·.1) = insertPaths (new.map (·.1)) (l.map (·.1)) := by
  induction new generalizing l with
  | nil => rfl
  | cons x new ih =>
    rw [insertAllAt, foldl_cons, ← insertAllAt, ih, map_insertAtPath]
    rfl

/-- **Values at different paths are all put in.** -/
theorem insertAllAt_perm (new l : List (Path × α)) (h : ((new ++ l).map (·.1.components)).Nodup) :
    (insertAllAt new l).Perm (new ++ l) := by
  induction new generalizing l with
  | nil => exact .refl _
  | cons x new ih =>
    have hx : ∀ y ∈ l, x.1.components ≠ y.1.components := fun y hy heq => by
      rw [cons_append, map_cons, nodup_cons] at h
      exact h.1 (heq ▸ mem_map_of_mem (f := fun y : Path × α => y.1.components) (mem_append_right _ hy))
    have hperm : (new ++ insertAtPath x.1 x.2 l).Perm (x :: (new ++ l)) :=
      ((insertAtPath_perm hx).append_left new).trans perm_middle
    exact (ih _ ((hperm.map _).nodup_iff.2 h)).trans hperm

end InsertAt

/-- **Different paths are all put in.** -/
theorem insertPaths_perm (new ps : List Path) (h : ((new ++ ps).map Path.components).Nodup) :
    (insertPaths new ps).Perm (new ++ ps) := by
  -- a path is put in as a value without content is put at it
  have hfst (ps : List Path) : (ps.map (·, ())).map (·.1) = ps := by simp [Function.comp_def]
  have hperm := (insertAllAt_perm (new.map (·, ())) (ps.map (·, ())) (by simpa [Function.comp_def] using h)).map (·.1)
  rwa [map_insertAllAt, map_append, hfst, hfst] at hperm

/-! ## The two sides -/

/-- No two units have the same path. -/
def DistinctPaths (units : List SourceUnit) : Prop := (units.map (·.relative.components)).Nodup

instance (units : List SourceUnit) : Decidable (DistinctPaths units) :=
  inferInstanceAs (Decidable (units.map (·.relative.components)).Nodup)

theorem DistinctPaths.eq_of_getElem? {units : List SourceUnit} (h : DistinctPaths units) {i j : Nat}
    {u v : SourceUnit} (hu : units[i]? = some u) (hv : units[j]? = some v)
    (huv : u.relative.components = v.relative.components) : i = j := by
  have hi : (units.map (·.relative.components))[i]? = some u.relative.components := by
    rw [getElem?_map, hu, Option.map_some]
  have hj : (units.map (·.relative.components))[j]? = some u.relative.components := by
    rw [getElem?_map, hv, Option.map_some, huv]
  have hlt := (List.getElem?_eq_some_iff.1 hi).1
  exact (getElem?_inj hlt h).1 (hi.trans hj.symm)

namespace Reachability

variable (g : Graph) (alive : List Nat) (entries : List Nat) {i : Nat} {p : Path} {u : SourceUnit}

def unitsWhere (p : Nat → Bool) : List SourceUnit :=
  (g.units.zipIdx.filter fun x => p x.2).map (·.1)

/-- The live paths, or the dead ones. -/
def side (r : Reachability) (live : Bool) : List Path := if live then r.reachable else r.dead

theorem side_foldl (live : Bool) (l : List (SourceUnit × Nat)) (r : Reachability) :
    (l.foldl (add g alive) r).side live =
      insertPaths ((l.filter fun x => alive.contains x.2 == live).map (·.1.relative)) (r.side live) := by
  induction l generalizing r with
  | nil => rfl
  | cons x l ih =>
    rw [foldl_cons, ih, add]
    by_cases hx : x.2 ∈ alive <;> cases live <;> simp [hx, insertPaths, side]

variable {g} {entries}

theorem nodup_unitsWhere (h : DistinctPaths g.units) (p : Nat → Bool) :
    (((unitsWhere g p).map (·.relative)).map Path.components).Nodup := by
  have hsub : (unitsWhere g p).Sublist g.units := by
    have := (filter_sublist (l := g.units.zipIdx) (p := fun x => p x.2)).map (·.1)
    rwa [zipIdx_map_fst] at this
  rw [map_map]
  exact (hsub.map _).nodup h

/-- **The live paths are those of the units that are reached**, and the dead ones those of the others. -/
theorem side_perm (h : DistinctPaths g.units) (live : Bool) : ((ofGraph g entries).side live).Perm
    ((unitsWhere g fun i => (g.reachableUnits entries).contains i == live).map (·.relative)) := by
  have hnodup := nodup_unitsWhere h fun i => (g.reachableUnits entries).contains i == live
  have hnil : side {} live = [] := by cases live <;> rfl
  rw [ofGraph, side_foldl, hnil]
  have := insertPaths_perm _ [] (by rwa [append_nil])
  rw [append_nil] at this
  simpa [unitsWhere, Function.comp_def] using this

theorem mem_unitsWhere {p : Nat → Bool} : u ∈ unitsWhere g p ↔ ∃ i, g.units[i]? = some u ∧ p i := by
  simp [unitsWhere, mem_zipIdx_iff_getElem?]

variable (h : DistinctPaths g.units)
include h

theorem mem_side (live : Bool) : p ∈ (ofGraph g entries).side live ↔
    ∃ i u, g.units[i]? = some u ∧ (g.reachableUnits entries).contains i = live ∧ u.relative = p := by
  rw [(side_perm h live).mem_iff]
  simp only [mem_map, mem_unitsWhere, beq_iff_eq]
  exact ⟨fun ⟨u, ⟨i, hu, hi⟩, hp⟩ => ⟨i, u, hu, hi, hp⟩, fun ⟨i, u, hu, hi, hp⟩ => ⟨u, ⟨i, hu, hi⟩, hp⟩⟩

theorem side_contains_iff (live : Bool) (hu : g.units[i]? = some u) :
    ((ofGraph g entries).side live).contains u.relative = true ↔ (g.reachableUnits entries).contains i = live := by
  rw [Path.contains_iff]
  constructor
  · rintro ⟨q, hq, heq⟩
    obtain ⟨j, v, hv, hj, rfl⟩ := (mem_side h live).1 hq
    rwa [h.eq_of_getElem? hu hv heq]
  · intro hi
    exact ⟨u.relative, (mem_side h live).2 ⟨i, u, hu, hi, rfl⟩, rfl⟩

theorem mem_dead : p ∈ (ofGraph g entries).dead ↔
    ∃ i u, g.units[i]? = some u ∧ i ∉ g.reachableUnits entries ∧ u.relative = p := by
  simpa [side] using mem_side h false (p := p)

theorem mem_reachable : p ∈ (ofGraph g entries).reachable ↔
    ∃ i u, g.units[i]? = some u ∧ i ∈ g.reachableUnits entries ∧ u.relative = p := by
  simpa [side] using mem_side h true (p := p)

/-- **The path of a unit is dead if and only if the unit is not reached.** -/
theorem dead_contains_iff (hu : g.units[i]? = some u) :
    (ofGraph g entries).dead.contains u.relative = true ↔ i ∉ g.reachableUnits entries := by
  simpa [side] using side_contains_iff h false hu

theorem reachable_contains_iff (hu : g.units[i]? = some u) :
    (ofGraph g entries).reachable.contains u.relative = true ↔ i ∈ g.reachableUnits entries := by
  simpa [side] using side_contains_iff h true hu

theorem filter_dead_eq : (g.units.filter fun u => (ofGraph g entries).dead.contains u.relative) =
      unitsWhere g fun i => !(g.reachableUnits entries).contains i := by
  have hfst : g.units = g.units.zipIdx.map (·.1) := (zipIdx_map_fst 0 g.units).symm
  conv_lhs => rw [hfst, filter_map]
  rw [unitsWhere]
  congr 1
  refine filter_congr fun x hx => ?_
  have hx := mem_zipIdx_iff_getElem?.1 hx
  rw [Bool.eq_iff_iff, Function.comp_apply, dead_contains_iff h hx]
  simp

theorem length_reachable_add : (ofGraph g entries).reachable.length +
    (unitsWhere g fun i => !(g.reachableUnits entries).contains i).length = g.units.length := by
  have hlength := (side_perm h true : ((ofGraph g entries).side true).Perm _).length_eq
  rw [side, if_pos rfl] at hlength
  rw [hlength, length_map, unitsWhere, unitsWhere, length_map, length_map, ← countP_eq_length_filter,
    ← countP_eq_length_filter]
  have := length_eq_countP_add_countP (fun x => (g.reachableUnits entries).contains x.2) (l := g.units.zipIdx)
  rw [length_zipIdx] at this
  rw [this]
  simp

end Reachability

/-- The dead and the live files of a graph are told apart exactly: what `r` says agrees with the
units that are reached. -/
structure ExactPartition (g : Graph) (entries : List Nat) (r : Reachability) : Prop where
  /-- The dead paths are those of the units that are not reached. -/
  dead : ∀ p, p ∈ r.dead ↔ ∃ i u, g.units[i]? = some u ∧ i ∉ g.reachableUnits entries ∧ u.relative = p
  disjoint : ∀ p ∈ r.dead, ∀ q ∈ r.reachable, p.components ≠ q.components
  /-- Together the two sides hold the paths of all units. -/
  union : ∀ p, p ∈ r.dead ∨ p ∈ r.reachable ↔ ∃ u ∈ g.units, u.relative = p
  /-- No edge leads from a live unit to a dead one. -/
  closed : ∀ e ∈ g.edges, ∀ u v, g.units[e.source]? = some u → g.units[e.target]? = some v →
    r.reachable.contains u.relative → ¬ r.dead.contains v.relative
  unread : ∀ u ∈ g.units, u.failure.isSome → ¬ r.dead.contains u.relative
  /-- The report lists exactly the dead units, and its counts add up. -/
  report : ∀ s : Scan, s.graph = g → s.reachability = r → (ScanReport.ofScan s).deadFiles =
      (Reachability.unitsWhere g fun i => !(g.reachableUnits entries).contains i).map
        (fun u => ⟨u.relative, u.size, u.lines⟩) ∧
    (ScanReport.ofScan s).summary.totalFiles =
      (ScanReport.ofScan s).summary.reachableFiles + (ScanReport.ofScan s).summary.deadFiles

namespace Reachability

variable {g : Graph} {entries : List Nat}

theorem exactPartition (h : DistinctPaths g.units) : ExactPartition g entries (ofGraph g entries) where
  dead _ := mem_dead h
  disjoint p hp q hq hpq := by
    obtain ⟨i, u, hu, hi, rfl⟩ := (mem_dead h).1 hp
    obtain ⟨j, v, hv, hj, rfl⟩ := (mem_reachable h).1 hq
    exact hi (h.eq_of_getElem? hu hv hpq ▸ hj)
  union p := by
    rw [mem_dead h, mem_reachable h]
    constructor
    · rintro (⟨i, u, hu, -, hp⟩ | ⟨i, u, hu, -, hp⟩)
      · exact ⟨u, mem_of_getElem? hu, hp⟩
      · exact ⟨u, mem_of_getElem? hu, hp⟩
    · rintro ⟨u, hu, hp⟩
      obtain ⟨i, hi⟩ := getElem?_of_mem hu
      by_cases halive : i ∈ g.reachableUnits entries
      · exact .inr ⟨i, u, hi, halive, hp⟩
      · exact .inl ⟨i, u, hi, halive, hp⟩
  closed e he u v hu hv halive hdead := by
    have hi := (reachable_contains_iff h hu).1 halive
    have hj := (dead_contains_iff h hv).1 hdead
    exact hj (Graph.reachable_of_imports hi ⟨e, he, rfl, rfl⟩)
  unread u hu hfail hdead := by
    obtain ⟨i, hi⟩ := getElem?_of_mem hu
    exact (dead_contains_iff h hi).1 hdead ((Graph.mem_reachableUnits _ _).2 ⟨i, .inr ⟨u, hi, hfail⟩, .refl⟩)
  report s hg hr := by
    subst hg
    have hdead : (ScanReport.ofScan s).deadFiles = (unitsWhere s.graph fun i =>
        !(s.graph.reachableUnits entries).contains i).map (fun u => (⟨u.relative, u.size, u.lines⟩ : DeadFile)) := by
      rw [← filter_dead_eq h, ← hr]
      rfl
    refine ⟨hdead, ?_⟩
    have hlen : (ofGraph s.graph entries).reachable.length + (unitsWhere s.graph fun i =>
        !(s.graph.reachableUnits entries).contains i).length = s.graph.units.length :=
      length_reachable_add h
    rw [← hr] at hlen
    have hcount := congrArg List.length hdead
    rw [length_map] at hcount
    calc (ScanReport.ofScan s).summary.totalFiles = s.graph.units.length := rfl
      _ = s.reachability.reachable.length + (ScanReport.ofScan s).deadFiles.length := by
          rw [hcount, hlen]
      _ = _ := rfl

end Reachability

/-- **Dead and live files are told apart exactly.** The walk ends by itself, reaches the units with a
chain of edges from an entry or from a unit that could not be read, and no others; and if no two
units have the same path, the reported files agree with that. -/
theorem dead_live_partition (g : Graph) (entries : List Nat) :
    (∀ fuel, g.units.length ≤ fuel →
      walk g.successors fuel (g.roots entries) (g.roots entries) = g.reachableUnits entries) ∧
    (∀ i, i ∈ g.reachableUnits entries ↔
      ∃ r, g.IsRoot entries r ∧ Relation.ReflTransGen g.Imports r i) ∧
    (DistinctPaths g.units → ExactPartition g entries (.ofGraph g entries)) :=
  ⟨fun _ => g.walk_roots_eq entries, fun _ => g.mem_reachableUnits entries,
    Reachability.exactPartition⟩

/-- A script that imports another, a script that nothing imports, and one that could not be read. -/
def smallGraph : Graph :=
  let unit (path : String) : SourceUnit := { path := ⟨path⟩, relative := ⟨path⟩, language := .python }
  let g : Graph :=
    { units := [unit "a.py", unit "lib/b.py", unit "c.py", (unit "d.py").failed "not valid UTF-8"] }
  g.addEdge 0 1 .everything none

theorem dead_live_partition_smallGraph : DistinctPaths smallGraph.units ∧
    ExactPartition smallGraph [0, 7, 0] (.ofGraph smallGraph [0, 7, 0]) ∧
    (Reachability.ofGraph smallGraph [0, 7, 0]).dead.map (·.text) = ["c.py"] :=
  ⟨by decide, (dead_live_partition smallGraph [0, 7, 0]).2.2 (by decide), by decide⟩

end Deadwood
