import Deadwood.Proofs.Monotone
import Mathlib.Data.List.Sort

/-!
# Reports in the order of their paths

Paths are ordered by their components, and what is reported of files is listed in that order. A list in
strict order is determined by its members, so that a report does not depend on the order in which files
are looked at.
-/

namespace Deadwood

open List

/-! ## The order -/

def Component.nameOrEmpty : Component → String
  | normal name => name
  | _ => ""

theorem Component.compare_eq_lex : Component.compare =
    compareLex (compareOn Component.rank) (compareOn Component.nameOrEmpty) := by
  funext a b
  cases a <;> cases b <;> rfl

instance : Std.TransCmp Component.compare := Component.compare_eq_lex ▸ inferInstance

namespace Path

theorem compareComponents_eq_lex : compareComponents = List.compareLex Component.compare := by
  funext as bs
  induction as generalizing bs with
  | nil => cases bs <;> rfl
  | cons a as ih =>
    cases bs with
    | nil => rfl
    | cons b bs =>
      rw [compareComponents, List.compareLex, ih]
      cases a.compare b <;> rfl

instance : Std.TransCmp compareComponents := compareComponents_eq_lex ▸ inferInstance

def Before (p q : Path) : Prop := p.compare q = .lt

theorem before_trans {p q r : Path} (hpq : p.Before q) (hqr : q.Before r) : p.Before r :=
  @Std.TransCmp.lt_trans _ compareComponents _ _ _ _ hpq hqr

theorem before_of_gt {p q : Path} (h : p.compare q = .gt) : q.Before p :=
  (@Std.OrientedCmp.gt_iff_lt _ compareComponents _ _ _).1 h

theorem not_before_self (p : Path) : ¬ p.Before p := fun h => by
  rw [Before, compare_eq_iff.2 rfl] at h
  cases h

instance : Std.Irrefl Before := ⟨not_before_self⟩

instance : Std.Antisymm Before := ⟨fun p _ hpq hqp => absurd (before_trans hpq hqp) (not_before_self p)⟩

end Path

/-! ## Lists in order -/

abbrev Ascending (ps : List Path) : Prop := ps.Pairwise Path.Before

theorem mem_insertPath {p q : Path} {ps : List Path} (h : q ∈ insertPath p ps) : q = p ∨ q ∈ ps := by
  induction ps with
  | nil => exact .inl (mem_singleton.1 h)
  | cons r ps ih =>
    rw [insertPath] at h
    cases hcmp : p.compare r with
    | lt => simpa [hcmp] using h
    | eq => exact .inr (by simpa [hcmp] using h)
    | gt =>
      simp only [hcmp, mem_cons] at h ⊢
      rcases h with h | h
      · exact .inr (.inl h)
      · exact (ih h).imp_right .inr

theorem ascending_insertPath {p : Path} {ps : List Path} (h : Ascending ps) : Ascending (insertPath p ps) := by
  induction ps with
  | nil => exact pairwise_singleton _ _
  | cons q ps ih =>
    obtain ⟨hq, hps⟩ := pairwise_cons.1 h
    rw [insertPath]
    cases hcmp : p.compare q with
    | lt =>
      refine pairwise_cons.2 ⟨fun r hr => ?_, h⟩
      rcases mem_cons.1 hr with rfl | hr
      · exact hcmp
      · exact Path.before_trans hcmp (hq r hr)
    | eq => exact h
    | gt =>
      refine pairwise_cons.2 ⟨fun r hr => ?_, ih hps⟩
      rcases mem_insertPath hr with rfl | hr
      · exact Path.before_of_gt hcmp
      · exact hq r hr

theorem ascending_insertPaths {new ps : List Path} (h : Ascending ps) : Ascending (insertPaths new ps) := by
  induction new generalizing ps with
  | nil => exact h
  | cons p new ih => exact ih (ascending_insertPath h)

/-! ## Reports -/

namespace Reachability

variable {g : Graph} {entries : List Nat}

theorem ascending_side (g : Graph) (entries : List Nat) (live : Bool) :
    Ascending ((ofGraph g entries).side live) := by
  rw [ofGraph, side_foldl]
  exact ascending_insertPaths (by cases live <;> exact .nil)

def deadExportsListed (g : Graph) (alive : List Nat) (l : List (SourceUnit × Nat)) :
    List (Path × List String) :=
  (l.filter fun x => alive.contains x.2 && !(g.deadExportsOf x.2 x.1).isEmpty).map
    fun x => (x.1.relative, g.deadExportsOf x.2 x.1)

theorem deadExports_foldl (g : Graph) (alive : List Nat) (l : List (SourceUnit × Nat)) (r : Reachability) :
    (l.foldl (add g alive) r).deadExports = insertAllAt (deadExportsListed g alive l) r.deadExports := by
  induction l generalizing r with
  | nil => rfl
  | cons x l ih =>
    rw [foldl_cons, ih, deadExports_add, deadExportsListed, deadExportsListed, filter_cons]
    by_cases hx : x.2 ∈ alive ∧ g.deadExportsOf x.2 x.1 ≠ [] <;> simp [hx, insertAllAt]

theorem ascending_deadExports (g : Graph) (entries : List Nat) :
    Ascending ((ofGraph g entries).deadExports.map (·.1)) := by
  rw [ofGraph, deadExports_foldl, map_insertAllAt]
  exact ascending_insertPaths List.Pairwise.nil

/-- **The dead exports of every live unit that has some are listed.** -/
theorem mem_deadExports (h : DistinctPaths g.units) {x : Path × List String} :
    x ∈ (ofGraph g entries).deadExports ↔ ∃ i u, g.units[i]? = some u ∧ i ∈ g.reachableUnits entries ∧
      g.deadExportsOf i u ≠ [] ∧ x = (u.relative, g.deadExportsOf i u) := by
  have hnodup : ((deadExportsListed g (g.reachableUnits entries) g.units.zipIdx).map (·.1.components)).Nodup := by
    rw [deadExportsListed, map_map]
    refine (filter_sublist.map _).nodup ?_
    have hfst := zipIdx_map_fst 0 g.units
    rw [DistinctPaths, ← hfst, map_map] at h
    exact h
  have hperm := insertAllAt_perm _ [] (by rwa [append_nil])
  rw [append_nil] at hperm
  rw [ofGraph, deadExports_foldl, hperm.mem_iff, deadExportsListed]
  simp only [mem_map, mem_filter, Prod.exists, mem_zipIdx_iff_getElem?, Bool.and_eq_true,
    contains_iff_mem, Bool.not_eq_true', isEmpty_eq_false_iff]
  constructor
  · rintro ⟨u, i, ⟨hu, halive, hdead⟩, rfl⟩
    exact ⟨i, u, hu, halive, hdead, rfl⟩
  · rintro ⟨i, u, hu, halive, hdead, rfl⟩
    exact ⟨u, i, ⟨hu, halive, hdead⟩, rfl⟩

end Reachability

theorem eq_of_ascending_map {β : Type} {f : β → Path} {l l' : List β} (h : Ascending (l.map f))
    (h' : Ascending (l'.map f)) (hmem : ∀ x, x ∈ l ↔ x ∈ l') : l = l' := by
  have hirrefl : Std.Irrefl fun x y : β => (f x).Before (f y) := ⟨fun x => Path.not_before_self (f x)⟩
  have hanti : Std.Antisymm fun x y : β => (f x).Before (f y) :=
    ⟨fun x y hxy hyx => absurd (Path.before_trans hxy hyx) (Path.not_before_self _)⟩
  exact List.Pairwise.eq_of_mem_iff (pairwise_map.1 h) (pairwise_map.1 h') hmem

/-- **Reports with the same members are the same.** -/
theorem Reachability.ext_of_mem {g g' : Graph} {entries entries' : List Nat}
    (hdead : ∀ p, p ∈ (ofGraph g entries).dead ↔ p ∈ (ofGraph g' entries').dead)
    (hreachable : ∀ p, p ∈ (ofGraph g entries).reachable ↔ p ∈ (ofGraph g' entries').reachable)
    (hexports : ∀ x, x ∈ (ofGraph g entries).deadExports ↔ x ∈ (ofGraph g' entries').deadExports) :
    ofGraph g entries = ofGraph g' entries' := by
  have h₁ := List.Pairwise.eq_of_mem_iff (ascending_side g entries false) (ascending_side g' entries' false) hdead
  have h₂ := List.Pairwise.eq_of_mem_iff (ascending_side g entries true) (ascending_side g' entries' true) hreachable
  have h₃ := eq_of_ascending_map (ascending_deadExports g entries) (ascending_deadExports g' entries') hexports
  generalize ofGraph g entries = r at h₁ h₂ h₃ ⊢
  generalize ofGraph g' entries' = r' at h₁ h₂ h₃ ⊢
  cases r
  cases r'
  exact (Reachability.mk.injEq ..).mpr ⟨h₁, h₂, h₃⟩

end Deadwood
