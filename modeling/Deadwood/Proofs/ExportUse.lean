import Deadwood.Proofs.Linking
import Deadwood.Proofs.PathOrder

/-!
# The exports that nothing asks for

Imports between two units are gathered on one edge, and an edge with an import of everything asks for every
name. Whatever the order of the imports, the names that are asked for in the end are those of the imports
that were accepted, one by one.
-/

namespace Deadwood

open Deadwood.Graph

namespace Addition

/-- The import leads from one of `count` units to another. -/
def Accepted (count : Nat) (a : Addition) : Prop := a.source ≠ a.target ∧ a.source < count ∧ a.target < count

/-- The import is one of everything, or of names with this one among them. -/
def Carries (a : Addition) (name : String) : Prop :=
  a.names = .everything ∨ ∃ set, a.names = .names set ∧ name ∈ set

theorem carries_iff {a : Addition} {name : String} : a.Carries name ↔ a.names.contains name = true := by
  rw [Carries]
  cases a.names with
  | everything => simp [ImportedNames.contains]
  | names set => simp [ImportedNames.contains, NameSet.contains_iff]

instance (count : Nat) (a : Addition) : Decidable (a.Accepted count) := by
  unfold Accepted; infer_instance

instance (a : Addition) (name : String) : Decidable (a.Carries name) := decidable_of_iff _ carries_iff.symm

end Addition

namespace Graph

def addAll (g : Graph) (as : List Addition) : Graph := as.foldl add g

@[simp]
theorem units_addAll (g : Graph) (as : List Addition) : (g.addAll as).units = g.units := by
  induction as generalizing g with
  | nil => rfl
  | cons a as ih => exact (ih (g.add a)).trans (units_addEdge ..)

theorem uses_add {g : Graph} {a : Addition} {unit : Nat} {name : String} : (g.add a).Uses unit name ↔
      g.Uses unit name ∨ (a.Accepted g.units.length ∧ a.target = unit ∧ a.Carries name) := by
  rw [Addition.carries_iff, eq_comm (a := a.target)]
  exact uses_addEdge

/-- **The names that are asked for are those of the accepted imports.** -/
theorem uses_addAll (g : Graph) (as : List Addition) (unit : Nat) (name : String) :
    (g.addAll as).Uses unit name ↔
      g.Uses unit name ∨ ∃ a ∈ as, a.Accepted g.units.length ∧ a.target = unit ∧ a.Carries name := by
  induction as generalizing g with
  | nil => simp [addAll]
  | cons a as ih =>
    have hunits : (g.add a).units = g.units := units_addEdge ..
    rw [addAll, List.foldl_cons, ← addAll, ih, uses_add, hunits, or_assoc]
    simp only [List.mem_cons, exists_eq_or_imp]

end Graph

namespace Reachability

variable {g : Graph} {entries : List Nat} {i : Nat} {u : SourceUnit}

theorem lookup_eq_none_iff {α : Type} {l : List (Path × α)} {p : Path} :
    l.lookup p = none ↔ ∀ x ∈ l, x.1.components ≠ p.components := by
  induction l with
  | nil => simp
  | cons x l ih =>
    rw [List.lookup_cons, List.forall_mem_cons]
    by_cases h : (p == x.1) = true
    · simp [h, (Path.beq_iff.1 h).symm]
    · have hne : x.1.components ≠ p.components := fun heq => h (Path.beq_iff.2 heq.symm)
      simp [h, hne, ih]

/-- **What is reported at the path of a unit**: the exports that no edge asks for, if the unit is live and
there are some. -/
theorem lookup_deadExports (h : DistinctPaths g.units) (hu : g.units[i]? = some u) :
    (ofGraph g entries).deadExports.lookup u.relative =
      if i ∈ g.reachableUnits entries ∧ g.deadExportsOf i u ≠ [] then some (g.deadExportsOf i u) else none := by
  have hat : ((ofGraph g entries).deadExports.lookup u.relative).getD [] = _ := deadExportsAt_ofGraph h hu
  split
  · rename_i hlisted
    rw [if_pos hlisted.1] at hat
    cases hlook : (ofGraph g entries).deadExports.lookup u.relative with
    | none => rw [hlook] at hat; exact absurd hat.symm hlisted.2
    | some names => rw [hlook] at hat; exact congrArg some hat
  · rename_i hlisted
    -- an entry at this path would be the one of this unit
    rw [lookup_eq_none_iff]
    intro x hx hpath
    obtain ⟨j, v, hv, hlive, hdead, rfl⟩ := (mem_deadExports h).1 hx
    obtain rfl := h.eq_of_getElem? hu hv hpath.symm
    obtain rfl : u = v := Option.some.inj (hu.symm.trans hv)
    exact hlisted ⟨hlive, hdead⟩

theorem reachable_iff (h : DistinctPaths g.units) (hu : g.units[i]? = some u) :
    u.relative ∈ (ofGraph g entries).reachable ↔ i ∈ g.reachableUnits entries := by
  rw [mem_reachable h]
  constructor
  · rintro ⟨j, v, hv, hj, hpath⟩
    rwa [h.eq_of_getElem? hu hv (congrArg Path.components hpath.symm)]
  · exact fun hi => ⟨i, u, hu, hi, rfl⟩

end Reachability

/-- No accepted import of the unit carries the name. -/
def Unasked (units : List SourceUnit) (as : List Addition) (unit : Nat) (name : String) : Prop :=
  ∀ a ∈ as, a.Accepted units.length → a.target = unit → ¬ a.Carries name

instance (units : List SourceUnit) (as : List Addition) (unit : Nat) (name : String) :
    Decidable (Unasked units as unit name) := by
  unfold Unasked; infer_instance

theorem deadExportsOf_addAll (units : List SourceUnit) (as : List Addition) (i : Nat) (u : SourceUnit) :
    (addAll { units } as).deadExportsOf i u =
      (u.summary.exports.map (·.name)).filter fun name => Unasked units as i name := by
  rw [deadExportsOf_eq, List.filter_map]
  refine congrArg (List.map _) (List.filter_congr fun e _ => ?_)
  simp only [Function.comp_apply, uses_addAll]
  simp [Uses, Unasked]

/-- **The dead exports are exact.** Let a graph be built of units with different paths by any imports, in any order.
For every live unit the report lists, in the order of the exports, the names that no accepted import of the unit
carries, be it by a live unit or by a dead one; there is no entry if there are none, nor for a dead unit or at any
other path. -/
theorem deadExports_exact (units : List SourceUnit) (as : List Addition) (entries : List Nat)
    (h : DistinctPaths units) :
    let report := Reachability.ofGraph (.addAll { units } as) entries
    (∀ i u, units[i]? = some u → u.relative ∈ report.reachable →
      (report.deadExports.lookup u.relative).getD [] =
          (u.summary.exports.map (·.name)).filter (fun name => Unasked units as i name) ∧
        (report.deadExports.lookup u.relative = none ↔
          ∀ e ∈ u.summary.exports, ¬ Unasked units as i e.name)) ∧
    (∀ p ∈ report.dead, report.deadExports.lookup p = none) ∧
    ∀ x ∈ report.deadExports, ∃ u ∈ units, u.relative = x.1 ∧ x.1 ∈ report.reachable := by
  intro report
  have hunits : (Graph.addAll { units } as).units = units := Graph.units_addAll ..
  have hpaths : DistinctPaths (Graph.addAll { units } as).units := hunits.symm ▸ h
  refine ⟨fun i u hu hlive => ?_, fun p hp => ?_, fun x hx => ?_⟩
  · rw [← hunits] at hu
    have hi := (Reachability.reachable_iff hpaths hu).1 hlive
    have hempty : (u.summary.exports.map (·.name)).filter (fun name => Unasked units as i name) = [] ↔
        ∀ e ∈ u.summary.exports, ¬ Unasked units as i e.name := by
      simp [List.filter_eq_nil_iff]
    rw [Reachability.lookup_deadExports hpaths hu, deadExportsOf_addAll]
    by_cases hnone : (u.summary.exports.map (·.name)).filter (fun name => Unasked units as i name) = []
    · rw [if_neg fun hlisted => hlisted.2 hnone]
      exact ⟨hnone.symm, fun _ => hempty.1 hnone, fun _ => rfl⟩
    · rw [if_pos ⟨hi, hnone⟩]
      exact ⟨rfl, nofun, fun hall => absurd (hempty.2 hall) hnone⟩
  · obtain ⟨i, u, hu, hdead, rfl⟩ := (Reachability.mem_dead hpaths).1 hp
    rw [Reachability.lookup_deadExports hpaths hu, if_neg fun hlisted => hdead hlisted.1]
  · obtain ⟨i, u, hu, hi, -, rfl⟩ := (Reachability.mem_deadExports hpaths).1 hx
    exact ⟨u, hunits ▸ List.mem_of_getElem? hu, rfl, (Reachability.reachable_iff hpaths hu).2 hi⟩

/-- A live script, a library of three functions, and a dead script. -/
def libraryUnits : List SourceUnit :=
  let unit (path : String) (exports : List Export) : SourceUnit :=
    { path := ⟨path⟩, relative := ⟨path⟩, language := .python, summary := { exports } }
  [unit "a.py" [], unit "lib.py" [⟨"f", 1⟩, ⟨"g", 3⟩, ⟨"h", 5⟩], unit "c.py" [⟨"k", 1⟩]]

/-- The first function is imported twice by the live script, the second by the dead one; the library imports
all of itself, which is not accepted. -/
def libraryImports : List Addition :=
  [⟨0, 1, .single "f", none⟩, ⟨1, 1, .everything, none⟩, ⟨2, 1, .single "g", none⟩, ⟨0, 1, .single "f", none⟩]

theorem deadExports_exact_library :
    let report := Reachability.ofGraph (.addAll { units := libraryUnits } libraryImports) [0]
    DistinctPaths libraryUnits ∧ report.deadExports.lookup ⟨"c.py"⟩ = none ∧
      (report.deadExports.lookup ⟨"lib.py"⟩).getD [] = ["h"] := by
  have hpaths : DistinctPaths libraryUnits := by decide
  have hexact := deadExports_exact libraryUnits libraryImports [0] hpaths
  have hdead : (⟨"c.py"⟩ : Path) ∈ (Reachability.ofGraph
      (.addAll { units := libraryUnits } libraryImports) [0]).dead :=
    (Reachability.mem_dead (by decide)).2 ⟨2, _, rfl, by decide, rfl⟩
  have hlive : (⟨"lib.py"⟩ : Path) ∈ (Reachability.ofGraph
      (.addAll { units := libraryUnits } libraryImports) [0]).reachable :=
    (Reachability.mem_reachable (by decide)).2 ⟨1, _, rfl, by decide, rfl⟩
  exact ⟨hpaths, hexact.2.1 _ hdead, (hexact.1 1 _ rfl hlive).1.trans (by decide)⟩

end Deadwood
