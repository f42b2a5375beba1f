import Deadwood.Proofs.Edges
import Deadwood.Proofs.Partition
import Deadwood.Proofs.Paths
import Deadwood.Proofs.Stability

/-!
# Cleaning once is enough

When the dead files of a project are taken away, none of those that are left is dead. The files that
are left keep their imports of each other, because all that a live file imports is alive; so each is
still reached along the chain of imports that reached it.
-/

namespace Deadwood

open Text List SourceFile Deadwood.Graph Catalog

/-! ## Members that are kept -/

section Kept

variable {α β : Type} (keep : Nat → Bool) (l : List α)

variable {keep l}

end Kept

/-! ## Units that are kept -/

/-- No two units have the same path, when it is written with slashes only. -/
def DistinctTexts (units : List SourceUnit) : Prop := (units.map (·.relText)).Nodup

instance (units : List SourceUnit) : Decidable (DistinctTexts units) :=
  inferInstanceAs (Decidable (units.map (·.relText)).Nodup)

variable {keep : Nat → Bool}

section Units

variable {units : List SourceUnit}

theorem mem_ofUnits {e : CatalogEntry} : e ∈ (ofUnits units).entries ↔
    units[e.index]? = some e.unit ∧ e.path = e.unit.relText := by
  simp only [ofUnits, mem_map, mem_zipIdx_iff_getElem?, Prod.exists]
  constructor
  · rintro ⟨u, i, hu, rfl⟩
    exact ⟨hu, rfl⟩
  · rintro ⟨hu, hpath⟩
    exact ⟨e.unit, e.index, hu, by rw [← hpath]⟩

theorem distinct_ofUnits (h : DistinctTexts units) : ∀ e ∈ (ofUnits units).entries,
    ∀ f ∈ (ofUnits units).entries, e.path = f.path → e = f := by
  intro e he f hf hpath
  obtain ⟨hu, hp⟩ := mem_ofUnits.1 he
  obtain ⟨hv, hq⟩ := mem_ofUnits.1 hf
  have hi : (units.map (·.relText))[e.index]? = some e.path := by
    rw [getElem?_map, hu, hp, Option.map_some]
  have hj : (units.map (·.relText))[f.index]? = some e.path := by
    rw [getElem?_map, hv, hpath, hq, Option.map_some]
  have hindex : e.index = f.index :=
    (getElem?_inj (List.getElem?_eq_some_iff.1 hi).1 h).1 (hi.trans hj.symm)
  have hunit : e.unit = f.unit := by
    rw [hindex, hv] at hu
    exact (Option.some.inj hu).symm
  obtain ⟨i, p, u⟩ := e
  obtain ⟨j, q, v⟩ := f
  exact CatalogEntry.mk.injEq .. ▸ ⟨hindex, hpath, hunit⟩

end Units

namespace Graph

variable {units : List SourceUnit}

end Graph

/-! ## Headers -/

namespace SourceFile

/-- The file as C++, if it is a header beside a C++ source. -/
def settled (trunks : List (Option (List Component) × String)) (f : SourceFile) : SourceFile :=
  if f.relative.extension? == some "h" && trunks.contains (trunk f.relative) then
    { f with language := .cpp }
  else f

end SourceFile

/-! ## Projects -/

/-- A way to read source files: a unit has the path and the language of its file. -/
structure Reader where
  read : SourceFile → SourceUnit
  relative : ∀ f, (read f).relative = f.relative
  language : ∀ f, (read f).language = f.language

def Reader.ofContents [TreeReader] (contents : SourceFile → Except FileError Bytes) : Reader where
  read f := .ofContents f.path f.relative f.language (contents f)
  relative _ := (SourceUnit.ofContents_same ..).2.1
  language _ := (SourceUnit.ofContents_same ..).2.2

namespace Reader

variable (reader : Reader) (files : List SourceFile)

def units : List SourceUnit := (settleHeaders files).map reader.read

def scan (root : Path) (detector : Detector) : Scan := .ofUnits root detector (reader.units files)

variable {reader files}

variable {f : SourceFile}

end Reader

theorem mem_detectAll {d : Detector} {units : List SourceUnit} {i : Nat} :
    i ∈ (d.detectAll units).map (·.unit) ↔ ∃ u, units[i]? = some u ∧ (d.detect? u).isSome := by
  simp only [Detector.detectAll, mem_map, mem_filterMap, Prod.exists,
    mem_zipIdx_iff_getElem?, Option.map_eq_some_iff]
  constructor
  · rintro ⟨e, ⟨u, j, hu, reason, hreason, rfl⟩, rfl⟩
    exact ⟨u, hu, by rw [hreason]; rfl⟩
  · rintro ⟨u, hu, hsome⟩
    obtain ⟨reason, hreason⟩ := Option.isSome_iff_exists.1 hsome
    exact ⟨_, ⟨u, i, hu, reason, hreason, rfl⟩, rfl⟩

namespace Scan

variable {root : Path} {d : Detector} {units : List SourceUnit}

end Scan

namespace Reader

variable {reader : Reader} {files : List SourceFile}

end Reader

end Deadwood
