import Deadwood.Proofs.Linking

/-!
# Packages of Go

The files of a Go package share a directory and need no imports of each other. An import names a package by a path, of
which only the end is known to the project.

* **`goPackage_lives_or_dies`**: a package is live or dead as a whole;
* **`go_leadsToPackage`**: which files an import leads to.
-/

namespace Deadwood

open List
open Deadwood.Graph (build)

/-! ## Files of one package -/

/-- Two units are files of one Go package: they are in the same directory and belong to the same package. -/
structure SharesPackage (u v : SourceUnit) : Prop where
  language : u.language = .go ∧ v.language = .go
  directory : directoryOf u.relText = directoryOf v.relText
  package : u.summary.package = v.summary.package

theorem SharesPackage.symm {u v : SourceUnit} (h : SharesPackage u v) : SharesPackage v u :=
  ⟨h.language.symm, h.directory.symm, h.package.symm⟩

variable {units : List SourceUnit} {i : Nat} {u : SourceUnit} {entries : List Nat}

section Units

variable {j : Nat} {v : SourceUnit}

theorem Catalog.dependsOn_of_sharesPackage (hv : units[j]? = some v) (h : SharesPackage u v) (hne : i ≠ j) :
    (ofUnits units).DependsOn ⟨i, u.relText, u⟩ j := by
  have hmem : (⟨j, v.relText, v⟩ : CatalogEntry) ∈ (ofUnits units).entries := mem_ofUnits.2 ⟨hv, rfl⟩
  have hsibling : (⟨j, .names (Resolve.mentionedExports u v)⟩ : Link) ∈
      (ofUnits units).packageSiblings ⟨i, u.relText, u⟩ := by
    refine mem_map.2 ⟨_, mem_filter.2 ⟨hmem, ?_⟩, rfl⟩
    simp [h.language.2, h.directory, h.package, hne.symm]
  have himplicit : (ofUnits units).implicitLinks ⟨i, u.relText, u⟩ =
      (ofUnits units).packageSiblings ⟨i, u.relText, u⟩ := by
    unfold implicitLinks
    rw [h.language.1]
  exact .inr ⟨_, himplicit ▸ hsibling, rfl⟩

namespace Graph

variable (hu : units[i]? = some u) (hv : units[j]? = some v) (h : SharesPackage u v)
include hu hv h

theorem imports_of_sharesPackage (hne : i ≠ j) : (build units).Imports i j :=
  imports_build.2 ⟨hne, (List.getElem?_eq_some_iff.1 hv).1, u, hu, Catalog.dependsOn_of_sharesPackage hv h hne⟩

theorem reachable_of_sharesPackage
    (hi : i ∈ (build units).reachableUnits entries) : j ∈ (build units).reachableUnits entries := by
  by_cases hne : i = j
  · exact hne ▸ hi
  · exact reachable_of_imports hi (imports_of_sharesPackage hu hv h hne)

end Graph

end Units

namespace Reachability

def IsLive (r : Reachability) (u : SourceUnit) : Prop :=
  u.relative ∈ r.reachable ∧ r.dead.contains u.relative = false

def IsDead (r : Reachability) (u : SourceUnit) : Prop :=
  u.relative ∈ r.dead ∧ r.reachable.contains u.relative = false

variable {g : Graph}

theorem isLive_of_reached (h : DistinctPaths g.units) (hu : g.units[i]? = some u)
    (hi : i ∈ g.reachableUnits entries) : (ofGraph g entries).IsLive u := by
  refine ⟨(mem_reachable h).2 ⟨i, u, hu, hi, rfl⟩, Bool.eq_false_iff.2 fun hdead => ?_⟩
  exact (dead_contains_iff h hu).1 hdead hi

theorem isDead_of_not_reached (h : DistinctPaths g.units) (hu : g.units[i]? = some u)
    (hi : i ∉ g.reachableUnits entries) : (ofGraph g entries).IsDead u := by
  refine ⟨(mem_dead h).2 ⟨i, u, hu, hi, rfl⟩, Bool.eq_false_iff.2 fun hlive => ?_⟩
  exact hi ((reachable_contains_iff h hu).1 hlive)

end Reachability

/-- **A Go package lives or dies as a whole.** Two of its files, tests included, are both reported as live or both as
dead, whatever the units and the entries are. -/
theorem goPackage_lives_or_dies {units : List SourceUnit} (hdistinct : DistinctPaths units) (entries : List Nat)
    {u v : SourceUnit} (hu : u ∈ units) (hv : v ∈ units) (h : SharesPackage u v) :
    let r := Reachability.ofGraph (build units) entries
    (r.IsLive u ∧ r.IsLive v) ∨ (r.IsDead u ∧ r.IsDead v) := by
  obtain ⟨i, hi⟩ := List.getElem?_of_mem hu
  obtain ⟨j, hj⟩ := List.getElem?_of_mem hv
  have hunits : (build units).units = units := Graph.units_build units
  have hdistinct' : DistinctPaths (build units).units := hunits.symm ▸ hdistinct
  have hi' : (build units).units[i]? = some u := hunits.symm ▸ hi
  have hj' : (build units).units[j]? = some v := hunits.symm ▸ hj
  have hsame : i ∈ (build units).reachableUnits entries ↔
      j ∈ (build units).reachableUnits entries :=
    ⟨Graph.reachable_of_sharesPackage hi hj h, Graph.reachable_of_sharesPackage hj hi h.symm⟩
  by_cases halive : i ∈ (build units).reachableUnits entries
  · left
    exact ⟨Reachability.isLive_of_reached hdistinct' hi' halive,
      Reachability.isLive_of_reached hdistinct' hj' (hsame.1 halive)⟩
  · right
    exact ⟨Reachability.isDead_of_not_reached hdistinct' hi' halive,
      Reachability.isDead_of_not_reached hdistinct' hj' (mt hsame.2 halive)⟩

def goFile (path package : String) (imports : List Import) (testFile : Bool) : SourceUnit where
  path := ⟨path⟩
  relative := ⟨path⟩
  language := .go
  summary := { imports, package := some package, testFile }

/-- A program, the package it imports with a test that nothing imports, and a package that nothing imports. -/
def storeProject : List SourceUnit :=
  [goFile "main.go" "main" [⟨"example.com/app/store", .single "Open", 3, .module⟩] false,
    goFile "store/store.go" "store" [] false, goFile "store/store_test.go" "store" [] true,
    goFile "old/a.go" "old" [] false, goFile "old/b.go" "old" [] false]

theorem goPackage_lives_or_dies_storeProject :
    let r := Reachability.ofGraph (build storeProject) [0]
    let code := goFile "store/store.go" "store" [] false
    let test := goFile "store/store_test.go" "store" [] true
    DistinctPaths storeProject ∧ SharesPackage code test ∧
      ((r.IsLive code ∧ r.IsLive test) ∨ (r.IsDead code ∧ r.IsDead test)) ∧
      r.dead.map (·.text) = ["old/a.go", "old/b.go"] := by
  intro r code test
  have hshares : SharesPackage code test := ⟨⟨rfl, rfl⟩, by decide +kernel, rfl⟩
  have hdistinct : DistinctPaths storeProject := by decide +kernel
  have hcode : code ∈ storeProject := .tail _ (.head _)
  have htest : test ∈ storeProject := .tail _ (.tail _ (.head _))
  exact ⟨hdistinct, hshares, goPackage_lives_or_dies hdistinct [0] hcode htest hshares, by decide +kernel⟩

/-! ## Directories that end a path -/

/-- **A path ends with a directory if its components end with those of the directory.** -/
theorem hasPathTail_iff {path d : String} :
    hasPathTail path d = true ↔ Text.splitAt '/' d <:+ Text.splitAt '/' path := by
  have hslash : "/" = String.singleton '/' := rfl
  rw [hasPathTail, Bool.or_eq_true, beq_iff_eq, Text.endsWith_iff]
  constructor
  · rintro (rfl | ⟨before, rfl⟩)
    · exact suffix_rfl
    · rw [← String.append_assoc, hslash, Text.splitAt_append]
      exact suffix_append _ _
  · rintro ⟨above, h⟩
    have hpath := Text.join_splitAt '/' path
    by_cases hnil : above = []
    · rw [← h, hnil, nil_append, Text.join_splitAt] at hpath
      exact .inl hpath.symm
    · have hd : Text.splitAt '/' d ≠ [] := by simp [Text.splitAt, Text.splitWhere, Text.splitList_ne_nil]
      rw [← h, Text.join_append hnil hd, Text.join_splitAt, String.append_assoc] at hpath
      exact .inr ⟨_, hpath.symm⟩

theorem utf8ByteSize_le_of_hasPathTail {path d : String} (h : hasPathTail path d = true) :
    d.utf8ByteSize ≤ path.utf8ByteSize := by
  rw [hasPathTail, Bool.or_eq_true, beq_iff_eq, Text.endsWith_iff] at h
  rcases h with rfl | ⟨before, rfl⟩
  · exact Nat.le_refl _
  · simp only [String.utf8ByteSize_append]
    omega

def isGoFileIn (d : String) (u : SourceUnit) : Bool :=
  u.language == .go && !u.summary.testFile && directoryOf u.relText == d

/-- A directory below the top that holds a Go file, and whose components end those of the path. -/
structure IsTailDirectory (units : List SourceUnit) (path d : String) : Prop where
  below : d ≠ ""
  holds : ∃ u ∈ units, isGoFileIn d u = true
  tail : Text.splitAt '/' d <:+ Text.splitAt '/' path

structure IsLongestTail (units : List SourceUnit) (path d : String) : Prop where
  isTail : IsTailDirectory units path d
  /-- Every other is shorter, in bytes and in components. -/
  longest : ∀ e, IsTailDirectory units path e → e ≠ d →
    e.utf8ByteSize < d.utf8ByteSize ∧ (Text.splitAt '/' e).length < (Text.splitAt '/' d).length

def goLinks (units : List SourceUnit) (d : String) (importer : Nat) (names : ImportedNames) : List Link :=
  (units.zipIdx.filter fun (u, k) => isGoFileIn d u && k != importer).map fun (_, k) => ⟨k, names⟩

namespace Resolve

variable {path d : String}

theorem goPackage_ofUnits (units : List SourceUnit) (d : String) : goPackage (.ofUnits units) d =
    (units.zipIdx.filter fun x => isGoFileIn d x.1).map fun (u, k) => ⟨k, u.relText, u⟩ := by
  rw [goPackage, Catalog.ofUnits, filter_map]
  rfl

theorem links_goPackage (units : List SourceUnit) (d : String) (importer : Nat) (names : ImportedNames) :
    ((goPackage (.ofUnits units) d).filter (·.index != importer)).map (fun e => (⟨e.index, names⟩ : Link)) =
      goLinks units d importer names := by
  rw [goPackage_ofUnits, filter_map, map_map, filter_filter, goLinks]
  congr 1
  refine filter_congr fun x _ => ?_
  exact Bool.and_comm _ _

theorem mem_goDirectories_ofUnits : d ∈ goDirectories (.ofUnits units) ↔ ∃ u ∈ units, isGoFileIn d u = true := by
  rw [mem_goDirectories, goPackage_ofUnits]
  simp only [mem_map, mem_filter, Prod.exists, mem_zipIdx_iff_getElem?]
  constructor
  · rintro ⟨_, u, k, ⟨hu, hfile⟩, -⟩
    exact ⟨u, mem_of_getElem? hu, hfile⟩
  · rintro ⟨u, hu, hfile⟩
    obtain ⟨k, hk⟩ := getElem?_of_mem hu
    exact ⟨_, u, k, ⟨hk, hfile⟩, rfl⟩

variable {order : List String} (horder : ∀ d, d ∈ order ↔ ∃ u ∈ units, isGoFileIn d u = true)
include horder

theorem mem_pathTails_iff : d ∈ pathTails order path ↔ IsTailDirectory units path d := by
  rw [mem_pathTails, horder, hasPathTail_iff]
  constructor
  · rintro ⟨hholds, hbelow, htail⟩
    exact ⟨by simpa using hbelow, hholds, htail⟩
  · rintro ⟨hbelow, hholds, htail⟩
    exact ⟨hholds, by simpa using hbelow, htail⟩

/-- **The directory that is picked is shorter than no other**, in whatever order they are gone through. -/
theorem isLongestTail_of_longestTail? (h : longestTail? order path = some d) : IsLongestTail units path d := by
  obtain ⟨hd, hmax⟩ := longestTail?_eq_some.1 h
  have hd := (mem_pathTails_iff horder).1 hd
  refine ⟨hd, fun e he hne => ?_⟩
  have hle : e.utf8ByteSize ≤ d.utf8ByteSize := hmax e ((mem_pathTails_iff horder).2 he)
  have hlt : e.utf8ByteSize < d.utf8ByteSize := by
    refine Nat.lt_of_le_of_ne hle fun hsize => hne ?_
    exact eq_of_hasPathTail (hasPathTail_iff.2 he.tail) (hasPathTail_iff.2 hd.tail) hsize
  refine ⟨hlt, ?_⟩
  -- of two ends of one list of components the longer has the longer text
  by_contra hcount
  have hsuffix := suffix_of_suffix_length_le hd.tail he.tail (Nat.le_of_not_lt hcount)
  have hsize := utf8ByteSize_le_of_hasPathTail (hasPathTail_iff.2 hsuffix)
  omega

theorem longestTail?_eq_none_iff : longestTail? order path = none ↔ ∀ d, ¬ IsTailDirectory units path d := by
  rw [longestTail?_eq_none, eq_nil_iff_forall_not_mem]
  exact forall_congr' fun d => not_congr (mem_pathTails_iff horder)

theorem longestTail?_eq_goDirectories :
    longestTail? order path = longestTail? (goDirectories (.ofUnits units)) path := by
  have hmem (d : String) : d ∈ pathTails order path ↔ d ∈ pathTails (goDirectories (.ofUnits units)) path :=
    (mem_pathTails_iff horder).trans (mem_pathTails_iff fun _ => mem_goDirectories_ofUnits).symm
  cases h : longestTail? order path with
  | none =>
    rw [eq_comm, longestTail?_eq_none, eq_nil_iff_forall_not_mem]
    intro d hd
    rw [longestTail?_eq_none] at h
    exact not_mem_nil (h ▸ (hmem d).2 hd)
  | some d =>
    obtain ⟨hd, hmax⟩ := longestTail?_eq_some.1 h
    exact (longestTail?_eq_some.2 ⟨(hmem d).1 hd, fun e he => hmax e ((hmem e).2 he)⟩).symm

end Resolve

/-- Where an import of Go leads, by its path without the slashes at the end. -/
structure LeadsToPackage (units : List SourceUnit) (importer : Nat) (i : Import) (path : String)
    (result : Option (List Link)) : Prop where
  /-- If the path ends with a directory of Go files, one such directory is the longest, and its files are meant. -/
  below : (∃ d, IsTailDirectory units path d) →
    ∃ d, IsLongestTail units path d ∧ result = some (goLinks units d importer i.names)
  /-- If not, the files at the top are meant, provided that one of them has the package that the path names. -/
  top : (∀ d, ¬ IsTailDirectory units path d) →
    (∃ u ∈ units, isGoFileIn "" u = true ∧ u.summary.package = some (Go.defaultPackageName path)) →
      result = some (goLinks units "" importer i.names)
  nowhere : (∀ d, ¬ IsTailDirectory units path d) →
    (∀ u ∈ units, isGoFileIn "" u = true → u.summary.package ≠ some (Go.defaultPackageName path)) → result = none

theorem Resolve.any_goPackage_iff {units : List SourceUnit} {d name : String} :
    ((goPackage (.ofUnits units) d).any fun e => e.unit.summary.package == some name) = true ↔
      ∃ u ∈ units, isGoFileIn d u = true ∧ u.summary.package = some name := by
  rw [goPackage_ofUnits, any_map, any_eq_true]
  simp only [mem_filter, Prod.exists, Function.comp_apply, beq_iff_eq, mem_zipIdx_iff_getElem?]
  constructor
  · rintro ⟨u, k, ⟨hu, hfile⟩, hname⟩
    exact ⟨u, mem_of_getElem? hu, hfile, hname⟩
  · rintro ⟨u, hu, hfile, hname⟩
    obtain ⟨k, hk⟩ := getElem?_of_mem hu
    exact ⟨u, k, ⟨hk, hfile⟩, hname⟩

/-- **An import of Go means the longest directory that its path ends with**, component by component. The answer is the
same in whatever order the directories are gone through. -/
theorem go_leadsToPackage (units : List SourceUnit) (importer : Nat) (i : Import) {order : List String}
    (horder : ∀ d, d ∈ order ↔ ∃ u ∈ units, isGoFileIn d u = true) :
    LeadsToPackage units importer i (Text.trimEndWhere (· == '/') i.target)
        (Resolve.goAmong order (.ofUnits units) importer i) ∧
      Resolve.goAmong order (.ofUnits units) importer i = Resolve.go (.ofUnits units) importer i := by
  obtain ⟨path, hpath⟩ : ∃ path, path = Text.trimEndWhere (· == '/') i.target := ⟨_, rfl⟩
  have hsame : Resolve.goAmong order (.ofUnits units) importer i = Resolve.go (.ofUnits units) importer i := by
    rw [Resolve.go, Resolve.goAmong_eq, Resolve.goAmong_eq, Resolve.goFiles?, Resolve.goFiles?,
      Resolve.longestTail?_eq_goDirectories horder]
  refine ⟨?_, hsame⟩
  rw [Resolve.goAmong_eq, Resolve.goFiles?, ← hpath]
  cases hlongest : Resolve.longestTail? order path with
  | some d =>
    have htail := Resolve.isLongestTail_of_longestTail? horder hlongest
    refine ⟨fun _ => ⟨d, htail, ?_⟩, fun hnone => absurd htail.isTail (hnone d),
      fun hnone => absurd htail.isTail (hnone d)⟩
    rw [Option.map_some, Resolve.links_goPackage]
  | none =>
    have hnone := (Resolve.longestTail?_eq_none_iff horder).1 hlongest
    refine ⟨fun hsome => absurd hsome (not_exists.2 hnone), fun _ hnamed => ?_, fun _ hnamed => ?_⟩
    · rw [if_pos (Resolve.any_goPackage_iff.2 hnamed), Option.map_some, Resolve.links_goPackage]
    · rw [if_neg, Option.map_none]
      intro hany
      obtain ⟨u, hu, hfile, hname⟩ := Resolve.any_goPackage_iff.1 hany
      exact hnamed u hu hfile hname

/-- The path ends with two directories, before its slashes; the longer one is meant, though the other comes first. -/
theorem go_leadsToPackage_nested :
    let i : Import := ⟨"example.com/app/internal/store//", .single "Open", 3, .module⟩
    let units := [goFile "main.go" "main" [i] false, goFile "internal/store/store.go" "store" [] false,
      goFile "store/store.go" "store" [] false, goFile "internal/store/store_test.go" "store" [] true]
    let order := ["store", "", "internal/store"]
    (∀ d, d ∈ order ↔ ∃ u ∈ units, isGoFileIn d u = true) ∧
      LeadsToPackage units 0 i "example.com/app/internal/store" (some [⟨1, .single "Open"⟩]) := by
  intro i units order
  have hfiles : Resolve.goDirectories (.ofUnits units) = ["", "internal/store", "store"] := by decide +kernel
  have hperm : order.Perm ["", "internal/store", "store"] := by decide
  have horder (d : String) : d ∈ order ↔ ∃ u ∈ units, isGoFileIn d u = true := by
    rw [hperm.mem_iff, ← hfiles]
    exact Resolve.mem_goDirectories_ofUnits
  have hpath : Text.trimEndWhere (· == '/') i.target = "example.com/app/internal/store" := by decide +kernel
  have hlinks : Resolve.goAmong order (.ofUnits units) 0 i = some [⟨1, .single "Open"⟩] := by decide +kernel
  have hleads := (go_leadsToPackage units 0 i horder).1
  rw [hpath, hlinks] at hleads
  exact ⟨horder, hleads⟩

end Deadwood
