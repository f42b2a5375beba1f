import Deadwood.Proofs.Search
import Deadwood.Proofs.Text

/-!
# Resolution among fewer files

When files are taken out of a project, the imports of those that are left still lead where they led,
provided that what they led to is left too. Each rule of resolution is a combination of searches
(`Steady`).
-/

namespace Deadwood

open Text List CatalogEntry

/-! ## Imports by path -/

theorem Resolve.inclusion_eq (c : Catalog) (directory : String) (i : Import) : inclusion c directory i =
      (linkTo? ((joinPath? directory i.target).bind c.lookup? <|> (joinPath? "" i.target).bind c.lookup?) i <|>
        (joinPath? "" i.target).bind fun path =>
          let found := (c.withTail (lastPart "/" path) path).map fun e => (⟨e.index, i.names⟩ : Link)
          if found.isEmpty then none else some found) := by
  unfold inclusion
  split
  · rename_i hfound
    rw [hfound]
    rfl
  · rename_i hnone
    rw [hnone]
    rfl

variable {c c' : Catalog} {σ : Nat → Nat} {alive : Nat → Prop} {d path : String} {importer e : CatalogEntry}

namespace Catalog.Thinned

open Resolve

variable (h : Thinned c c' σ alive) (directory : String) (i : Import)
include h

theorem scriptAt? (base : String) : SteadyUnit σ alive (scriptAt? c base) (scriptAt? c' base) := by
  unfold Resolve.scriptAt?
  refine (h.probe? base _ _).orElse ?_
  split
  · split
    · exact h.probe? _ _ _
    · exact .none
  · exact .none

theorem script : SteadyLinks σ alive (script c directory i) (script c' directory i) :=
  SteadyUnit.linkTo? (.findSome? h.scriptAt? _) i

theorem asset : SteadyLinks σ alive (asset c directory i) (asset c' directory i) :=
  SteadyUnit.linkTo? (.findSome? h.lookup? _) i

theorem stylesheet : SteadyLinks σ alive (stylesheet c directory i) (stylesheet c' directory i) := by
  unfold Resolve.stylesheet
  split <;> exact .bind _ fun base => SteadyUnit.linkTo?
    ((h.probe? base _ _).orElse ((h.probe? _ _ _).orElse (h.probe? base _ _))) i

theorem pythonLinks (module base : String) (i : Import) : SteadyLinks σ alive
    (if (pythonLinks c module base i).isEmpty then none else some (pythonLinks c module base i))
    (if (pythonLinks c' module base i).isEmpty then none else some (pythonLinks c' module base i)) := by
  unfold Resolve.pythonLinks
  cases joinPath? base module with
  | none => exact .none
  | some path =>
    -- the packages above count only with what is found, so nothing is said of them alone
    have hif (found packages : List Link) : (if (if found.isEmpty then [] else found ++ packages).isEmpty then none
          else some (if found.isEmpty then [] else found ++ packages)) =
        if found.isEmpty then none else some (found ++ packages) := by
      cases found <;> rfl
    simp only [hif]
    refine SteadyList.followedBy (.append (.ofOption (SteadyUnit.link ?_ _)) ?_) (.filterMap (fun depth => ?_) _)
    · split <;> exact h.probe? _ _ _
    · cases i.names with
      | everything => exact .nil
      | names set => exact .filterMap (fun name => SteadyUnit.link (.bind _ fun _ => h.probe? _ _ _) _) _
    · split
      · exact .none
      · exact SteadyUnit.link (.bind _ fun _ => h.probe? _ _ _) _

theorem python : SteadyLinks σ alive (python c directory i) (python c' directory i) :=
  .findSome? (fun base => h.pythonLinks _ base i) _

theorem rustModule (u : SourceUnit) (directory : String) (i : Import) :
    SteadyLinks σ alive (rustModule c u directory i) (rustModule c' u directory i) := by
  unfold Resolve.rustModule
  split
  · exact .none
  · split
    · exact SteadyUnit.linkTo? (.bind _ h.lookup?) i
    · dsimp only
      split <;> exact .bind _ fun base =>
        SteadyUnit.linkTo? ((Steady.bind _ h.lookup?).orElse (.bind _ h.lookup?)) i

theorem plainPath (directory : String) (extensions : List String) (i : Import) :
    SteadyLinks σ alive (plainPath c directory extensions i) (plainPath c' directory extensions i) := by
  unfold Resolve.plainPath
  split
  · exact .none
  · refine SteadyUnit.linkTo? ?_ i
    have hat (base path : String) : SteadyUnit σ alive ((joinPath? base path).bind fun p => c.probe? p extensions none)
        ((joinPath? base path).bind fun p => c'.probe? p extensions none) :=
      .bind _ fun p => h.probe? p _ _
    split
    · exact hat _ _
    · exact (hat _ _).orElse (hat _ _)

theorem fromDirectories (directories : List String) (path : String) (extensions : List String)
    (indexStem : Option String) (i : Import) : SteadyLinks σ alive
      (fromDirectories c directories path extensions indexStem i)
      (fromDirectories c' directories path extensions indexStem i) :=
  SteadyUnit.linkTo? (.findSome? (fun p => h.probe? p _ _) _) i

theorem ruby : SteadyLinks σ alive (ruby c directory i) (ruby c' directory i) := by
  unfold Resolve.ruby
  split
  · exact h.plainPath _ _ i
  · exact h.fromDirectories _ _ _ _ i

theorem lua : SteadyLinks σ alive (lua c directory i) (lua c' directory i) := by
  unfold Resolve.lua
  split
  · exact h.plainPath _ _ i
  · exact h.fromDirectories _ _ _ _ i

theorem withTail (name tail : String) (names : ImportedNames) : SteadyList σ alive
    ((c.withTail name tail).map fun e => ⟨e.index, names⟩)
    ((c'.withTail name tail).map fun e => ⟨e.index, names⟩) := by
  unfold Catalog.withTail withFileName
  rw [filter_filter, filter_filter]
  exact h.filter (fun _ _ => rfl) names

theorem inclusion : SteadyLinks σ alive (inclusion c directory i) (inclusion c' directory i) := by
  have hfirst := (Steady.bind (joinPath? directory i.target) h.lookup?).orElse (.bind (joinPath? "" i.target) h.lookup?)
  have hrest := Steady.bind (joinPath? "" i.target) fun path =>
    (h.withTail (lastPart "/" path) path i.names).orNone
  exact inclusion_eq c directory i ▸ inclusion_eq c' directory i ▸ (SteadyUnit.linkTo? hfirst i).orElse hrest

end Catalog.Thinned

/-! ## Go packages -/

namespace Resolve

variable {directories seen : List String} {best : Option String}

theorem mem_goDirectories {c : Catalog} : d ∈ goDirectories c ↔ ∃ e, e ∈ goPackage c d := by
  simp only [goDirectories, goPackage, mem_filter, mem_map, Bool.and_eq_true, Bool.not_eq_true', beq_iff_eq]
  exact exists_congr fun e => and_assoc

/-- Those of some directories that an import path ends with, other than the top. -/
def pathTails (directories : List String) (path : String) : List String :=
  directories.filter fun d => !d.isEmpty && hasPathTail path d

theorem mem_pathTails : d ∈ pathTails directories path ↔ d ∈ directories ∧ d.isEmpty = false ∧ hasPathTail path d := by
  simp only [pathTails, mem_filter, Bool.and_eq_true, Bool.not_eq_true']

def longer (best : Option String) (d : String) : Option String :=
  match best with
  | some b => if b.utf8ByteSize < d.utf8ByteSize then some d else some b
  | none => some d

/-- `best` is a longest of the texts `seen`. -/
structure IsLongest (seen : List String) (best : Option String) : Prop where
  nil : best = none → seen = []
  longest : ∀ d, best = some d → d ∈ seen ∧ ∀ x ∈ seen, x.utf8ByteSize ≤ d.utf8ByteSize

theorem IsLongest.step (h : IsLongest seen best) (x : String) : IsLongest (seen ++ [x]) (longer best x) := by
  cases best with
  | none =>
    rw [h.nil rfl]
    exact ⟨nofun, fun d hd => by cases hd; simp⟩
  | some b =>
    obtain ⟨hb, hle⟩ := h.longest b rfl
    rw [longer]
    split
    · refine ⟨nofun, fun d hd => ?_⟩
      cases hd
      refine ⟨by simp, fun y hy => ?_⟩
      rcases mem_append.1 hy with hy | hy
      · have := hle y hy
        omega
      · exact Nat.le_of_eq (congrArg _ (mem_singleton.1 hy))
    · refine ⟨nofun, fun d hd => ?_⟩
      cases hd
      refine ⟨mem_append_left _ hb, fun y hy => ?_⟩
      rcases mem_append.1 hy with hy | hy
      · exact hle y hy
      · rw [mem_singleton.1 hy]
        omega

theorem IsLongest.foldl (h : IsLongest seen best)
    (ds : List String) : IsLongest (seen ++ ds) (ds.foldl longer best) := by
  induction ds generalizing seen best with
  | nil => simpa using h
  | cons d ds ih => simpa using ih (h.step d)

theorem isLongest_longestTail? (directories : List String) (path : String) :
    IsLongest (pathTails directories path) (longestTail? directories path) :=
  (⟨fun _ => rfl, nofun⟩ : IsLongest [] none).foldl (pathTails directories path)

theorem longestTail?_eq_none : longestTail? directories path = none ↔ pathTails directories path = [] := by
  refine ⟨(isLongest_longestTail? directories path).nil, fun hnil => ?_⟩
  rw [Option.eq_none_iff_forall_ne_some]
  intro d hd
  have := ((isLongest_longestTail? directories path).longest d hd).1
  rw [hnil] at this
  cases this

theorem eq_of_hasPathTail {e : String} (hd : hasPathTail path d) (he : hasPathTail path e)
    (hsize : d.utf8ByteSize = e.utf8ByteSize) : d = e := by
  have hcut {x : String} (hx : hasPathTail path x) : ∃ r, path = r ++ x := by
    rw [hasPathTail, Bool.or_eq_true, beq_iff_eq, endsWith_iff] at hx
    rcases hx with rfl | ⟨r, hr⟩
    · exact ⟨"", by simp⟩
    · exact ⟨r ++ "/", by rw [hr, String.append_assoc]⟩
  obtain ⟨r, hr⟩ := hcut hd
  obtain ⟨s, hs⟩ := hcut he
  exact append_right_inj_of_size (hr.symm.trans hs) hsize

/-- **There is one longest directory,** because tails of a path of the same length are equal. -/
theorem longestTail?_eq_some : longestTail? directories path = some d ↔
      d ∈ pathTails directories path ∧ ∀ x ∈ pathTails directories path, x.utf8ByteSize ≤ d.utf8ByteSize := by
  refine ⟨(isLongest_longestTail? directories path).longest d, fun ⟨hd, hle⟩ => ?_⟩
  cases hx : longestTail? directories path with
  | none =>
    rw [longestTail?_eq_none.1 hx] at hd
    cases hd
  | some x =>
    obtain ⟨hmem, hxle⟩ := (isLongest_longestTail? directories path).longest x hx
    have hsize : x.utf8ByteSize = d.utf8ByteSize := Nat.le_antisymm (hle x hmem) (hxle d hd)
    rw [eq_of_hasPathTail (mem_pathTails.1 hmem).2.2 (mem_pathTails.1 hd).2.2 hsize]

def goFiles? (directories : List String) (c : Catalog) (path : String) : Option (List CatalogEntry) :=
  match longestTail? directories path with
  | some directory => some (goPackage c directory)
  | none =>
    if (goPackage c "").any fun e => e.unit.summary.package == some (Go.defaultPackageName path) then
      some (goPackage c "")
    else none

theorem goAmong_eq (directories : List String) (c : Catalog) (importer : Nat) (i : Import) :
    goAmong directories c importer i = (goFiles? directories c (trimEndWhere (· == '/') i.target)).map fun files =>
        (files.filter (·.index != importer)).map fun e => ⟨e.index, i.names⟩ := by
  unfold goAmong goFiles?
  dsimp only
  cases longestTail? directories (trimEndWhere (· == '/') i.target) with
  | some d => rfl
  | none =>
    dsimp only
    split <;> rfl

end Resolve

namespace Catalog.Thinned

open Resolve

variable (h : Thinned c c' σ alive)
include h

theorem index_bne (hmem : importer ∈ c'.entries) (he : e ∈ c'.entries) :
    ((e.moved σ).index != σ importer.index) = (e.index != importer.index) := by
  rw [Bool.eq_iff_iff, bne_iff_ne, bne_iff_ne, ne_eq, ne_eq, not_iff_not]
  exact ⟨h.injective e he importer hmem, fun heq => congrArg σ heq⟩

theorem others (hmem : importer ∈ c'.entries) {q q' : CatalogEntry → Bool}
    (hq : ∀ e ∈ c'.entries, q (e.moved σ) = q' e) (names : ImportedNames) : SteadyList σ alive
      (((c.entries.filter q).filter (·.index != σ importer.index)).map fun e => ⟨e.index, names⟩)
      (((c'.entries.filter q').filter (·.index != importer.index)).map fun e => ⟨e.index, names⟩) := by
  rw [filter_filter, filter_filter]
  exact h.filter (fun e he => by rw [h.index_bne hmem he, hq e he]) names

theorem mem_goPackage (he : e ∈ goPackage c' d) : e.moved σ ∈ goPackage c d := by
  rw [goPackage, mem_filter] at he ⊢
  exact ⟨h.old e he.1, he.2⟩

theorem exists_goPackage (he : e ∈ goPackage c d) (halive : alive e.index) : ∃ e' ∈ goPackage c' d, e'.moved σ = e := by
  rw [goPackage, mem_filter] at he
  obtain ⟨e', he', rfl⟩ := h.kept e he.1 halive
  exact ⟨e', by rw [goPackage, mem_filter]; exact ⟨he', he.2⟩, rfl⟩

theorem pathTails_subset (hd : d ∈ pathTails (goDirectories c') path) : d ∈ pathTails (goDirectories c) path := by
  rw [mem_pathTails, mem_goDirectories] at hd ⊢
  exact ⟨hd.1.imp' _ fun e he => h.mem_goPackage he, hd.2⟩

theorem longestTail?_absent (hnone : longestTail? (goDirectories c) path = none) :
    longestTail? (goDirectories c') path = none := by
  rw [longestTail?_eq_none, eq_nil_iff_forall_not_mem] at hnone ⊢
  exact fun d hd => hnone d (h.pathTails_subset hd)

theorem goFiles?_absent (hnone : goFiles? (goDirectories c) c path = none) :
    goFiles? (goDirectories c') c' path = none := by
  unfold goFiles? at hnone ⊢
  split at hnone
  · cases hnone
  · rename_i hdir
    rw [h.longestTail?_absent hdir]
    split at hnone
    · cases hnone
    · rename_i hany
      rw [if_neg]
      intro hany'
      obtain ⟨e, he, hp⟩ := any_eq_true.1 hany'
      exact hany (any_eq_true.2 ⟨_, h.mem_goPackage he, hp⟩)

theorem goFiles?_found {files : List CatalogEntry}
    (hfiles : goFiles? (goDirectories c) c path = some files) (hgood : ∀ e ∈ files, alive e.index) (hne : files ≠ []) :
    ∃ d, files = goPackage c d ∧ goFiles? (goDirectories c') c' path = some (goPackage c' d) := by
  unfold goFiles? at hfiles ⊢
  split at hfiles
  · rename_i d hdir
    cases hfiles
    refine ⟨d, rfl, ?_⟩
    obtain ⟨hd, hle⟩ := longestTail?_eq_some.1 hdir
    obtain ⟨e, he⟩ := exists_mem_of_ne_nil _ hne
    obtain ⟨e', he', -⟩ := h.exists_goPackage he (hgood e he)
    have hd' : d ∈ pathTails (goDirectories c') path :=
      mem_pathTails.2 ⟨mem_goDirectories.2 ⟨e', he'⟩, (mem_pathTails.1 hd).2⟩
    rw [longestTail?_eq_some.2 ⟨hd', fun x hx => hle x (h.pathTails_subset hx)⟩]
  · rename_i hdir
    rw [h.longestTail?_absent hdir]
    split at hfiles
    · rename_i hany
      cases hfiles
      obtain ⟨e, he, hp⟩ := any_eq_true.1 hany
      obtain ⟨e', he', rfl⟩ := h.exists_goPackage he (hgood e he)
      exact ⟨"", rfl, if_pos (any_eq_true.2 ⟨e', he', hp⟩)⟩
    · cases hfiles

theorem go (hmem : importer ∈ c'.entries) (halive : alive (σ importer.index)) (i : Import) :
    SteadyLinks σ alive (go c (σ importer.index) i) (go c' importer.index i) := by
  rw [Resolve.go, Resolve.go, goAmong_eq, goAmong_eq]
  constructor
  · intro hnone
    rw [h.goFiles?_absent (Option.map_eq_none_iff.1 hnone), Option.map_none]
  · intro ls hls hgood
    obtain ⟨files, hfiles, rfl⟩ := Option.map_eq_some_iff.1 hls
    -- the importing file may be one of the package: it is no target, but it is alive as well
    have hall : ∀ e ∈ files, alive e.index := by
      intro e he
      by_cases hself : e.index = σ importer.index
      · rwa [hself]
      · exact hgood.2 ⟨e.index, i.names⟩ (mem_map.2 ⟨e, by simp [he, hself], rfl⟩)
    have hne : files ≠ [] := by
      rintro rfl
      exact hgood.1 rfl
    obtain ⟨d, rfl, hfiles'⟩ := h.goFiles?_found hfiles hall hne
    refine ⟨_, by rw [hfiles', Option.map_some], fun l hl => ?_⟩
    exact (h.others hmem (fun _ _ => rfl) i.names).found l hl (hgood.2 l hl)

end Catalog.Thinned

/-! ## Imports by identity -/

namespace Resolve

theorem packageMembers_eq_filter (c : Catalog) (space : Space) (package : String) :
    packageMembers c space package = c.entries.filter fun e =>
      e.unit.summary.package == some package && Space.of? e.unit.language == some space := by
  rw [packageMembers, membersOf, filter_filter]

theorem mem_mentionedLinks {u : SourceUnit} {importer : Nat} {es : List CatalogEntry} {l : Link} :
    l ∈ mentionedLinks u importer es ↔ ∃ e ∈ es, (e.index != importer ∧
      (mentionedExports u e.unit).isEmpty = false ∧ .names (mentionedExports u e.unit) = l.names) ∧
        e.index = l.target := by
  cases l
  simp only [mentionedLinks, mem_filterMap, mem_filter]
  refine exists_congr fun e => ?_
  cases (mentionedExports u e.unit).isEmpty with
  | true => simp
  | false =>
    simp only [bne_iff_ne, ne_eq, Bool.false_eq_true, if_false, Option.some.injEq, Link.mk.injEq, true_and]
    tauto

theorem mem_exporters {c : Catalog} {space : Space} {qualified : String} {t : Nat} :
    t ∈ exporters c space qualified ↔ ∃ e ∈ c.entries, (Space.of? e.unit.language = some space ∧
      ∃ package ∈ e.unit.summary.package, ∃ x ∈ e.unit.summary.exports,
        package ++ space.separator ++ x.name = qualified) ∧ e.index = t := by
  simp only [exporters, membersOf, mem_flatMap, mem_filter, beq_iff_eq]
  refine exists_congr fun e => ?_
  cases e.unit.summary.package with
  | none => simp
  | some package =>
    simp only [mem_map, mem_filter, beq_iff_eq, exists_and_right, Option.mem_def, Option.some.injEq, exists_eq_left']
    tauto

theorem qualifiedLinks_succ (c : Catalog) (space : Space) (i : Import) (fuel : Nat) (name : String) :
    qualifiedLinks c space i (fuel + 1) name = (splitLast? name space.separator).bind fun (parent, last) =>
        let found := (exporters c space name).map fun t => (⟨t, i.names.merge (.single last)⟩ : Link)
        (if found.isEmpty then none else some found) <|>
          (if contains parent space.separator then qualifiedLinks c space i fuel parent else none) := by
  rw [qualifiedLinks]
  refine congrArg (Option.bind _) (funext fun (parent, last) => ?_)
  cases exporters c space name <;> rfl

theorem phpUse_eq (c : Catalog) (u : SourceUnit) (importer : Nat) (i : Import) : phpUse c u importer i =
      let target := trimStartWhere (· == '\\') i.target
      (qualifiedLinks c .php i (target.length + 1) target <|>
        if true && !(packageMembers c .php target).isEmpty then
          some (mentionedInPackage c u importer .php target)
        else classFiles c (splitAt '\\' target) i) := by
  unfold phpUse
  dsimp only
  cases qualifiedLinks c .php i _ (trimStartWhere (· == '\\') i.target) <;> rfl

end Resolve

namespace Catalog.Thinned

open Resolve

variable (h : Thinned c c' σ alive)
include h

theorem exporters (space : Space) (qualified : String) (names : ImportedNames) : SteadyList σ alive
    ((exporters c space qualified).map fun t => ⟨t, names⟩)
    ((exporters c' space qualified).map fun t => ⟨t, names⟩) := by
  refine h.links (fun e ν => (Space.of? e.unit.language = some space ∧
      ∃ package ∈ e.unit.summary.package, ∃ x ∈ e.unit.summary.exports,
        package ++ space.separator ++ x.name = qualified) ∧ names = ν) _
    (fun _ _ _ => Iff.rfl) (fun l => ?_) (fun l => ?_)
  all_goals
    cases l
    simp only [mem_map, Link.mk.injEq, mem_exporters]
    constructor
    · rintro ⟨t, ⟨e, he, hq, rfl⟩, rfl, rfl⟩
      exact ⟨e, he, ⟨hq, rfl⟩, rfl⟩
    · rintro ⟨e, he, ⟨hq, rfl⟩, rfl⟩
      exact ⟨e.index, ⟨e, he, hq, rfl⟩, rfl, rfl⟩

theorem qualifiedLinks (space : Space) (i : Import) (fuel : Nat) (name : String) :
    SteadyLinks σ alive (qualifiedLinks c space i fuel name) (qualifiedLinks c' space i fuel name) := by
  induction fuel generalizing name with
  | zero => exact .none
  | succ fuel ih =>
    rw [qualifiedLinks_succ, qualifiedLinks_succ]
    refine .bind _ fun (parent, last) => ((h.exporters space name _).orNone).orElse ?_
    split
    · exact ih parent
    · exact .none

theorem classFiles (segments : List String) (i : Import) :
    SteadyLinks σ alive (classFiles c segments i) (classFiles c' segments i) :=
  .findSome? (fun _ => (h.withTail _ _ i.names).orNone) _

theorem swiftModule (i : Import) : SteadyLinks σ alive (swiftModule c i) (swiftModule c' i) := by
  unfold Resolve.swiftModule
  constructor
  · intro hnone
    split at hnone
    · cases hnone
    · rename_i hany
      rw [if_neg]
      intro hany'
      obtain ⟨e, he, hp⟩ := any_eq_true.1 hany'
      rw [membersOf, mem_filter] at he
      exact hany (any_eq_true.2 ⟨e.moved σ, mem_filter.2 ⟨h.old e he.1, he.2⟩, hp⟩)
  · intro ls hls hgood
    split at hls <;> cases hls
    exact absurd rfl hgood.1

variable (hmem : importer ∈ c'.entries)
include hmem

theorem mentionedLinks {q q' : CatalogEntry → Bool}
    (hq : ∀ e ∈ c'.entries, q (e.moved σ) = q' e) (u : SourceUnit) : SteadyList σ alive
      (mentionedLinks u (σ importer.index) (c.entries.filter q))
      (mentionedLinks u importer.index (c'.entries.filter q')) := by
  refine h.links (fun e ν => q e ∧ e.index != σ importer.index ∧ (mentionedExports u e.unit).isEmpty = false ∧
      .names (mentionedExports u e.unit) = ν)
    (fun e ν => q' e ∧ e.index != importer.index ∧ (mentionedExports u e.unit).isEmpty = false ∧
      .names (mentionedExports u e.unit) = ν)
    (fun e he ν => by rw [h.index_bne hmem he, hq e he]; rfl) (fun l => ?_) (fun l => ?_)
  all_goals
    simp only [mem_mentionedLinks, mem_filter]
    exact exists_congr fun e => by tauto

theorem mentionedInPackage (u : SourceUnit) (space : Space)
    (package : String) : SteadyList σ alive (mentionedInPackage c u (σ importer.index) space package)
      (mentionedInPackage c' u importer.index space package) := by
  unfold Resolve.mentionedInPackage
  rw [packageMembers_eq_filter, packageMembers_eq_filter]
  exact h.mentionedLinks hmem (fun _ _ => rfl) u

/-- A package that is open: it vanishes only if nothing of it was used. -/
theorem openPackage (u : SourceUnit) (space : Space) (package : String)
    (wanted : Bool) {x x' : Option (List Link)} (hx : SteadyLinks σ alive x x') : SteadyLinks σ alive
      (if wanted && !(packageMembers c space package).isEmpty then
        some (Resolve.mentionedInPackage c u (σ importer.index) space package) else x)
      (if wanted && !(packageMembers c' space package).isEmpty then
        some (Resolve.mentionedInPackage c' u importer.index space package) else x') := by
  have hlinks := h.mentionedInPackage hmem u space package
  by_cases hopen : wanted && !(packageMembers c space package).isEmpty
  · rw [if_pos hopen]
    refine ⟨nofun, fun ls hls hgood => ?_⟩
    cases hls
    obtain ⟨l, hl⟩ := exists_mem_of_ne_nil _ hgood.1
    obtain ⟨l', hl', -⟩ := hlinks.found l hl (hgood.2 l hl)
    obtain ⟨e, he, -⟩ := mem_mentionedLinks.1 hl'
    rw [Bool.and_eq_true] at hopen
    rw [if_pos (by simp [hopen.1, ne_nil_of_mem he])]
    exact ⟨_, rfl, fun l hl => hlinks.found l hl (hgood.2 l hl)⟩
  · rw [if_neg hopen, if_neg]
    · exact hx
    · intro hopen'
      apply hopen
      rw [Bool.and_eq_true, Bool.not_eq_true', isEmpty_eq_false_iff] at hopen' ⊢
      obtain ⟨e, he⟩ := exists_mem_of_ne_nil _ hopen'.2
      refine ⟨hopen'.1, ne_nil_of_mem (a := e.moved σ) ?_⟩
      rw [packageMembers_eq_filter, mem_filter] at he ⊢
      exact ⟨h.old e he.1, he.2⟩

theorem typeImport (space : Space) (u : SourceUnit) (i : Import) :
    SteadyLinks σ alive (typeImport c space u (σ importer.index) i) (typeImport c' space u importer.index i) :=
  h.openPackage hmem u space i.target i.names.isEverything (h.qualifiedLinks space i _ _)

theorem phpUse (u : SourceUnit) (i : Import) :
    SteadyLinks σ alive (phpUse c u (σ importer.index) i) (phpUse c' u importer.index i) := by
  rw [phpUse_eq, phpUse_eq]
  exact (h.qualifiedLinks .php i _ _).orElse (h.openPackage hmem u .php _ true (h.classFiles _ i))

end Catalog.Thinned

/-! ## All imports -/

namespace Catalog

/-- The files that are left stand in the order in which they stood. -/
def InOrder (c c' : Catalog) (σ : Nat → Nat) (alive : Nat → Prop) : Prop :=
  ∃ keep : CatalogEntry → Bool, (∀ e ∈ c.entries, alive e.index → keep e) ∧
    c'.entries.map (·.moved σ) = c.entries.filter keep

theorem InOrder.head? {c c' : Catalog} {σ : Nat → Nat} {alive : Nat → Prop}
    (horder : InOrder c c' σ alive) {q : CatalogEntry → Bool} (hq : ∀ e, q (e.moved σ) = q e) :
    SteadyUnit σ alive ((c.entries.filter q).head?.map (·.index)) ((c'.entries.filter q).head?.map (·.index)) := by
  obtain ⟨keep, hkeep, hentries⟩ := horder
  have hfilter : (c'.entries.filter q).map (·.moved σ) = (c.entries.filter q).filter keep := by
    have hcomp : (c'.entries.map (·.moved σ)).filter q = (c'.entries.filter q).map (·.moved σ) := by
      rw [filter_map]
      exact congrArg (List.map _) (filter_congr fun e _ => hq e)
    rw [← hcomp, hentries, filter_filter, filter_filter]
    exact filter_congr fun e _ => Bool.and_comm _ _
  have hhead : ((c'.entries.filter q).head?).map (·.moved σ) = ((c.entries.filter q).filter keep).head? := by
    rw [← hfilter, head?_map]
  constructor
  · intro hnone
    rw [Option.map_eq_none_iff, head?_eq_none_iff] at hnone
    rw [hnone] at hhead
    rw [Option.map_eq_none_iff.1 hhead, Option.map_none]
  · intro t ht halive
    obtain ⟨e, he, rfl⟩ := Option.map_eq_some_iff.1 ht
    obtain ⟨es, hes⟩ := head?_eq_some_iff.1 he
    have hmem : e ∈ c.entries := (mem_filter.1 (mem_of_head? he)).1
    rw [hes, filter_cons_of_pos (hkeep e hmem halive), head?_cons] at hhead
    obtain ⟨e', he', rfl⟩ := Option.map_eq_some_iff.1 hhead
    exact ⟨e'.index, by rw [he', Option.map_some], rfl⟩

namespace Thinned

open Resolve

variable (h : Thinned c c' σ alive)
include h

theorem dart (horder : InOrder c c' σ alive) (directory : String) (i : Import) :
    SteadyLinks σ alive (dart c directory i) (dart c' directory i) := by
  unfold Resolve.dart
  split
  · exact .none
  · split
    · refine .bind _ fun (package, path) => SteadyUnit.linkTo? ((h.lookup? _).orElse ?_) i
      unfold Catalog.withTail withFileName
      rw [filter_filter, filter_filter]
      exact horder.head? fun _ => rfl
    · exact SteadyUnit.linkTo? (.bind _ h.lookup?) i

/-- An import leads where it led, in every language but Dart, where the first of several files is taken. -/
theorem resolve_of_ne_dart (he : e ∈ c'.entries) (halive : alive (σ e.index)) (hlang : e.unit.language ≠ .dart)
    (i : Import) : SteadyLinks σ alive (c.resolve (e.moved σ) i) (c'.resolve e i) := by
  unfold Catalog.resolve
  simp only [moved_index, moved_path, moved_unit]
  cases hcase : e.unit.language with
  | javaScript => exact h.script _ i
  | typeScript => exact h.script _ i
  | html =>
    dsimp only
    split
    · exact h.asset _ i
    · exact h.script _ i
  | css =>
    dsimp only
    split
    · exact h.asset _ i
    · exact h.stylesheet _ i
  | python => exact h.python _ i
  | go => exact h.go he halive i
  | rust => exact h.rustModule _ _ i
  | java => exact h.typeImport he _ _ i
  | kotlin => exact h.typeImport he _ _ i
  | cSharp => exact h.typeImport he _ _ i
  | swift => exact h.swiftModule i
  | php =>
    dsimp only
    split
    · exact h.plainPath _ _ i
    · exact h.phpUse he _ i
  | c => exact h.inclusion _ i
  | cpp => exact h.inclusion _ i
  | ruby => exact h.ruby _ i
  | dart => exact absurd hcase hlang
  | lua => exact h.lua _ i
  | shell => exact h.plainPath _ _ i
  | unknown => exact .none

theorem resolve (horder : InOrder c c' σ alive) (he : e ∈ c'.entries) (halive : alive (σ e.index)) (i : Import) :
    SteadyLinks σ alive (c.resolve (e.moved σ) i) (c'.resolve e i) := by
  by_cases hlang : e.unit.language = .dart
  · unfold Catalog.resolve
    simp only [moved_path, moved_unit, hlang]
    exact h.dart horder _ i
  · exact h.resolve_of_ne_dart he halive hlang i

theorem packageSiblings (he : e ∈ c'.entries) :
    SteadyList σ alive (c.packageSiblings (e.moved σ)) (c'.packageSiblings e) := by
  unfold Catalog.packageSiblings
  refine h.links (fun o ν => (o.index != σ e.index && o.unit.language == .go &&
      o.unit.summary.package == e.unit.summary.package && directoryOf o.path == directoryOf e.path) ∧
        .names (mentionedExports e.unit o.unit) = ν)
    (fun o ν => (o.index != e.index && o.unit.language == .go &&
      o.unit.summary.package == e.unit.summary.package && directoryOf o.path == directoryOf e.path) ∧
        .names (mentionedExports e.unit o.unit) = ν)
    (fun o ho ν => by rw [h.index_bne he ho]; rfl) (fun l => ?_) (fun l => ?_)
  all_goals
    cases l
    simp only [mem_map, mem_filter, Link.mk.injEq]
    exact exists_congr fun e => by tauto

theorem implementations (e : CatalogEntry) :
    SteadyList σ alive (c.implementations (e.moved σ)) (c'.implementations e) := by
  unfold Catalog.implementations
  rw [moved_path]
  split
  · exact .nil
  · split
    · exact .filterMap (fun ext => (h.lookup? _).link _) _
    · exact .nil

theorem implicitLinks (he : e ∈ c'.entries) :
    SteadyList σ alive (c.implicitLinks (e.moved σ)) (c'.implicitLinks e) := by
  have hpackage (space : Space) : SteadyList σ alive (match e.unit.summary.package with
        | some package => Resolve.mentionedInPackage c e.unit (σ e.index) space package
        | none => [])
      (match e.unit.summary.package with
        | some package => Resolve.mentionedInPackage c' e.unit e.index space package
        | none => []) := by
    split
    · exact h.mentionedInPackage he _ _ _
    · exact .nil
  unfold Catalog.implicitLinks
  simp only [moved_index, moved_unit]
  cases e.unit.language with
  | go => exact h.packageSiblings he
  | c => exact h.implementations e
  | cpp => exact h.implementations e
  | java => exact hpackage _
  | kotlin => exact hpackage _
  | php => exact hpackage _
  | cSharp =>
    dsimp only
    split
    · exact .flatMap (fun _ => h.mentionedInPackage he _ _ _) _
    · exact .nil
  | swift => exact h.mentionedLinks he (fun _ _ => rfl) _
  | _ => exact .nil

end Thinned

end Catalog

end Deadwood
