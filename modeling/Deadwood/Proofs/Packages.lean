import Deadwood.Proofs.FixedPoint

/-!
# Packages above a module

A module of Python is loaded after the packages above it: their initialisers `__init__.py` run first.

* **`initialisers_linked`**: the initialiser of every package above is linked, but for one that a file beside its
  package stands for.
-/

namespace Deadwood

open Text Deadwood.Language

variable {names : List String} {directory path s : String}

/-! ## Names on a path -/

namespace Text

variable {c : Char}

theorem mem_of_mem_splitList {p : Char → Bool} {cs piece : List Char} (h : piece ∈ splitList p cs)
    (hc : c ∈ piece) : c ∈ cs := by
  induction cs generalizing piece with
  | nil =>
    rw [splitList, List.mem_singleton] at h
    exact h ▸ hc
  | cons d cs ih =>
    obtain ⟨first, rest, hsplit⟩ := List.exists_cons_of_ne_nil (splitList_ne_nil p cs)
    rw [hsplit] at ih
    cases hd : p d with
    | true =>
      rw [splitList_cons_of_pos hd, hsplit, List.mem_cons] at h
      rcases h with rfl | h
      · cases hc
      · exact List.mem_cons_of_mem d (ih h hc)
    | false =>
      rw [splitList_cons_of_neg hd hsplit, List.mem_cons] at h
      rcases h with rfl | h
      · rcases List.mem_cons.1 hc with rfl | hc
        · exact List.mem_cons_self
        · exact List.mem_cons_of_mem d (ih List.mem_cons_self hc)
      · exact List.mem_cons_of_mem d (ih (List.mem_cons_of_mem first h) hc)

theorem not_mem_of_mem_splitAt {d : Char} {s piece : String} (h : piece ∈ splitAt c s) (hd : d = c ∨ d ∉ s.toList) :
    d ∉ piece.toList := by
  obtain ⟨chars, hchars, rfl⟩ := List.mem_map.1 h
  rw [String.toList_ofList]
  intro hmem
  rcases hd with rfl | hd
  · simpa using not_mem_of_mem_splitList hchars d hmem
  · exact hd (mem_of_mem_splitList hchars hmem)

theorem join_concat_append (sep : String) (pieces : List String) (a b : String) :
    join sep (pieces ++ [a ++ b]) = join sep (pieces ++ [a]) ++ b := by
  by_cases hnil : pieces = []
  · subst hnil
    rfl
  · rw [join_append hnil (List.cons_ne_nil _ _), join_append hnil (List.cons_ne_nil _ _), join, join]
    simp only [String.append_assoc]

end Text

def segmentsOf (path : String) : List String := (splitAt '/' path).filter (!·.isEmpty)

theorem nonempty_of_mem_segmentsOf (h : s ∈ segmentsOf path) : s ≠ "" ∧ '/' ∉ s.toList := by
  obtain ⟨hpiece, hne⟩ := List.mem_filter.1 h
  exact ⟨by simpa using hne, not_mem_of_mem_splitAt hpiece (.inl rfl)⟩

theorem not_dots_of_point_not_mem (h : '.' ∉ s.toList) : s ≠ "." ∧ s ≠ ".." := by
  constructor
  · rintro rfl
    exact h (by decide)
  · rintro rfl
    exact h (by decide)

theorem segmentsOf_join (h : ∀ s ∈ names, s ≠ "" ∧ '/' ∉ s.toList) : segmentsOf (join "/" names) = names := by
  by_cases hnil : names = []
  · subst hnil
    decide
  · rw [segmentsOf, show "/" = String.singleton '/' from rfl, splitAt_join hnil fun s hs => (h s hs).2]
    exact List.filter_eq_self.2 fun s hs => by simpa using (h s hs).1

theorem followSegments?_of_plain {above pieces : List String} (h : ∀ s ∈ pieces, s ≠ "." ∧ s ≠ "..") :
    followSegments? above pieces = some ((pieces.filter (!·.isEmpty)).reverse ++ above) := by
  induction pieces generalizing above with
  | nil => simp [followSegments?]
  | cons s pieces ih =>
    obtain ⟨hs, hpieces⟩ := List.forall_mem_cons.1 h
    by_cases hempty : s = ""
    · simp [followSegments?, hempty, ih hpieces]
    · simp [followSegments?, hempty, hs.1, hs.2, ih hpieces]

/-- **A path that does not lead up ends below the directory**, under the names of both. -/
theorem joinPath?_of_plain (h : ∀ s ∈ splitAt '/' path, s ≠ "." ∧ s ≠ "..") :
    joinPath? directory path = some (join "/" (segmentsOf directory ++ segmentsOf path)) := by
  rw [joinPath?, joinSegments?, followSegments?_of_plain h]
  simp [segmentsOf]

theorem joinPath?_join (h : ∀ s ∈ names, IsName s) :
    joinPath? directory (join "/" names) = some (join "/" (segmentsOf directory ++ names)) := by
  have hsegments := segmentsOf_join fun s hs => ⟨(h s hs).1, (h s hs).2.2.2⟩
  rw [joinPath?_of_plain, hsegments]
  intro s hs
  by_cases hempty : s = ""
  · subst hempty
    decide
  · have hmem : s ∈ segmentsOf (join "/" names) := List.mem_filter.2 ⟨hs, by simpa using hempty⟩
    rw [hsegments] at hmem
    exact ⟨(h s hmem).2.1, (h s hmem).2.2.1⟩

theorem hasPathTail_join (names : List String) (name : String) :
    hasPathTail (join "/" (names ++ [name])) name = true := by
  by_cases hnil : names = []
  · subst hnil
    simp [hasPathTail, join]
  · rw [join_append hnil (List.cons_ne_nil _ _), hasPathTail, Bool.or_eq_true]
    refine .inr (endsWith_iff.2 ⟨join "/" names, ?_⟩)
    rw [join, String.append_assoc]

/-! ## Imports and what they load -/

namespace Resolve

variable {c : Catalog} {directory base : String} {i : Import} {t : Nat} {names : List String} {k : Nat}

def leadingPoints (target : String) : Nat := (target.toList.takeWhile (· == '.')).length

def modulePath (target : String) : String :=
  replace (String.ofList (target.toList.drop (leadingPoints target))) "." "/"

def moduleBases (directory target : String) : List String :=
  if leadingPoints target > 0 then (climb? (leadingPoints target - 1) directory).toList
  else ["", "src"] ++ ancestors (directory.length + 1) directory

/-- The import has these links, from the first base directory from which it has any. -/
def ResolvesUnder (c : Catalog) (directory : String) (i : Import) (base : String) (links : List Link) : Prop :=
  (∃ before after, moduleBases directory i.target = before ++ base :: after ∧
    ∀ b ∈ before, pythonLinks c (modulePath i.target) b i = []) ∧
  pythonLinks c (modulePath i.target) base i = links ∧ links ≠ []

/-- **What an import links to is found from one base directory.** -/
theorem python_eq_some_iff {links : List Link} :
    python c directory i = some links ↔ ∃ base, ResolvesUnder c directory i base links := by
  have hstep (b : String) : (if (pythonLinks c (modulePath i.target) b i).isEmpty then none
        else some (pythonLinks c (modulePath i.target) b i)) = some links ↔
      pythonLinks c (modulePath i.target) b i = links ∧ links ≠ [] := by
    cases pythonLinks c (modulePath i.target) b i with
    | nil => simp +contextual [eq_comm]
    | cons l rest => simp +contextual [eq_comm]
  have hpython : python c directory i = (moduleBases directory i.target).findSome? fun b =>
      if (pythonLinks c (modulePath i.target) b i).isEmpty then none
      else some (pythonLinks c (modulePath i.target) b i) := rfl
  rw [hpython, List.findSome?_eq_some_iff]
  constructor
  · rintro ⟨before, base, after, hbases, hbase, hbefore⟩
    refine ⟨base, ⟨before, after, hbases, fun b hb => ?_⟩, (hstep base).1 hbase⟩
    simpa using hbefore b hb
  · rintro ⟨base, ⟨before, after, hbases, hbefore⟩, hlinks⟩
    exact ⟨before, base, after, hbases, (hstep base).2 hlinks, fun b hb => by simp [hbefore b hb]⟩

def pathUnder (base : String) (names : List String) : String := join "/" (segmentsOf base ++ names)

def moduleUnit? (c : Catalog) (base target : String) : Option Nat :=
  let path := pathUnder base (segmentsOf (modulePath target))
  if (modulePath target).isEmpty then
    c.probe? (trimStartWhere (· == '/') (path ++ "/__init__")) (implicitExtensions .python) none
  else c.probe? path (implicitExtensions .python) (some "__init__")

def submodule? (c : Catalog) (base target name : String) : Option Nat :=
  (joinPath? (pathUnder base (segmentsOf (modulePath target))) name).bind fun path =>
    c.probe? path (implicitExtensions .python) (some "__init__")

/-- The modules that an import loads from a base directory, by their names below it: the module itself if it is a unit,
and each imported name that is a submodule. -/
inductive Loads (c : Catalog) (base : String) (i : Import) : List String → Prop where
  | module (h : (moduleUnit? c base i.target).isSome) : Loads c base i (segmentsOf (modulePath i.target))
  | submodule {set : NameSet} {name : String} (hset : i.names = .names set) (hname : name ∈ set)
      (h : (submodule? c base i.target name).isSome) : Loads c base i (segmentsOf (modulePath i.target) ++ [name])

def initialiser (base : String) (names : List String) : String := pathUnder base (names ++ ["__init__.py"])

/-- The unit beside the directory of a package that has its name, with or without an extension. -/
def besidePackage? (c : Catalog) (base : String) (names : List String) : Option Nat :=
  c.probe? (pathUnder base names) (implicitExtensions .python) none

/-! ## The parts of the links -/

theorem point_not_mem_modulePath (target : String) : '.' ∉ (modulePath target).toList := by
  rw [modulePath, show "." = String.singleton '.' from rfl, show "/" = String.singleton '/' from rfl, toList_replace]
  intro hmem
  obtain ⟨c, -, hc⟩ := List.mem_map.1 hmem
  split at hc
  · cases hc
  · rename_i hne
    exact hne hc

theorem isName_of_mem_modulePath {target s : String} (h : s ∈ segmentsOf (modulePath target)) : IsName s := by
  obtain ⟨hne, hslash⟩ := nonempty_of_mem_segmentsOf h
  have hpoint := not_mem_of_mem_splitAt (List.mem_of_mem_filter h) (.inr (point_not_mem_modulePath target))
  obtain ⟨hdot, hdots⟩ := not_dots_of_point_not_mem hpoint
  exact ⟨hne, hdot, hdots, hslash⟩

theorem joinPath?_modulePath (base target : String) :
    joinPath? base (modulePath target) = some (pathUnder base (segmentsOf (modulePath target))) := by
  apply joinPath?_of_plain
  intro s hs
  exact not_dots_of_point_not_mem (not_mem_of_mem_splitAt hs (.inr (point_not_mem_modulePath target)))

theorem segmentsOf_pathUnder (h : ∀ s ∈ names, IsName s) :
    segmentsOf (pathUnder base names) = segmentsOf base ++ names := by
  apply segmentsOf_join
  intro s hs
  rcases List.mem_append.1 hs with hs | hs
  · exact nonempty_of_mem_segmentsOf hs
  · exact ⟨(h s hs).1, (h s hs).2.2.2⟩

def moduleLinks (c : Catalog) (base : String) (i : Import) : List Link :=
  ((moduleUnit? c base i.target).map fun t => (⟨t, i.names⟩ : Link)).toList ++
    match i.names with
    | .everything => []
    | .names set => set.toList.filterMap fun name =>
        (submodule? c base i.target name).map fun t => (⟨t, .everything⟩ : Link)

def packageLinks (c : Catalog) (base target : String) : List Link :=
  let names := segmentsOf (modulePath target)
  (List.range names.length).filterMap fun depth =>
    if depth = 0 then none
    else
      ((joinPath? base (join "/" (names.take depth) ++ "/__init__")).bind fun p =>
        c.probe? p (implicitExtensions .python) none).map fun t => (⟨t, .none⟩ : Link)

theorem pythonLinks_eq (c : Catalog) (base : String) (i : Import) : pythonLinks c (modulePath i.target) base i =
    if (moduleLinks c base i).isEmpty then [] else moduleLinks c base i ++ packageLinks c base i.target := by
  unfold pythonLinks
  rw [joinPath?_modulePath]
  rfl

theorem mem_pythonLinks (h : pythonLinks c (modulePath i.target) base i ≠ []) {l : Link} :
    l ∈ pythonLinks c (modulePath i.target) base i ↔ l ∈ moduleLinks c base i ∨ l ∈ packageLinks c base i.target := by
  rw [pythonLinks_eq] at h ⊢
  split at h
  · exact absurd rfl h
  · rename_i hfound
    rw [if_neg hfound, List.mem_append]

/-! ## Initialisers -/

/-- No unit is a file `__init__` without an extension. -/
def NoBareInitialiser (c : Catalog) : Prop := ∀ f ∈ c.entries, hasPathTail f.path "__init__" = false

theorem lookup?_bare (hinit : NoBareInitialiser c) (names : List String) :
    c.lookup? (join "/" (names ++ ["__init__"])) = none := by
  unfold Catalog.lookup?
  split
  · rfl
  · have hnone : c.entries.filter (·.path == join "/" (names ++ ["__init__"])) = [] := by
      rw [List.filter_eq_nil_iff]
      intro f hf hpath
      have htail := hinit f hf
      rw [beq_iff_eq.1 hpath, hasPathTail_join] at htail
      cases htail
    rw [hnone]
    rfl

theorem initialiser_eq (base : String) (names : List String) :
    initialiser base names = join "/" (segmentsOf base ++ names ++ ["__init__"]) ++ "." ++ "py" := by
  rw [initialiser, pathUnder, ← List.append_assoc, String.append_assoc,
    show "__init__.py" = "__init__" ++ ("." ++ "py") from rfl, join_concat_append]

theorem probe?_bare (hinit : NoBareInitialiser c) (h : c.lookup? (initialiser base names) = some t) :
    c.probe? (join "/" (segmentsOf base ++ names ++ ["__init__"])) (implicitExtensions .python) none =
      some t := by
  rw [initialiser_eq] at h
  rw [Catalog.probe?, lookup?_bare hinit, show implicitExtensions .python = "py" :: ["pyi"] from rfl,
    List.findSome?_cons, h]
  rfl

/-- **The initialisers of the packages above the module are linked.** -/
theorem exists_packageLink (hinit : NoBareInitialiser c) (hpos : 1 ≤ k)
    (hlt : k < (segmentsOf (modulePath i.target)).length)
    (h : c.lookup? (initialiser base ((segmentsOf (modulePath i.target)).take k)) = some t) :
    ∃ l ∈ packageLinks c base i.target, l.target = t := by
  obtain ⟨names, hnames⟩ : ∃ names, names = segmentsOf (modulePath i.target) := ⟨_, rfl⟩
  have hne : names.take k ≠ [] := by
    rw [← List.length_pos_iff, List.length_take, hnames]
    omega
  have hpath : join "/" (names.take k) ++ "/__init__" = join "/" (names.take k ++ ["__init__"]) := by
    rw [join_append hne (List.cons_ne_nil _ _), String.append_assoc]
    rfl
  have hall : ∀ s ∈ names.take k ++ ["__init__"], IsName s := by
    intro s hs
    rcases List.mem_append.1 hs with hs | hs
    · exact isName_of_mem_modulePath (hnames ▸ List.mem_of_mem_take hs)
    · rw [List.mem_singleton.1 hs]
      exact ⟨by decide, by decide, by decide, by decide⟩
  refine ⟨⟨t, .none⟩, List.mem_filterMap.2 ⟨k, List.mem_range.2 hlt, ?_⟩, rfl⟩
  rw [if_neg (by omega), ← hnames, hpath, joinPath?_join hall, Option.bind_some, ← List.append_assoc,
    probe?_bare hinit (hnames ▸ h), Option.map_some]

section

variable (hne : segmentsOf (modulePath i.target) ≠ [])
  (h : c.lookup? (initialiser base (segmentsOf (modulePath i.target))) = some t)
include hne h

theorem moduleUnit?_eq :
    moduleUnit? c base i.target = some ((besidePackage? c base (segmentsOf (modulePath i.target))).getD t) := by
  have hmodule : (modulePath i.target).isEmpty = false := by
    rw [Bool.eq_false_iff]
    intro hempty
    apply hne
    rw [String.isEmpty_iff.1 hempty]
    decide
  have hbase : segmentsOf (pathUnder base (segmentsOf (modulePath i.target))) =
      segmentsOf base ++ segmentsOf (modulePath i.target) :=
    segmentsOf_pathUnder fun s hs => isName_of_mem_modulePath hs
  have hindex : joinPath? (pathUnder base (segmentsOf (modulePath i.target))) ("__init__" ++ "." ++ "py") =
      some (initialiser base (segmentsOf (modulePath i.target))) := by
    rw [joinPath?_of_plain (by decide), hbase, initialiser, pathUnder, ← List.append_assoc]
    rfl
  rw [moduleUnit?, hmodule]
  simp only [Bool.false_eq_true, if_false, besidePackage?, Catalog.probe?]
  cases c.lookup? (pathUnder base (segmentsOf (modulePath i.target))) with
  | some t' => simp
  | none =>
    cases hext : (implicitExtensions .python).findSome? fun ext =>
        c.lookup? (pathUnder base (segmentsOf (modulePath i.target)) ++ "." ++ ext) with
    | some t' => simp
    | none =>
      rw [show implicitExtensions .python = "py" :: ["pyi"] from rfl, List.findSome?_cons, hindex, Option.bind_some, h]
      simp

theorem exists_moduleLink : ∃ l ∈ moduleLinks c base i, l.target = t ∨
      besidePackage? c base (segmentsOf (modulePath i.target)) = some l.target := by
  have hunit := moduleUnit?_eq hne h
  cases hbeside : besidePackage? c base (segmentsOf (modulePath i.target)) with
  | none => exact ⟨⟨t, i.names⟩, List.mem_append_left _ (by simp [hunit, hbeside]), .inl rfl⟩
  | some t' => exact ⟨⟨t', i.names⟩, List.mem_append_left _ (by simp [hunit, hbeside]), .inr rfl⟩

end

theorem exists_link_of_loads (hinit : NoBareInitialiser c) (hfound : pythonLinks c (modulePath i.target) base i ≠ [])
    {p : List String} (hp : Loads c base i p) (hpos : 1 ≤ k) (hlt : k < p.length)
    (h : c.lookup? (initialiser base (p.take k)) = some t) :
    ∃ l ∈ pythonLinks c (modulePath i.target) base i, l.target = t ∨
      (k + 1 = p.length ∧ besidePackage? c base (p.take k) = some l.target) := by
  have habove (hlt : k < (segmentsOf (modulePath i.target)).length)
      (h : c.lookup? (initialiser base ((segmentsOf (modulePath i.target)).take k)) = some t) :
      ∃ l ∈ pythonLinks c (modulePath i.target) base i, l.target = t := by
    obtain ⟨l, hl, ht⟩ := exists_packageLink hinit hpos hlt h
    exact ⟨l, (mem_pythonLinks hfound).2 (.inr hl), ht⟩
  cases hp with
  | module =>
    obtain ⟨l, hl, ht⟩ := habove hlt h
    exact ⟨l, hl, .inl ht⟩
  | submodule =>
    rw [List.length_append, List.length_singleton] at hlt ⊢
    rw [List.take_append_of_le_length (by omega)] at h ⊢
    by_cases hinner : k < (segmentsOf (modulePath i.target)).length
    · obtain ⟨l, hl, ht⟩ := habove hinner h
      exact ⟨l, hl, .inl ht⟩
    · -- the package right above the submodule is the module itself
      rw [List.take_of_length_le (by omega)] at h ⊢
      have hne : segmentsOf (modulePath i.target) ≠ [] := by
        rw [← List.length_pos_iff]
        omega
      obtain ⟨l, hl, hcase⟩ := exists_moduleLink hne h
      exact ⟨l, (mem_pythonLinks hfound).2 (.inl hl), hcase.imp_right fun hbeside => ⟨by omega, hbeside⟩⟩

end Resolve

/-- **The initialisers of the packages above a loaded module are linked.** The exception is the package right above a
submodule, where a file beside the package has its name: then this file is linked, and the initialiser may not be. -/
theorem initialisers_linked {units : List SourceUnit} (hinit : ∀ u ∈ units, hasPathTail u.relText "__init__" = false)
    {e : CatalogEntry} (hlanguage : e.unit.language = .python) {i : Import} {base : String} {links : List Link}
    (h : Resolve.ResolvesUnder (Catalog.ofUnits units) (directoryOf e.path) i base links) :
    (Catalog.ofUnits units).resolve e i = some links ∧
      ∀ p, Resolve.Loads (Catalog.ofUnits units) base i p → ∀ k, 1 ≤ k → k < p.length →
        ∀ t, (Catalog.ofUnits units).lookup? (Resolve.initialiser base (p.take k)) = some t →
          ∃ l ∈ links, l.target = t ∨
            (k + 1 = p.length ∧ Resolve.besidePackage? (Catalog.ofUnits units) base (p.take k) = some l.target) := by
  have hbare : Resolve.NoBareInitialiser (Catalog.ofUnits units) := by
    intro f hf
    obtain ⟨hunit, hpath⟩ := mem_ofUnits.1 hf
    rw [hpath]
    exact hinit f.unit (List.mem_of_getElem? hunit)
  have hpython := Resolve.python_eq_some_iff.2 ⟨base, h⟩
  obtain ⟨-, rfl, hfound⟩ := h
  refine ⟨by rw [Catalog.resolve, hlanguage]; exact hpython, ?_⟩
  intro p hp k hpos hlt t ht
  exact Resolve.exists_link_of_loads hbare hfound hp hpos hlt ht

def pythonFile (path : String) (imports : List Import) : SourceUnit where
  path := ⟨path⟩
  relative := ⟨path⟩
  language := .python
  summary := { imports }

/-- A submodule two packages down. -/
theorem initialisers_linked_nested :
    let strings : Import := ⟨"app.util", .single "strings", 1, .module⟩
    let units := [pythonFile "main.py" [strings], pythonFile "app/__init__.py" [], pythonFile "app/util/__init__.py" [],
      pythonFile "app/util/strings.py" []]
    let links : List Link := [⟨2, .single "strings"⟩, ⟨3, .everything⟩, ⟨1, .none⟩]
    (∀ u ∈ units, hasPathTail u.relText "__init__" = false) ∧
      Resolve.ResolvesUnder (Catalog.ofUnits units) (directoryOf "main.py") strings "" links ∧
      Resolve.Loads (Catalog.ofUnits units) "" strings ["app", "util", "strings"] ∧
      (∃ l ∈ links, l.target = 1 ∨ (1 + 1 = 3 ∧
        Resolve.besidePackage? (Catalog.ofUnits units) "" ["app"] = some l.target)) ∧
      ∃ l ∈ links, l.target = 2 ∨ (2 + 1 = 3 ∧
        Resolve.besidePackage? (Catalog.ofUnits units) "" ["app", "util"] = some l.target) := by
  intro strings units links
  have hinit : ∀ u ∈ units, hasPathTail u.relText "__init__" = false := by decide +kernel
  have hresolves : Resolve.ResolvesUnder (Catalog.ofUnits units) (directoryOf "main.py") strings "" links :=
    ⟨⟨[], ["src"], by decide +kernel, nofun⟩, by decide +kernel, List.cons_ne_nil _ _⟩
  have hnames : segmentsOf (Resolve.modulePath strings.target) = ["app", "util"] := by decide +kernel
  have hloads : Resolve.Loads (Catalog.ofUnits units) "" strings ["app", "util", "strings"] := by
    have hsubmodule : (Resolve.submodule? (Catalog.ofUnits units) "" "app.util" "strings").isSome := by decide +kernel
    have h : Resolve.Loads _ "" strings (segmentsOf (Resolve.modulePath strings.target) ++ ["strings"]) :=
      .submodule rfl (by decide) hsubmodule
    rwa [hnames] at h
  let main : CatalogEntry := ⟨0, "main.py", pythonFile "main.py" [strings]⟩
  have hlinked := (initialisers_linked hinit (e := main) rfl hresolves).2 _ hloads
  exact ⟨hinit, hresolves, hloads, hlinked 1 (by decide) (by decide) 1 (by decide +kernel),
    hlinked 2 (by decide) (by decide) 2 (by decide +kernel)⟩

/-- The file `pkg.py` stands beside the package `pkg`. An import of a submodule is linked to it, and not to the
initialiser of the package, which is above the submodule. -/
theorem initialiser_not_linked :
    let sub : Import := ⟨"pkg", .single "sub", 1, .module⟩
    let units := [pythonFile "main.py" [sub], pythonFile "pkg.py" [], pythonFile "pkg/__init__.py" [],
      pythonFile "pkg/sub.py" []]
    (∀ u ∈ units, hasPathTail u.relText "__init__" = false) ∧
      Resolve.Loads (Catalog.ofUnits units) "" sub ["pkg", "sub"] ∧
      (Catalog.ofUnits units).lookup? (Resolve.initialiser "" ["pkg"]) = some 2 ∧
      (Catalog.ofUnits units).resolve ⟨0, "main.py", pythonFile "main.py" [sub]⟩ sub =
        some [⟨1, .single "sub"⟩, ⟨3, .everything⟩] := by
  intro sub units
  have hnames : segmentsOf (Resolve.modulePath sub.target) = ["pkg"] := by decide +kernel
  have hsubmodule : (Resolve.submodule? (Catalog.ofUnits units) "" "pkg" "sub").isSome := by decide +kernel
  have hloads : Resolve.Loads _ "" sub (segmentsOf (Resolve.modulePath sub.target) ++ ["sub"]) :=
    .submodule rfl (by decide) hsubmodule
  rw [hnames] at hloads
  exact ⟨by decide +kernel, hloads, by decide +kernel, by decide +kernel⟩

end Deadwood
