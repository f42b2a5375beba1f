import Deadwood.Proofs.Monotone
import Deadwood.Proofs.Packages
import Deadwood.Proofs.Tasks

/-!
# Files that manifests name

A manifest names a file by its path, or by a path that leaves the extension out and may be that of a directory with an
index file. A file is looked up by its whole path, or by what stands before its last point.

* **`named_by_manifest_iff`**: a file is found if some manifest names it, and some files below a directory with a
  point in its name are found too; `strayed_from_manifest`: such a file;
* **`joinPath_stepwise`**: joining two paths in one step or in two is the same, and nothing joined leads out.
-/

namespace Deadwood

open List Text
open Text (trim)

/-! ## Where a path leads -/

/-- Segments of a path lead from one place to another: an empty segment and `.` stay, `..` leads up as long as the place
is not the top, and a name leads down. -/
inductive Normalizes : (here segments there : List String) → Prop
  | done (here : List String) : Normalizes here [] here
  | stay {here rest there : List String} {s : String} (hs : s = "" ∨ s = ".") (h : Normalizes here rest there) :
      Normalizes here (s :: rest) there
  | up {here rest there above : List String} {name : String} (habove : here = above ++ [name])
      (h : Normalizes above rest there) : Normalizes here (".." :: rest) there
  | down {here rest there : List String} {s : String} (hs : ¬ (s = "" ∨ s = ".")) (hup : s ≠ "..")
      (h : Normalizes (here ++ [s]) rest there) : Normalizes here (s :: rest) there

variable {directory path : String} {m : ManifestEntries} {calls : List (String × String)}

section Normalizes

variable {here there xs ys : List String}

theorem normalizes_cons_iff {s : String} : Normalizes here (s :: xs) there ↔
    if s = "" ∨ s = "." then Normalizes here xs there
    else if s = ".." then ∃ above name, here = above ++ [name] ∧ Normalizes above xs there
    else Normalizes (here ++ [s]) xs there := by
  constructor
  · intro h
    cases h with
    | stay hs h => rwa [if_pos hs]
    | up habove h =>
      rw [if_neg (by decide), if_pos rfl]
      exact ⟨_, _, habove, h⟩
    | down hs hup h => rwa [if_neg hs, if_neg hup]
  · intro h
    split at h
    · rename_i hs
      exact .stay hs h
    · rename_i hs
      split at h
      · rename_i hup
        obtain ⟨above, name, habove, h⟩ := h
        exact hup ▸ .up habove h
      · rename_i hup
        exact .down hs hup h

/-- **Following segments leads where they lead.** -/
theorem followSegments?_eq_some_iff (above xs there : List String) :
    followSegments? above xs = some there.reverse ↔ Normalizes above.reverse xs there := by
  induction xs generalizing above with
  | nil =>
    rw [followSegments?, Option.some_inj, ← reverse_eq_iff]
    constructor
    · rintro rfl
      exact .done _
    · intro h
      cases h
      rfl
  | cons s xs ih =>
    rw [normalizes_cons_iff]
    by_cases hs : s = "" ∨ s = "."
    · rw [if_pos hs, ← ih]
      simp [followSegments?, hs]
    by_cases hup : s = ".."
    · subst hup
      rw [if_neg hs, if_pos rfl]
      cases above with
      | nil => simp [followSegments?]
      | cons name above => simp [followSegments?, ih]
    · rw [if_neg hs, if_neg hup, ← reverse_cons, ← ih]
      rw [not_or] at hs
      simp [followSegments?, hs.1, hs.2, hup]

theorem joinSegments?_eq_some_iff :
    joinSegments? directory path = some there ↔ Normalizes (segmentsOf directory) (splitAt '/' path) there := by
  have h := followSegments?_eq_some_iff (segmentsOf directory).reverse (splitAt '/' path) there
  rw [reverse_reverse] at h
  rw [← h, joinSegments?, Option.map_eq_some_iff]
  constructor
  · rintro ⟨x, hx, rfl⟩
    rw [reverse_reverse]
    exact hx
  · intro h
    exact ⟨_, h, reverse_reverse _⟩

theorem normalizes_append_iff :
    Normalizes here (xs ++ ys) there ↔ ∃ mid, Normalizes here xs mid ∧ Normalizes mid ys there := by
  induction xs generalizing here with
  | nil =>
    constructor
    · intro h
      exact ⟨here, .done here, h⟩
    · rintro ⟨mid, hmid, h⟩
      cases hmid
      exact h
  | cons s xs ih =>
    rw [cons_append, normalizes_cons_iff]
    simp only [normalizes_cons_iff, ih]
    split
    · rfl
    · split
      · constructor
        · rintro ⟨above, name, habove, mid, h⟩
          exact ⟨mid, ⟨above, name, habove, h.1⟩, h.2⟩
        · rintro ⟨mid, ⟨above, name, habove, h⟩, h'⟩
          exact ⟨above, name, habove, mid, h, h'⟩
      · rfl

/-- Directories have proper names where they are walked through. -/
def IsPlain (directory : String) : Prop := ∀ s ∈ splitAt '/' directory, s ≠ "." ∧ s ≠ ".."

/-- **A path from a directory leads where the two lead together**, from the top of the project. -/
theorem normalizes_segmentsOf_iff (h : IsPlain directory) : Normalizes (segmentsOf directory) (splitAt '/' path) there ↔
      Normalizes [] (splitAt '/' (directory ++ "/" ++ path)) there := by
  have hsplit : splitAt '/' (directory ++ "/" ++ path) = splitAt '/' directory ++ splitAt '/' path :=
    splitAt_append '/' directory path
  have hwalk (mid : List String) : Normalizes [] (splitAt '/' directory) mid ↔ segmentsOf directory = mid := by
    have hfollow := followSegments?_eq_some_iff [] (splitAt '/' directory) mid
    rw [followSegments?_of_plain h, append_nil, Option.some_inj, reverse_inj] at hfollow
    exact hfollow.symm
  rw [hsplit, normalizes_append_iff]
  simp only [hwalk, exists_eq_left']

/-- What is left of the segments is of the place before, or a proper name on the way. -/
theorem Normalizes.mem (h : Normalizes here xs there) :
    ∀ s ∈ there, s ∈ here ∨ s ∈ xs ∧ s ≠ "" ∧ s ≠ "." ∧ s ≠ ".." := by
  induction h with
  | done here => exact fun s hs => .inl hs
  | stay _ _ ih => exact fun s hs => (ih s hs).imp_right (And.imp_left (mem_cons_of_mem _))
  | up habove _ ih =>
    subst habove
    exact fun s hs => (ih s hs).imp (mem_append_left _) (And.imp_left (mem_cons_of_mem _))
  | down hidle hup _ ih =>
    rw [not_or] at hidle
    intro s hs
    rcases ih s hs with hmem | hmem
    · rcases mem_append.1 hmem with hmem | hmem
      · exact .inl hmem
      · obtain rfl := mem_singleton.1 hmem
        exact .inr ⟨mem_cons_self, hidle.1, hidle.2, hup⟩
    · exact .inr (hmem.imp_left (mem_cons_of_mem _))

section Joined

variable (h : Normalizes (segmentsOf directory) (splitAt '/' path) there)
include h

theorem nonempty_of_normalizes : ∀ s ∈ there, s ≠ "" ∧ '/' ∉ s.toList := fun s hs =>
  (h.mem s hs).elim nonempty_of_mem_segmentsOf fun hmem =>
    ⟨hmem.2.1, not_mem_of_mem_splitAt hmem.1 (.inl rfl)⟩

/-- What has been joined is cut into its segments again. -/
theorem segmentsOf_normalized : segmentsOf (join "/" there) = there := segmentsOf_join (nonempty_of_normalizes h)

theorem join_ne_empty_iff : join "/" there ≠ "" ↔ there ≠ [] := by
  refine not_congr ⟨fun hempty => ?_, fun hnil => by rw [hnil]; rfl⟩
  rw [← segmentsOf_normalized h, hempty]
  decide

end Joined

theorem joinPath?_eq_some_iff {place : String} : joinPath? directory path = some place ↔
    ∃ segments, Normalizes (segmentsOf directory) (splitAt '/' path) segments ∧ join "/" segments = place := by
  simp only [joinPath?, Option.map_eq_some_iff, joinSegments?_eq_some_iff]

theorem joinPath?_append (directory a b : String) :
    joinPath? directory (a ++ "/" ++ b) = (joinPath? directory a).bind (joinPath? · b) := by
  have hsplit : splitAt '/' (a ++ "/" ++ b) = splitAt '/' a ++ splitAt '/' b := splitAt_append '/' a b
  ext place
  simp only [Option.bind_eq_some_iff, joinPath?_eq_some_iff, hsplit, normalizes_append_iff]
  constructor
  · rintro ⟨segments, ⟨mid, hmid, h⟩, rfl⟩
    exact ⟨_, ⟨mid, hmid, rfl⟩, segments, by rwa [segmentsOf_normalized hmid], rfl⟩
  · rintro ⟨_, ⟨mid, hmid, rfl⟩, segments, h, rfl⟩
    exact ⟨segments, ⟨mid, hmid, by rwa [segmentsOf_normalized hmid] at h⟩, rfl⟩

end Normalizes

/-! ## What is kept of manifests -/

namespace Text

theorem breakAt?_isSome_iff {needle cs : List Char} : (breakAt? needle cs).isSome = true ↔ needle <:+: cs := by
  induction cs with
  | nil => cases needle <;> simp [breakAt?]
  | cons c cs ih =>
    rw [breakAt?, infix_cons_iff]
    cases hhead : afterHead? needle (c :: cs) with
    | some rest => simp [isSome_afterHead?_iff.1 (Option.isSome_of_eq_some hhead)]
    | none => simp [ih, afterHead?_eq_none_iff.1 hhead]

theorem contains_iff {s needle : String} : contains s needle = true ↔ needle.toList <:+: s.toList :=
  breakAt?_isSome_iff

end Text

namespace ManifestEntries

/-- A manifest in a directory names a place by a path: the path, without white space around it, is not empty, holds no
`*` and no `://`, and leads below the top of the project. -/
structure Names (directory path place : String) : Prop where
  ne_empty : trim path ≠ ""
  single : '*' ∉ (trim path).toList
  nearby : ¬ "://".toList <:+: (trim path).toList
  leads : ∃ segments, Normalizes (segmentsOf directory) (splitAt '/' (trim path)) segments ∧
    segments ≠ [] ∧ place = join "/" segments

def IsSource (place : String) : Prop := (Language.ofPath? ⟨place⟩).isSome = true

section Add

variable {place : String}

theorem locate?_eq_some_iff : locate? directory path = some place ↔
    ∃ segments, Normalizes (segmentsOf directory) (splitAt '/' path) segments ∧ segments ≠ [] ∧
      place = join "/" segments := by
  simp only [← joinSegments?_eq_some_iff, locate?]
  split
  · simp_all
  · simp_all
  · rename_i segments hne hjoin
    simp_all [eq_comm]

theorem names_iff : Names directory path place ↔
    ¬ (trim path).isEmpty ∧ ¬ Text.containsChar (trim path) '*' ∧ ¬ Text.contains (trim path) "://" ∧
      locate? directory (trim path) = some place := by
  rw [locate?_eq_some_iff, Text.contains_iff, Text.containsChar, contains_iff_mem, String.isEmpty_iff]
  exact ⟨fun h => ⟨h.ne_empty, h.single, h.nearby, h.leads⟩, fun h => ⟨h.1, h.2.1, h.2.2.1, h.2.2.2⟩⟩

/-- **What is kept of a path**: the place that it names, as a file or as a stem. -/
theorem mem_add (place : String) :
    (place ∈ (m.add directory path).files ↔ place ∈ m.files ∨ Names directory path place ∧ IsSource place) ∧
      (place ∈ (m.add directory path).stems ↔ place ∈ m.stems ∨ Names directory path place ∧ ¬ IsSource place) := by
  simp only [names_iff, add, Bool.or_eq_true]
  split
  · rename_i hskip
    rcases hskip with (hskip | hskip) | hskip <;> simp [hskip]
  · rename_i hskip
    rw [not_or, not_or] at hskip
    cases hplace : locate? directory (trim path) with
    | none => simp
    | some p =>
      have hnamed : (¬ (trim path).isEmpty ∧ ¬ Text.containsChar (trim path) '*' ∧
          ¬ Text.contains (trim path) "://" ∧ some p = some place) ↔ place = p := by
        simp [hskip, eq_comm]
      by_cases hsource : IsSource p
      · have hsource' : (Language.ofPath? ⟨p⟩).isSome = true := hsource
        simp only [hnamed, if_pos hsource', NameSet.mem_insert]
        grind
      · have hsource' : ¬ (Language.ofPath? ⟨p⟩).isSome = true := hsource
        simp only [hnamed, if_neg hsource', NameSet.mem_insert]
        grind

/-- What is kept of the paths that manifests name, given with the directories of the manifests. -/
def addCalls (m : ManifestEntries) (calls : List (String × String)) : ManifestEntries :=
  calls.foldl (fun m call => m.add call.1 call.2) m

theorem mem_addCalls (m : ManifestEntries) (calls : List (String × String)) (place : String) :
    (place ∈ (m.addCalls calls).files ↔
      place ∈ m.files ∨ (∃ call ∈ calls, Names call.1 call.2 place) ∧ IsSource place) ∧
    (place ∈ (m.addCalls calls).stems ↔
      place ∈ m.stems ∨ (∃ call ∈ calls, Names call.1 call.2 place) ∧ ¬ IsSource place) := by
  induction calls generalizing m with
  | nil => simp [addCalls]
  | cons call calls ih =>
    rw [addCalls, foldl_cons, ← addCalls, (ih _).1, (ih _).2, (mem_add place).1, (mem_add place).2]
    simp only [exists_mem_cons_iff]
    grind

theorem addCalls_append (m : ManifestEntries) (calls more : List (String × String)) :
    m.addCalls (calls ++ more) = (m.addCalls calls).addCalls more :=
  foldl_append

theorem addAll_eq_addCalls (m : ManifestEntries) (directory : String) (paths : List String) :
    m.addAll directory paths = m.addCalls (paths.map (directory, ·)) := by
  rw [addAll, addCalls, foldl_map]

theorem exists_addCalls_addModules (m : ManifestEntries) (directory : String) (modules : List String) :
    ∃ calls, modules.foldl (addModule directory) m = m.addCalls calls := by
  induction modules generalizing m with
  | nil => exact ⟨[], rfl⟩
  | cons module modules ih =>
    obtain ⟨first, hfirst⟩ : ∃ first, m.addModule directory module = m.addCalls first := by
      unfold addModule
      cases locate? directory "src" with
      | none =>
        refine ⟨[(directory, module)], ?_⟩
        rw [addCalls, foldl_cons, foldl_nil]
      | some source =>
        refine ⟨[(directory, module), (source, module)], ?_⟩
        rw [addCalls, foldl_cons, foldl_cons, foldl_nil]
    obtain ⟨rest, hrest⟩ := ih (m.addModule directory module)
    exact ⟨first ++ rest, by rw [foldl_cons, hrest, hfirst, addCalls_append]⟩

theorem exists_addCalls_addManifest (m : ManifestEntries) (directory name text : String) :
    ∃ calls, m.addManifest directory name text = m.addCalls calls := by
  unfold addManifest
  split
  · cases Json.read? text with
    | none => exact ⟨[], rfl⟩
    | some manifest => exact ⟨_, addAll_eq_addCalls m directory _⟩
  · cases Toml.read? text with
    | none => exact ⟨[], rfl⟩
    | some manifest => exact ⟨_, addAll_eq_addCalls m directory _⟩
  · cases Toml.read? text with
    | none => exact ⟨[], rfl⟩
    | some manifest => exact exists_addCalls_addModules m directory _
  · exact ⟨[], rfl⟩

/-- **Manifests are loaded path by path.** -/
theorem exists_addCalls_load (root : Path) (manifests : List Path) (t : FileTree) :
    ∃ calls, ((load root manifests).run t).1 = addCalls {} calls := by
  rw [load, FileTask.run_bind]
  refine List.foldlRecOn (motive := fun m => ∃ calls, m = addCalls {} calls) _ _ ⟨[], rfl⟩ ?_
  rintro _ ⟨calls, rfl⟩ ⟨path, text⟩ -
  cases text with
  | error e => exact ⟨calls, rfl⟩
  | ok text =>
    obtain ⟨more, hmore⟩ := exists_addCalls_addManifest (addCalls {} calls) _ path.fileName text
    exact ⟨calls ++ more, by rw [addCalls_append]; exact hmore⟩

end Add

/-! ## Which files are found -/

/-- The paths without an extension that a stem stands for: itself, and the index files of the directory. -/
def standIns (stem : String) : List String := stem :: indexNames.map (stem ++ "/" ++ ·)

/-- The file at the path is named as a file, or as a stem: the stem, or an index file in the directory of that name,
and behind it a point and an extension that satisfies `P`. -/
def Covers (P : String → Prop) (place rel : String) : Prop :=
  IsSource place ∧ rel = place ∨ ¬ IsSource place ∧ ∃ base ∈ standIns place, ∃ ext, P ext ∧ rel = base ++ "." ++ ext

/-- One of the paths names the file, where extensions satisfy `P`. -/
def NamedBy (P : String → Prop) (calls : List (String × String)) (rel : String) : Prop :=
  ∃ call ∈ calls, ∃ place, Names call.1 call.2 place ∧ Covers P place rel

section Contains

variable {rel stem ext : String}

theorem splitLast?_point :
    splitLast? rel "." = some (stem, ext) ↔ rel = stem ++ "." ++ ext ∧ '.' ∉ ext.toList := by
  rw [show "." = String.singleton '.' from rfl]
  exact splitLast?_eq_some

theorem splitLast?_slash {directory name : String} :
    splitLast? stem "/" = some (directory, name) ↔ stem = directory ++ "/" ++ name ∧ '/' ∉ name.toList := by
  rw [show "/" = String.singleton '/' from rfl]
  exact splitLast?_eq_some

theorem exists_standIn_iff (h : splitLast? rel "." = some (stem, ext)) (place : String) :
    (∃ base ∈ standIns place, ∃ ext, '.' ∉ ext.toList ∧ rel = base ++ "." ++ ext) ↔ stem ∈ standIns place := by
  constructor
  · rintro ⟨base, hbase, ext', hext', hrel⟩
    rw [splitLast?_point.2 ⟨hrel, hext'⟩] at h
    cases h
    exact hbase
  · intro hstem
    obtain ⟨hrel, hext⟩ := splitLast?_point.1 h
    exact ⟨stem, hstem, ext, hext, hrel⟩

theorem exists_index_iff : (∃ place ∈ m.stems, stem ∈ indexNames.map (place ++ "/" ++ ·)) ↔
    ∃ directory name, splitLast? stem "/" = some (directory, name) ∧ name ∈ indexNames ∧ directory ∈ m.stems := by
  have hslash : ∀ name ∈ indexNames, '/' ∉ name.toList := by decide
  constructor
  · rintro ⟨place, hplace, hstem⟩
    obtain ⟨name, hname, rfl⟩ := mem_map.1 hstem
    exact ⟨place, name, splitLast?_slash.2 ⟨rfl, hslash name hname⟩, hname, hplace⟩
  · rintro ⟨directory, name, hsplit, hname, hdirectory⟩
    exact ⟨directory, hdirectory, mem_map.2 ⟨name, hname, (splitLast?_slash.1 hsplit).1.symm⟩⟩

/-- **Which files are found**: those that are kept, and those with a stem that is kept. What stands behind the last
point counts as the extension, slashes and all. -/
theorem contains_iff : m.contains rel = true ↔ rel ∈ m.files ∨
    ∃ place ∈ m.stems, ∃ base ∈ standIns place, ∃ ext, '.' ∉ ext.toList ∧ rel = base ++ "." ++ ext := by
  rw [contains, Bool.or_eq_true, NameSet.contains_iff]
  refine or_congr_right ?_
  cases hpoint : splitLast? rel "." with
  | none =>
    rw [show "." = String.singleton '.' from rfl, splitLast?_eq_none] at hpoint
    refine iff_of_false Bool.false_ne_true ?_
    rintro ⟨place, -, base, -, ext, -, rfl⟩
    exact hpoint (by simp)
  | some x =>
    obtain ⟨stem, ext⟩ := x
    simp only [exists_standIn_iff hpoint]
    simp only [standIns, mem_cons, and_or_left, exists_or, exists_index_iff, Bool.or_eq_true, NameSet.contains_iff]
    refine or_congr (by simp) ?_
    cases splitLast? stem "/" with
    | none => simp
    | some y =>
      obtain ⟨directory, name⟩ := y
      simp [NameSet.contains_iff]

theorem contains_addCalls_iff :
    (addCalls {} calls).contains rel = true ↔ NamedBy (fun ext => '.' ∉ ext.toList) calls rel := by
  have hnone (place : String) : place ∉ (∅ : NameSet) := not_mem_nil
  have hfiles (place : String) : place ∈ (addCalls {} calls).files ↔ _ := (mem_addCalls {} calls place).1
  have hstems (place : String) : place ∈ (addCalls {} calls).stems ↔ _ := (mem_addCalls {} calls place).2
  simp only [contains_iff, hfiles, hstems, hnone, false_or, NamedBy, Covers]
  constructor
  · rintro (⟨⟨call, hcall, hnames⟩, hsource⟩ | ⟨place, ⟨⟨call, hcall, hnames⟩, hsource⟩, hbase⟩)
    · exact ⟨call, hcall, rel, hnames, .inl ⟨hsource, rfl⟩⟩
    · exact ⟨call, hcall, place, hnames, .inr ⟨hsource, hbase⟩⟩
  · rintro ⟨call, hcall, place, hnames, ⟨hsource, rfl⟩ | ⟨hsource, hbase⟩⟩
    · exact .inl ⟨⟨call, hcall, hnames⟩, hsource⟩
    · exact .inr ⟨place, ⟨⟨call, hcall, hnames⟩, hsource⟩, hbase⟩

theorem NamedBy.mono {P Q : String → Prop} (h : NamedBy P calls rel)
    (hQ : ∀ base ext, rel = base ++ "." ++ ext → P ext → Q ext) : NamedBy Q calls rel := by
  obtain ⟨call, hcall, place, hnames, hcovers⟩ := h
  refine ⟨call, hcall, place, hnames, hcovers.imp_right (And.imp_right ?_)⟩
  rintro ⟨base, hbase, ext, hext, hrel⟩
  exact ⟨base, hbase, ext, hQ base ext hrel hext, hrel⟩

end Contains

end ManifestEntries

/-! ## Membership -/

open ManifestEntries in
/-- **A file is found if some manifest names it.** Take any paths that manifests name, with the directories of the
manifests. A file is found if and only if one of the paths leads to a place within the project that is the file, or,
if the place has not the name of a source file, is the file without its extension, or the directory that it is an
index file of. What counts as the extension stands behind the last point of the whole path: if that is in the name of
a directory, a file in the directory is found by what stands before the point. -/
theorem named_by_manifest_iff (calls : List (String × String)) (rel : String) :
    (∀ root manifests t, ∃ calls, ((ManifestEntries.load root manifests).run t).1 = ManifestEntries.addCalls {} calls) ∧
    ((addCalls {} calls).contains rel = true ↔ NamedBy (fun ext => '.' ∉ ext.toList) calls rel) ∧
    (NamedBy (fun ext => '.' ∉ ext.toList ∧ '/' ∉ ext.toList) calls rel → (addCalls {} calls).contains rel = true) ∧
    ((∀ stem ext, rel = stem ++ "." ++ ext → '.' ∉ ext.toList → '/' ∉ ext.toList) →
      ((addCalls {} calls).contains rel = true ↔
        NamedBy (fun ext => '.' ∉ ext.toList ∧ '/' ∉ ext.toList) calls rel)) ∧
    ∀ call ∈ calls, IsPlain call.1 → ∀ segments,
      Normalizes (segmentsOf call.1) (Text.splitAt '/' (trim call.2)) segments ↔
        Normalizes [] (Text.splitAt '/' (call.1 ++ "/" ++ trim call.2)) segments := by
  have hclaimed (h : NamedBy (fun ext => '.' ∉ ext.toList ∧ '/' ∉ ext.toList) calls rel) :
      (addCalls {} calls).contains rel = true :=
    contains_addCalls_iff.2 (h.mono fun _ _ _ hext => hext.1)
  refine ⟨exists_addCalls_load, contains_addCalls_iff, hclaimed, fun hslash => ⟨fun h => ?_, hclaimed⟩,
    fun call _ hplain _ => normalizes_segmentsOf_iff hplain⟩
  exact (contains_addCalls_iff.1 h).mono fun base ext hrel hext => ⟨hext, hslash base ext hrel hext⟩

open ManifestEntries in
/-- **A file without an extension is found by the name of its directory.** A manifest names `lib`, and the script `run`
in the directory `lib.d` counts as named. -/
theorem strayed_from_manifest :
    (ManifestEntries.addCalls {} [("", "lib")]).contains "lib.d/run" = true ∧
      ¬ NamedBy (fun ext => '.' ∉ ext.toList ∧ '/' ∉ ext.toList) [("", "lib")] "lib.d/run" := by
  refine ⟨by decide, ?_⟩
  rintro ⟨call, hcall, place, hnames, hcovers⟩
  obtain rfl := List.mem_singleton.1 hcall
  have hplace : place = "lib" := by
    have hlocate : locate? "" (trim "lib") = some place := (names_iff.1 hnames).2.2.2
    have hlib : locate? "" (trim "lib") = some "lib" := by decide
    exact Option.some_inj.1 (hlocate.symm.trans hlib)
  rcases hcovers with ⟨-, hrel⟩ | ⟨-, base, -, ext, hext, hrel⟩
  · rw [hplace] at hrel
    exact absurd hrel (by decide)
  · have hsplit := splitLast?_point.2 ⟨hrel, hext.1⟩
    have hpoint : Text.splitLast? "lib.d/run" "." = some ("lib", "d/run") := by decide
    rw [hpoint] at hsplit
    cases hsplit
    exact hext.2 (by decide)

/-! ## Joined paths -/

/-- **Paths are joined piece by piece.** Where a path leads is told by its segments; a path of two parts leads where the
second part leads from the end of the first, and nowhere if one of the steps leads out of the project. From a directory
without `.` and `..`, what is reached below the top has proper names only. Manifests join paths in the same way, but for
the top itself. -/
theorem joinPath_stepwise : (∀ directory path place, joinPath? directory path = some place ↔
      ∃ segments, Normalizes (segmentsOf directory) (splitAt '/' path) segments ∧ join "/" segments = place) ∧
    (∀ directory a b, joinPath? directory (a ++ "/" ++ b) = (joinPath? directory a).bind (joinPath? · b)) ∧
    (∀ directory path place, IsPlain directory → joinPath? directory path = some place → place ≠ "" →
      ∀ s ∈ splitAt '/' place, IsName s) ∧
    ∀ directory path, ManifestEntries.locate? directory path = (joinPath? directory path).filter (· ≠ "") := by
  refine ⟨fun _ _ _ => joinPath?_eq_some_iff, joinPath?_append, fun directory path place hplain hjoin hne s hs => ?_,
    fun directory path => ?_⟩
  · obtain ⟨segments, h, rfl⟩ := joinPath?_eq_some_iff.1 hjoin
    have hproper := nonempty_of_normalizes h
    rw [show "/" = String.singleton '/' from rfl,
      splitAt_join ((join_ne_empty_iff h).1 hne) fun s hs => (hproper s hs).2] at hs
    obtain ⟨hdot, hdots⟩ := (h.mem s hs).elim (fun hmem => hplain s (mem_of_mem_filter hmem)) (·.2.2)
    exact ⟨(hproper s hs).1, hdot, hdots, (hproper s hs).2⟩
  · ext place
    simp only [ManifestEntries.locate?_eq_some_iff, Option.filter_eq_some_iff, joinPath?_eq_some_iff, decide_eq_true_eq]
    constructor
    · rintro ⟨segments, h, hne, rfl⟩
      exact ⟨⟨segments, h, rfl⟩, (join_ne_empty_iff h).2 hne⟩
    · rintro ⟨⟨segments, h, rfl⟩, hne⟩
      exact ⟨segments, h, (join_ne_empty_iff h).1 hne, rfl⟩

/-- Up and down again through two directories; a third step up leads out. -/
theorem joinPath_stepwise_up : IsPlain "a//b" ∧ joinPath? "a//b" "../c/./d" = some "a/c/d" ∧
    joinPath? "a//b" ("../c" ++ "/" ++ "../../../d") = none ∧ ∀ s ∈ splitAt '/' "a/c/d", IsName s := by
  have hplain : IsPlain "a//b" := by unfold IsPlain; decide
  have hjoin : joinPath? "a//b" "../c/./d" = some "a/c/d" := by decide
  refine ⟨hplain, hjoin, ?_, joinPath_stepwise.2.2.1 _ _ _ hplain hjoin (by decide)⟩
  rw [joinPath_stepwise.2.1]
  decide

end Deadwood
