import Deadwood.Proofs.Edges
import Deadwood.Proofs.Holding

/-!
# Where a scan finds the units of a project

* `FileTask.Reading`: tasks that leave the tree as it is, and `FileTask.answer`, what they find out;
* `Located`: paths are those of different files of a project, outside of its store;
* **`located_scan`**: the units that a scan finds are such files.
-/

namespace Deadwood

open List Deadwood.Path FileTree SourceUnit

/-! ## Tasks that read -/

namespace FileTask

variable {α β : Type} {task : FileTask α} {f : α → FileTask β} {t : FileTree}

/-- The task leaves every tree as it is. -/
def Reading (task : FileTask α) : Prop := ∀ t, (task.run t).2 = t

def answer (t : FileTree) (task : FileTask α) : α := (task.run t).1

theorem reading_pure (a : α) : (pure a : FileTask α).Reading := fun _ => rfl

theorem answer_pure (a : α) : answer t (pure a) = a := rfl

theorem Reading.bind (h : task.Reading) (hf : ∀ a, (f a).Reading) : (task >>= f).Reading := fun t => by
  rw [run_bind, hf, h]

theorem Reading.answer_bind (h : task.Reading) : answer t (task >>= f) = answer t (f (answer t task)) := by
  rw [answer, run_bind, h]
  rfl

theorem reading_mapM {g : α → FileTask β} {xs : List α} (h : ∀ x, (g x).Reading) : (xs.mapM g).Reading := by
  induction xs with
  | nil => exact reading_pure _
  | cons x xs ih =>
    rw [mapM_cons]
    exact (h x).bind fun _ => ih.bind fun _ => reading_pure _

theorem answer_mapM {g : α → FileTask β} {xs : List α} (h : ∀ x, (g x).Reading) :
    answer t (xs.mapM g) = xs.map fun x => answer t (g x) := by
  induction xs with
  | nil => rfl
  | cons x xs ih =>
    rw [mapM_cons, (h x).answer_bind, (reading_mapM h).answer_bind, ih]
    rfl

variable (p : Path)

theorem reading_status : (status p).Reading := fun _ => rfl

theorem reading_read : (read p).Reading := fun _ => rfl

theorem reading_list : (list p).Reading := fun _ => rfl

theorem reading_resolve : (resolve p).Reading := fun _ => rfl

theorem answer_status : answer t (status p) = (t.find p).map fun x => ⟨x.2.isDirectory, x.2.size⟩ := rfl

theorem answer_list : answer t (list p) = t.list p := rfl

theorem answer_resolve : answer t (resolve p) = t.resolve p := rfl

theorem reading_isDirectory : (isDirectory p).Reading :=
  (reading_status p).bind fun result => by cases result <;> exact reading_pure _

theorem reading_readText : (readText p).Reading :=
  (reading_read p).bind fun result => by cases result <;> exact reading_pure _

end FileTask

open FileTask

/-! ## Paths of addresses -/

section PathOf

variable {a r : Address} {m : List String} {name : String}

theorem endsWith_slash_pathOf (hname : IsName name) : Text.endsWith (pathOf (a ++ [name])).text "/" = false := by
  have hlist : ∃ before, (pathOf (a ++ [name])).text.toList = before ++ name.toList := by
    by_cases ha : a = []
    · exact ⟨['/'], by simp [pathOf, ha, Text.join]⟩
    · refine ⟨'/' :: ((Text.join "/" a).toList ++ ['/']), ?_⟩
      rw [pathOf, Text.join_append ha (by simp)]
      simp [Text.join]
  obtain ⟨before, hbefore⟩ := hlist
  refine Bool.eq_false_iff.2 fun hends => hname.2.2.2 ?_
  obtain ⟨s, hs⟩ := Text.endsWith_iff.1 hends
  have hlast := congrArg List.getLast? (hbefore.symm.trans (congrArg String.toList hs))
  rw [String.toList_append, getLast?_append_of_ne_nil _ (mt String.toList_eq_nil_iff.1 hname.1)] at hlast
  exact mem_of_getLast? (hlast.trans (by simp))

theorem pathOf_join (hname : IsName name) (ha : ∀ name ∈ a, IsName name) :
    (pathOf a).join ⟨name⟩ = pathOf (a ++ [name]) := by
  rw [join, (isRelative_of_isName hname).relative]
  rcases eq_nil_or_concat a with rfl | ⟨b, last, rfl⟩
  · rfl
  · rw [concat_eq_append] at ha ⊢
    have hlast : IsName last := ha last (by simp)
    have hempty : (pathOf (b ++ [last])).text.isEmpty = false := by
      rw [String.isEmpty_eq_false_iff]
      exact (leadsTo_pathOf ha).text_ne
    rw [hempty, endsWith_slash_pathOf hlast]
    simp only [Bool.false_eq_true, Bool.or_self, if_false, pathOf]
    rw [Text.join_append (show b ++ [last] ≠ [] by simp) (by simp), String.append_assoc, String.append_assoc,
      String.append_assoc]
    rfl

theorem trimPieces_eq (hm : ∀ name ∈ m, IsName name) : trimPieces m = m := by
  have hidle : ∀ name ∈ m, (component? name).isNone = false := fun name hname => by
    have h := hm name hname
    rw [component?_eq_some_normal.2 ⟨rfl, h.1, h.2.1, h.2.2.1⟩]
    rfl
  have hdrop {l : List String} (hl : ∀ name ∈ l, (component? name).isNone = false) :
      l.dropWhile (fun piece => (component? piece).isNone) = l := by
    cases l with
    | nil => rfl
    | cons name l => rw [dropWhile_cons, hl name mem_cons_self]; rfl
  rw [trimPieces, hdrop hidle, hdrop fun name hname => hidle name (mem_reverse.1 hname), reverse_reverse]

theorem dropPieces_append (hr : ∀ name ∈ r, IsName name) (m : List String) : dropPieces r.length (r ++ m) = m := by
  induction r with
  | nil => exact dropPieces.eq_1 m
  | cons name r ih =>
    have h := hr name mem_cons_self
    rw [length_cons, cons_append, dropPieces, component?_eq_some_normal.2 ⟨rfl, h.1, h.2.1, h.2.2.1⟩]
    exact ih (forall_mem_cons.1 hr).2

theorem splitAt_pathOf (h : ∀ name ∈ a, IsName name) (ha : a ≠ []) : Text.splitAt '/' (pathOf a).text = "" :: a := by
  have htext : (pathOf a).text = "" ++ String.singleton '/' ++ Text.join "/" a := by
    rw [pathOf, String.empty_append]
    rfl
  rw [htext, Text.splitAt_append]
  exact congrArg ("" :: ·) (Text.splitAt_join ha fun name hname => (h name hname).2.2.2)

theorem below?_pathOf (hr : ∀ name ∈ r, IsName name) (hm : ∀ name ∈ m, IsName name) :
    (pathOf (r ++ m)).below? (pathOf r) = some ⟨Text.join "/" m⟩ := by
  have hall : ∀ name ∈ r ++ m, IsName name := fun name hname =>
    (mem_append.1 hname).elim (hr name) (hm name)
  have hlead := leadsTo_pathOf hr
  have hbelow : (pathOf (r ++ m)).startsWith (pathOf r) = true :=
    ((leadsTo_pathOf hall).startsWith_iff hlead).2 (prefix_append r m)
  have hlen : ((Text.splitAt '/' (pathOf r).text).filterMap component?).length = r.length := by
    rw [show (Text.splitAt '/' (pathOf r).text).filterMap component? = (pathOf r).named from rfl, hlead.named,
      length_map]
  rw [below?, hbelow]
  simp only [if_true, hlen]
  congr 2
  by_cases hnil : r ++ m = []
  · obtain ⟨rfl, rfl⟩ := append_eq_nil_iff.1 hnil
    rfl
  · rw [splitAt_pathOf hall hnil]
    cases r with
    | nil =>
      rw [length_nil, dropPieces.eq_1]
      exact congrArg (Text.join "/") (trimPieces_eq hm)
    | cons name r =>
      refine congrArg (Text.join "/") ?_
      exact (congrArg trimPieces (dropPieces_append hr m)).trans (trimPieces_eq hm)

end PathOf

/-! ## Walking -/

theorem reading_loadRules (directory : Path) : (IgnoreRules.load directory).Reading := by
  have hfile (name : String) : (IgnoreRules.loadFile directory name).Reading :=
    (reading_read _).bind fun result => by cases result <;> exact reading_pure _
  exact (hfile _).bind fun _ => (hfile _).bind fun _ => (hfile _).bind fun _ => reading_pure _

/-- What is looked at below a directory. -/
def lookAt (exclusion : Selection) (fuel : Nat) (around : List IgnoreRules) (path : Path) : FileTask (List Path) := do
  match ← FileTask.status path with
  | .error _ => return []
  | .ok status =>
    let verdict := (exclusion.judge path.text status.isDirectory).orElse
      (IgnoreRules.judge around path.text status.isDirectory)
    if verdict = .ignored then return []
    else if status.isDirectory then filesBelow exclusion fuel around path
    else return [path]

theorem filesBelow_succ (exclusion : Selection) (fuel : Nat) (around : List IgnoreRules) (directory : Path) :
    filesBelow exclusion (fuel + 1) around directory = do
      match ← FileTask.list directory with
      | .error _ => return []
      | .ok names =>
        let around := (← IgnoreRules.load directory) :: around
        let found ← (names.filter (!skippedNames.contains ·)).mapM fun name =>
          lookAt exclusion fuel around (directory.join ⟨name⟩)
        return found.flatten := rfl

theorem reading_lookAt {exclusion : Selection} {fuel : Nat} {around : List IgnoreRules} {path : Path}
    (h : (filesBelow exclusion fuel around path).Reading) : (lookAt exclusion fuel around path).Reading := by
  refine (reading_status path).bind fun result => ?_
  cases result with
  | error e => exact reading_pure _
  | ok status =>
    dsimp only
    split
    · exact reading_pure _
    · split
      · exact h
      · exact reading_pure _

theorem reading_filesBelow (exclusion : Selection) (fuel : Nat) (around : List IgnoreRules) (directory : Path) :
    (filesBelow exclusion fuel around directory).Reading := by
  induction fuel generalizing around directory with
  | zero => exact reading_pure _
  | succ fuel ih =>
    rw [filesBelow_succ]
    refine (reading_list directory).bind fun result => ?_
    cases result with
    | error e => exact reading_pure _
    | ok names =>
      exact (reading_loadRules directory).bind fun _ =>
        (reading_mapM fun _ => reading_lookAt (ih _ _)).bind fun _ => reading_pure _

theorem exists_flatten {β : Type} {F : List String → β} {P : List String → Prop} {g : String → List β}
    {names : List String} (hnodup : names.Nodup)
    (h : ∀ name ∈ names, ∃ ms : List (List String), g name = ms.map (fun m => F (name :: m)) ∧ ms.Nodup ∧
      ∀ m ∈ ms, P (name :: m)) :
    ∃ ms : List (List String), (names.map g).flatten = ms.map F ∧ ms.Nodup ∧
      ∀ m ∈ ms, P m ∧ ∃ name ∈ names, m.head? = some name := by
  induction names with
  | nil => exact ⟨[], rfl, .nil, by simp⟩
  | cons name names ih =>
    obtain ⟨hnot, hnodup⟩ := nodup_cons.1 hnodup
    obtain ⟨first, hfirst, hfirstNodup, hfirstP⟩ := h name mem_cons_self
    obtain ⟨rest, hrest, hrestNodup, hrestP⟩ := ih hnodup (forall_mem_cons.1 h).2
    refine ⟨first.map (name :: ·) ++ rest, ?_, ?_, ?_⟩
    · rw [map_cons, flatten_cons, hfirst, hrest, map_append, map_map]
      rfl
    · refine nodup_append.2 ⟨hfirstNodup.map fun _ _ heq => (List.cons.inj heq).2, hrestNodup, ?_⟩
      rintro _ hm m hm' rfl
      obtain ⟨m, -, rfl⟩ := mem_map.1 hm
      obtain ⟨-, other, hother, hhead⟩ := hrestP _ hm'
      cases hhead
      exact hnot hother
    · intro m hm
      rcases mem_append.1 hm with hm | hm
      · obtain ⟨m, hmem, rfl⟩ := mem_map.1 hm
        exact ⟨hfirstP m hmem, name, mem_cons_self, rfl⟩
      · obtain ⟨hP, other, hother, hhead⟩ := hrestP m hm
        exact ⟨hP, other, mem_cons_of_mem _ hother, hhead⟩

section Walk

variable {t : FileTree} {a : Address} {exclusion : Selection} {around : List IgnoreRules} {fuel : Nat}

theorem lookAt_spec (wf : t.WellFormed) {name : String} (hnames : ∀ x ∈ a ++ [name], IsName x)
    (hbelow : t.get? (a ++ [name]) = some .directory → ∃ ms : List (List String),
      answer t (filesBelow exclusion fuel around (pathOf (a ++ [name]))) = ms.map (fun m => pathOf (a ++ [name] ++ m)) ∧
        ms.Nodup ∧ ∀ m ∈ ms, IsOutside m ∧ ∃ contents, t.get? (a ++ [name] ++ m) = some (.file contents)) :
    ∃ ms : List (List String),
      answer t (lookAt exclusion fuel around (pathOf (a ++ [name]))) = ms.map (fun m => pathOf (a ++ name :: m)) ∧
        ms.Nodup ∧ ∀ m ∈ ms, ∃ contents, t.get? (a ++ name :: m) = some (.file contents) := by
  have hnone : ∃ ms : List (List String), [] = ms.map (fun m => pathOf (a ++ name :: m)) ∧
      ms.Nodup ∧ ∀ m ∈ ms, ∃ contents, t.get? (a ++ name :: m) = some (.file contents) := ⟨[], rfl, .nil, by simp⟩
  rw [lookAt, (reading_status _).answer_bind, answer_status]
  cases hfind : t.find (pathOf (a ++ [name])) with
  | error e => exact hnone
  | ok x =>
    obtain ⟨b, n⟩ := x
    obtain ⟨rfl, hn, -⟩ := (find_eq_ok_iff wf (leadsTo_pathOf hnames)).1 hfind
    dsimp only [Except.map]
    split
    · exact hnone
    · cases n with
      | directory =>
        rw [if_pos (show Node.directory.isDirectory = true from rfl)]
        obtain ⟨ms, heq, hnodup, hms⟩ := hbelow hn
        simp only [append_assoc, singleton_append] at heq hms
        exact ⟨ms, heq, hnodup, fun m hm => (hms m hm).2⟩
      | file contents =>
        rw [if_neg (by simp [Node.isDirectory])]
        refine ⟨[[]], rfl, by simp, fun m hm => ⟨contents, ?_⟩⟩
        rw [mem_singleton.1 hm, hn]

/-- **The files below a directory** are different files, and none of them is in the store. -/
theorem filesBelow_spec (wf : t.WellFormed) (ha : t.get? a = some .directory) (around : List IgnoreRules) (fuel : Nat) :
    ∃ ms : List (List String),
      answer t (filesBelow exclusion fuel around (pathOf a)) = ms.map (fun m => pathOf (a ++ m)) ∧
        ms.Nodup ∧ ∀ m ∈ ms, IsOutside m ∧ ∃ contents, t.get? (a ++ m) = some (.file contents) := by
  induction fuel generalizing a around with
  | zero => exact ⟨[], rfl, .nil, by simp⟩
  | succ fuel ih =>
    have hnames := wf.isName ha
    have hlist : t.list (pathOf a) = .ok (t.children a) := by
      rw [FileTree.list, exists_find wf (leadsTo_pathOf hnames) ha fun _ => rfl]
      rfl
    have hlook (around : List IgnoreRules) (name : String) (hname : name ∈ t.children a) : ∃ ms : List (List String),
        answer t (lookAt exclusion fuel around ((pathOf a).join ⟨name⟩)) = ms.map (fun m => pathOf (a ++ name :: m)) ∧
          ms.Nodup ∧ ∀ m ∈ ms, ∃ contents, t.get? (a ++ name :: m) = some (.file contents) := by
      obtain ⟨n, hn⟩ := Option.isSome_iff_exists.1 ((mem_children wf).1 hname)
      have hbelow := wf.isName hn
      rw [pathOf_join (hbelow name (by simp)) hnames]
      exact lookAt_spec wf hbelow fun hdir => ih hdir _
    rw [filesBelow_succ, (reading_list _).answer_bind, answer_list, hlist]
    dsimp only
    rw [(reading_loadRules _).answer_bind,
      (reading_mapM fun _ => reading_lookAt (reading_filesBelow _ _ _ _)).answer_bind,
      answer_mapM fun _ => reading_lookAt (reading_filesBelow _ _ _ _), answer_pure]
    obtain ⟨ms, heq, hnodup, hms⟩ := exists_flatten (F := fun m => pathOf (a ++ m))
      (P := fun m => ∃ contents, t.get? (a ++ m) = some (.file contents))
      ((nodup_children (a := a) wf).filter (!skippedNames.contains ·))
      fun name hname => hlook (answer t (IgnoreRules.load (pathOf a)) :: around) name (mem_filter.1 hname).1
    refine ⟨ms, heq, hnodup, fun m hm => ?_⟩
    obtain ⟨hfile, name, hname, hhead⟩ := hms m hm
    refine ⟨⟨fun hnil => by simp [hnil] at hhead, fun hstore => ?_⟩, hfile⟩
    rw [hstore] at hhead
    cases hhead
    simp [skippedNames] at hname

end Walk

theorem reading_projectFiles (exclusion : Selection) (root : Path) : (projectFiles exclusion root).Reading := by
  refine (reading_isDirectory root).bind fun isDirectory => ?_
  cases isDirectory with
  | true => exact (reading_mapM reading_loadRules).bind fun _ => reading_filesBelow _ _ _ _
  | false => exact reading_pure _

theorem projectFiles_spec {t : FileTree} {r : Address} (wf : t.WellFormed) (hr : t.get? r = some .directory)
    (exclusion : Selection) : ∃ ms : List (List String),
      answer t (projectFiles exclusion (pathOf r)) = ms.map (fun m => pathOf (r ++ m)) ∧
        ms.Nodup ∧ ∀ m ∈ ms, IsOutside m ∧ ∃ contents, t.get? (r ++ m) = some (.file contents) := by
  have hnames := wf.isName hr
  have hdir : answer t (isDirectory (pathOf r)) = true := by
    rw [isDirectory, (reading_status _).answer_bind, answer_status,
      exists_find wf (leadsTo_pathOf hnames) hr fun _ => rfl]
    rfl
  rw [projectFiles, (reading_isDirectory _).answer_bind, hdir, if_pos rfl, (reading_mapM reading_loadRules).answer_bind]
  exact filesBelow_spec wf hr _ _

/-! ## Source files -/

/-- Paths, each with the path within the project, are those of different files of the project outside of
the store. -/
def Located (r : Address) (paths : List (Path × Path)) : Prop :=
  paths.Nodup ∧ ∀ p ∈ paths, ∃ m, IsOutside m ∧ (∀ name ∈ m, IsName name) ∧ p = (pathOf (r ++ m), ⟨Text.join "/" m⟩)

section Located

variable {r : Address} {paths paths' : List (Path × Path)} {t : FileTree} {config : Config} {found : Discovery}
  {directory : Path} {s : Scan}

theorem Located.sublist (h : Located r paths) (hsub : paths'.Sublist paths) : Located r paths' :=
  ⟨h.1.sublist hsub, fun p hp => h.2 p (hsub.subset hp)⟩

theorem Located.perm (h : Located r paths) (hperm : paths'.Perm paths) : Located r paths' :=
  ⟨hperm.nodup_iff.2 h.1, fun p hp => h.2 p (hperm.subset hp)⟩

def withRelative (root path : Path) : Path × Path := (path, (path.below? root).getD path)

theorem located_projectFiles (wf : t.WellFormed) (hr : t.get? r = some .directory) (exclusion : Selection) :
    Located r ((answer t (projectFiles exclusion (pathOf r))).map (withRelative (pathOf r))) := by
  obtain ⟨ms, heq, hnodup, hms⟩ := projectFiles_spec wf hr exclusion
  have hnames {m : List String} (hm : m ∈ ms) : ∀ name ∈ r ++ m, IsName name := fun name hname => by
    obtain ⟨contents, hfile⟩ := (hms m hm).2
    exact (wf.isFileName hfile name hname).1
  have hpair {m : List String} (hm : m ∈ ms) :
      withRelative (pathOf r) (pathOf (r ++ m)) = (pathOf (r ++ m), ⟨Text.join "/" m⟩) := by
    rw [withRelative, below?_pathOf (fun name hname => hnames hm name (mem_append_left _ hname))
      fun name hname => hnames hm name (mem_append_right _ hname)]
    rfl
  rw [heq, map_map]
  refine ⟨?_, fun p hp => ?_⟩
  · refine pairwise_map.2 (hnodup.imp_of_mem fun hm hn hne heq => hne ?_)
    have hpath : pathOf (r ++ _) = pathOf (r ++ _) := (Prod.ext_iff.1 heq).1
    have := (leadsTo_pathOf (hnames hm)).named
    rw [hpath, (leadsTo_pathOf (hnames hn)).named] at this
    exact (append_cancel_left (map_injective_iff.2 (fun _ _ h => Component.normal.inj h) this)).symm
  · obtain ⟨m, hm, rfl⟩ := mem_map.1 hp
    exact ⟨m, (hms m hm).1, fun name hname => hnames hm name (mem_append_right _ hname), hpair hm⟩

def SourceFile.places (f : SourceFile) : Path × Path := (f.path, f.relative)

theorem reading_languageOf? (path : Path) : (languageOf? path).Reading := by
  unfold languageOf?
  split
  · exact reading_pure _
  · split
    · exact (reading_read path).bind fun result => by cases result <;> exact reading_pure _
    · exact reading_pure _

theorem reading_classify (root : Path) (files : List Path) : (classify root files).Reading :=
  (reading_mapM fun path => (reading_languageOf? path).bind fun _ => reading_pure _).bind fun _ => reading_pure _

theorem sublist_classify (root : Path) (files : List Path) :
    ((answer t (classify root files)).map SourceFile.places).Sublist (files.map (withRelative root)) := by
  have hone (path : Path) : (do return (← languageOf? path).map fun language =>
      (⟨path, (path.below? root).getD path, language⟩ : SourceFile) : FileTask _).Reading :=
    (reading_languageOf? path).bind fun _ => reading_pure _
  rw [classify, (reading_mapM hone).answer_bind, answer_mapM hone, answer_pure]
  induction files with
  | nil => exact .slnil
  | cons path files ih =>
    rw [map_cons, map_cons, filterMap_cons, (reading_languageOf? path).answer_bind, answer_pure]
    cases answer t (languageOf? path) with
    | none => exact ih.cons _
    | some language => exact ih.cons_cons _

theorem places_settleHeaders (files : List SourceFile) :
    (SourceFile.settleHeaders files).map SourceFile.places = files.map SourceFile.places := by
  unfold SourceFile.settleHeaders
  rw [map_map]
  refine map_congr_left fun f _ => ?_
  dsimp only [Function.comp]
  split <;> rfl

theorem reading_discover (config : Config) (root : Path) : (discover config root).Reading := by
  unfold discover
  split
  · exact reading_pure _
  · exact (reading_projectFiles _ root).bind fun _ => (reading_classify root _).bind fun _ => reading_pure _

theorem places_discover {root : Path} (h : answer t (discover config root) = .ok found) : ∃ exclusion places,
      places.Sublist ((answer t (projectFiles exclusion root)).map (withRelative root)) ∧
        (found.files.map SourceFile.places).Perm places := by
  unfold discover at h
  split at h
  · cases h
  · rename_i exclusion _
    rw [(reading_projectFiles _ _).answer_bind] at h
    dsimp only at h
    rw [(reading_classify _ _).answer_bind, answer_pure] at h
    cases h
    refine ⟨exclusion, _, ?_, (mergeSort_perm _ _).map _⟩
    rw [places_settleHeaders]
    refine (sublist_classify _ _).trans ?_
    rw [partition_eq_filter_filter]
    exact filter_sublist.map _

theorem located_discover (wf : t.WellFormed) (hr : t.get? r = some .directory)
    (h : answer t (discover config (pathOf r)) = .ok found) : Located r (found.files.map SourceFile.places) := by
  obtain ⟨exclusion, places, hsub, hperm⟩ := places_discover h
  exact ((located_projectFiles wf hr exclusion).sublist hsub).perm hperm

/-! ## Units -/

def SourceUnit.places (u : SourceUnit) : Path × Path := (u.path, u.relative)

theorem reading_loadManifests (root : Path) (manifests : List Path) : (ManifestEntries.load root manifests).Reading :=
  (reading_mapM reading_readText).bind fun _ => reading_pure _

theorem reading_lossyText (path : Path) : (lossyTextOf path).Reading :=
  (reading_read path).bind fun result => by cases result <;> exact reading_pure _

theorem get?_of_find {p : Path} {a : Address} {n : Node} (h : t.find p = .ok (a, n)) : t.get? a = some n := by
  obtain ⟨b, -, h⟩ := bind_eq_ok_iff.1 h
  split at h
  · cases h
  · split at h
    · cases h
    · cases h
      assumption

theorem SourceUnit.answer_load [TreeReader] (path relative : Path) (language : Language) :
    answer t (load path relative language) = .ofContents path relative language (t.read path) := rfl

theorem places_build [TreeReader] (t : FileTree) (files : List SourceFile) : (Graph.build
      (files.map fun f => ofContents f.path f.relative f.language (t.read f.path))).units.map places =
    files.map SourceFile.places := by
  rw [Graph.units_build, map_map]
  refine map_congr_left fun f _ => ?_
  obtain ⟨hpath, hrelative, -⟩ := ofContents_same f.path f.relative f.language (t.read f.path)
  exact Prod.ext hpath hrelative

theorem exists_found_of_scan [TreeReader]
    (h : answer t (scan config directory) = .ok s) : ∃ r found, s.root = pathOf r ∧ (t.get? r).isSome ∧
      answer t (discover config (pathOf r)) = .ok found ∧ s.graph = Graph.build
        (found.files.map fun f => ofContents f.path f.relative f.language (t.read f.path)) := by
  rw [scan, (reading_resolve directory).answer_bind, answer_resolve, FileTree.resolve] at h
  cases hfind : t.find directory with
  | error e =>
    rw [hfind] at h
    cases h
  | ok x =>
    obtain ⟨r, n⟩ := x
    rw [hfind] at h
    change answer t (discover config (pathOf r) >>= _) = _ at h
    rw [(reading_discover config (pathOf r)).answer_bind] at h
    cases hfound : answer t (discover config (pathOf r)) with
    | error e =>
      rw [hfound] at h
      cases h
    | ok found =>
      have hload (f : SourceFile) : (load f.path f.relative f.language).Reading :=
        (reading_read _).bind fun _ => reading_pure _
      rw [hfound] at h
      dsimp only at h
      rw [(reading_mapM hload).answer_bind, answer_mapM hload, (reading_loadManifests _ _).answer_bind] at h
      simp only [answer_load] at h
      generalize hunits : (found.files.map fun f =>
        ofContents f.path f.relative f.language (t.read f.path)) = units at h
      have hs : s.root = pathOf r ∧ s.graph = Graph.build units := by
        split at h
        · cases h
        · split at h
          · rw [(reading_mapM fun _ => reading_lossyText _).answer_bind] at h
            cases h
            exact ⟨rfl, rfl⟩
          · cases h
            exact ⟨rfl, rfl⟩
      exact ⟨r, found, hs.1, by rw [get?_of_find hfind]; rfl, hfound, hunits ▸ hs.2⟩

/-- **A scan finds different files of the project**, and none in its store. -/
theorem located_scan [TreeReader] (wf : t.WellFormed)
    (h : answer t (scan config directory) = .ok s) : ∃ r, s.root = pathOf r ∧ (t.get? r).isSome ∧
      (t.get? r = some .directory → Located r (s.graph.units.map places)) := by
  obtain ⟨r, found, hroot, hthere, hfound, hgraph⟩ := exists_found_of_scan h
  refine ⟨r, hroot, hthere, fun hr => ?_⟩
  rw [hgraph, places_build]
  exact located_discover wf hr hfound

end Located

end Deadwood
