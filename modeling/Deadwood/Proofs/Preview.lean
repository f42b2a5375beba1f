import Deadwood.Cleanup.Clean
import Deadwood.Dialect.Grammars
import Deadwood.Proofs.FileFaults
import Deadwood.Proofs.Restore
import Deadwood.Proofs.StaleLines
import Deadwood.Proofs.Undisturbed

/-!
# A preview tells what cleaning does

Cleaning reads the files to prune after other files have been moved away; a preview reads them at once, and counts
what would be done. Both come to the same, since every file of the plan is still there as the scan found it, and
nothing is in the way of the files that are set aside.

* **`preview_agrees`**: a preview changes nothing, and reports what cleaning reports, unless no session can be opened.
-/

namespace Deadwood

open List FileTree FileTask Deadwood.Path

variable {r : Address} {contents : Bytes} {g : Graph} {t : FileTree} {plan : PruningPlan} {u : SourceUnit}
  {text : String} {s : Scan}

/-- Two reports tell the same of what was removed, what was pruned and what failed. -/
structure CleanReport.Agrees (report report' : CleanReport) : Prop where
  filesRemoved : report.filesRemoved = report'.filesRemoved
  bytesRemoved : report.bytesRemoved = report'.bytesRemoved
  files : report.files = report'.files
  importsPruned : report.importsPruned = report'.importsPruned
  reExportsPruned : report.reExportsPruned = report'.reExportsPruned
  failed : report.failed = report'.failed

namespace CleanReport

variable {report report' : CleanReport}

theorem Agrees.addFile (h : report.Agrees report') (u : SourceUnit) : (report.addFile u).Agrees (report'.addFile u) :=
  ⟨congrArg (· + 1) h.filesRemoved, congrArg (· + u.size) h.bytesRemoved, congrArg (· ++ [u.relative]) h.files,
    h.importsPruned, h.reExportsPruned, h.failed⟩

theorem Agrees.addPruned (h : report.Agrees report') (p : Pruned) : (report.addPruned p).Agrees (report'.addPruned p) :=
  ⟨h.filesRemoved, h.bytesRemoved, h.files, congrArg (· + p.imports) h.importsPruned,
    congrArg (· + p.reExports) h.reExportsPruned, h.failed⟩

theorem Agrees.foldl {α : Type} {f : CleanReport → α → CleanReport}
    (hf : ∀ {report report'} a, Agrees report report' → Agrees (f report a) (f report' a)) (h : report.Agrees report')
    (l : List α) : (l.foldl f report).Agrees (l.foldl f report') := by
  induction l generalizing report report' with
  | nil => exact h
  | cons a l ih => exact ih (hf a h)

theorem sessionId_foldl {α : Type} {f : CleanReport → α → CleanReport}
    (hf : ∀ report a, (f report a).sessionId = report.sessionId) (l : List α) :
    (l.foldl f report).sessionId = report.sessionId := by
  induction l generalizing report with
  | nil => rfl
  | cons a l ih => exact ih.trans (hf report a)

theorem addPruned_of_unchanged (report : CleanReport) {p : Pruned} (h : p.changed = false) :
    report.addPruned p = report := by
  have hsum : p.imports + p.reExports = 0 := by simpa [Pruned.changed] using h
  have himports : p.imports = 0 := by omega
  have hreExports : p.reExports = 0 := by omega
  rw [addPruned, himports, hreExports]
  rfl

end CleanReport

/-! ## Previewing -/

def PruningPlan.pruned (t : FileTree) (plan : PruningPlan) : Pruned :=
  match answer t (readText plan.path) with
  | .ok text => prune text plan.imports
  | .error _ => ⟨"", 0, 0⟩

theorem reading_previewPlans (report : CleanReport) (plans : List PruningPlan) :
    (Scan.previewPlans report plans).Reading := by
  induction plans generalizing report with
  | nil => exact reading_pure _
  | cons plan plans ih =>
    refine (reading_readText plan.path).bind fun result => ?_
    cases result with
    | ok text => exact ih _
    | error e => exact ih _

theorem answer_previewPlans (t : FileTree) (report : CleanReport) (plans : List PruningPlan) :
    answer t (Scan.previewPlans report plans) =
      plans.foldl (fun report plan => report.addPruned (plan.pruned t)) report := by
  induction plans generalizing report with
  | nil => rfl
  | cons plan plans ih =>
    rw [Scan.previewPlans, (reading_readText plan.path).answer_bind, foldl_cons, PruningPlan.pruned]
    cases answer t (readText plan.path) with
    | ok text => exact ih _
    | error e =>
      rw [CleanReport.addPruned_of_unchanged report rfl]
      exact ih report

theorem reading_preview (s : Scan) (extra : List Path) : (s.preview extra).Reading := by
  unfold Scan.preview
  dsimp only
  split
  · exact reading_pure _
  · exact reading_previewPlans _ _

theorem answer_preview (t : FileTree) (s : Scan) (extra : List Path) : answer t (s.preview extra) =
    if (s.removal extra).1.isEmpty then { failed := (s.removal extra).2, dryRun := true }
    else (s.graph.pruningPlans (s.removal extra).1).foldl (fun report plan => report.addPruned (plan.pruned t))
      ((s.unitsAt (s.removal extra).1).foldl CleanReport.addFile
        { failed := (s.removal extra).2, dryRun := true }) := by
  unfold Scan.preview
  dsimp only
  split
  · rename_i hempty
    rw [List.isEmpty_iff.1 hempty]
    rfl
  · exact answer_previewPlans _ _ _

/-! ## Removing and pruning -/

/-- The file of a plan is a file of the project, and has a text. -/
structure PruningPlan.Readable (t : FileTree) (r : Address) (plan : PruningPlan) (contents : Bytes) (text : String) :
    Prop where
  file : ProjectFile t r plan.relative contents
  text : contents.text? = some text
  leads : LeadsTo plan.path (r ++ plan.relative.names)
  plain : wantsDirectory plan.path = false

theorem readText_eq_ok {path : Path} (hread : t.read path = .ok contents) (htext : contents.text? = some text) :
    answer t (readText path) = .ok text := by
  have hanswer : answer t (FileTask.read path) = .ok contents := hread
  rw [readText, (reading_read path).answer_bind, hanswer]
  dsimp only
  rw [htext]
  rfl

theorem PruningPlan.Readable.pruned_eq (h : plan.Readable t r contents text) (wf : t.WellFormed) :
    plan.pruned t = prune text plan.imports := by
  rw [PruningPlan.pruned, readText_eq_ok ((read_eq_ok_iff wf h.leads).2 ⟨h.file.there, h.plain⟩) h.text]

section Filling

variable {s : FileTree} {q : Quarantine} {id : String} {now : Moment} {session : OpenSession}
  {pruned removed : List (List String)} {moves : List (Path × Path)}

/-- **All units are moved into the session**, and counted. -/
theorem Recorded.ensures_removeUnits (h : Recorded t q r id now session moves s)
    (hs : Undisturbed t q r id removed s) (wf : t.WellFormed) (hq : q.At r) (hid : IsName id) (report : CleanReport)
    {us : List SourceUnit} (hus : ∀ u ∈ us, ∃ contents, ProjectFile t r u.relative contents)
    (hnodup : (us.map (·.relative.names)).Nodup) (hnew : (us.map (·.relative.names)).Disjoint removed) :
    (Scan.removeUnits session report us).Ends (fun result ms v => result.1 = us.foldl CleanReport.addFile report ∧
      Recorded t q r id now result.2 ms v ∧ Undisturbed t q r id (us.map (·.relative.names) ++ removed) v) moves s := by
  induction us generalizing session report removed moves s with
  | nil => exact ensures_pure.2 ⟨rfl, h, hs⟩
  | cons u us ih =>
    obtain ⟨contents, hf⟩ := hus u mem_cons_self
    obtain ⟨hfirst, hrest⟩ := nodup_cons.1 hnodup
    obtain ⟨hnewFirst, hnewRest⟩ := disjoint_cons_left.1 hnew
    refine ((h.moveIn hq hid hf.relative (.inr hf.outside)).and
      (hs.ensures_moveIn wf hq hid h.quarantine h.directory hf hnewFirst)).andThen ?_
    rintro ⟨result, session'⟩ _ v ⟨hrecorded, hresult, hv⟩
    obtain rfl : result = .ok () := hresult
    refine (ih hrecorded hv (report.addFile u) (forall_mem_cons.1 hus).2 hrest
      (disjoint_cons_right.2 ⟨hfirst, hnewRest⟩)).imp ?_
    rintro result _ w ⟨hreport, hrecorded, hw⟩
    exact ⟨hreport, hrecorded, hw.mono fun m hm => by simpa [or_left_comm] using hm⟩

theorem Recorded.cleaning (h : Recorded t q r id now session moves s) (hs : Undisturbed t q r id removed s) :
    Cleaning t q r id now session [] removed s := by
  refine ⟨hs, h.quarantine, h.tree, h.fits, fun f hf he => ?_, ?_⟩
  · rw [h.unedited f hf] at he
    cases he
  · rw [h.backedUp]
    exact forall_mem_nil _

namespace Cleaning

variable (h : Cleaning t q r id now session pruned removed s) (wf : t.WellFormed) (hq : q.At r) (hid : IsName id)
include h wf hq hid

/-- **A file is pruned**, or there is nothing to prune in it. -/
theorem ensures_pruneFile (hplan : plan.Readable t r contents text) (hnew : plan.relative.names ∉ pruned ++ removed)
    : (Scan.pruneFile session plan).Ends
      (fun result _ v => result.1 = .ok (if (plan.pruned t).changed then some (plan.pruned t) else none) ∧
        Cleaning t q r id now result.2 (plan.relative.names :: pruned) removed v) moves s := by
  have hf := hplan.file
  have hread : s.read plan.path = .ok contents :=
    (read_eq_ok_iff h.keeps.wf hplan.leads).2 ⟨h.same _ _ hf.outside hnew hf.there, hplan.plain⟩
  rw [hplan.pruned_eq wf]
  refine ensures_bind.2 (ensures_bind.2 (ensures_read trivial ?_))
  rw [hread]
  refine ensures_pure.2 ?_
  rw [hplan.text]
  dsimp only [Option.elim]
  cases hchanged : (prune text plan.imports).changed with
  | false => exact ensures_pure.2 ⟨rfl, h.mono _⟩
  | true =>
    refine (h.ensures_backUp wf hq hid hf hnew _).andThen ?_
    rintro ⟨result, session'⟩ _ u ⟨hresult, hu, hthere, f, hmem, hnames, he, hhash⟩
    obtain rfl : result = .ok () := hresult
    have hroom := hu.keeps.wf.room (by simp [hf.outside.1]) hthere
    have hdir : u.get? (r ++ plan.relative.names) ≠ some .directory := by simp [hthere]
    have hwrite (new : Bytes) : u.write plan.path new = .ok (u.put (r ++ plan.relative.names) (.file new)) :=
      (write_eq_ok_iff hu.keeps.wf hplan.leads).2 ⟨hroom, hdir, hplan.plain, rfl⟩
    refine ensures_bind.2 (ensures_write trivial (fun e he => ?_) fun v hv => ?_)
    · rw [hwrite] at he
      cases he
    rw [hwrite] at hv
    cases hv
    have hv := hu.toUndisturbed.rewrite hf mem_cons_self hroom hdir (Bytes.ofText (prune text plan.imports).text)
    have htree := hu.tree.rewrite hmem he hhash (hnames ▸ hroom) (hnames ▸ hdir)
    exact ensures_pure.2 ⟨rfl, hv, hu.quarantine, hnames ▸ htree, hu.fits, hu.edited, hu.backedUp⟩

/-- **All plans are carried out**, and what is counted was foreseen. -/
theorem ensures_pruneFiles (report : CleanReport) {plans : List PruningPlan}
    (hplans : ∀ plan ∈ plans, ∃ contents text, plan.Readable t r contents text)
    (hnodup : (plans.map (·.relative.names)).Nodup)
    (hnew : (plans.map (·.relative.names)).Disjoint (pruned ++ removed)) :
    (Scan.pruneFiles session report plans).Ends (fun result _ v =>
      result.1 = plans.foldl (fun report plan => report.addPruned (plan.pruned t)) report ∧
      ∃ pruned', (∀ m ∈ pruned', m ∈ plans.map (·.relative.names) ∨ m ∈ pruned) ∧
        Cleaning t q r id now result.2 pruned' removed v) moves s := by
  induction plans generalizing session report pruned moves s with
  | nil => exact ensures_pure.2 ⟨rfl, pruned, fun m hm => .inr hm, h⟩
  | cons plan plans ih =>
    obtain ⟨contents, text, hplan⟩ := hplans plan mem_cons_self
    obtain ⟨hfirst, hrest⟩ := nodup_cons.1 hnodup
    obtain ⟨hnewFirst, hnewRest⟩ := disjoint_cons_left.1 hnew
    refine (h.ensures_pruneFile wf hq hid hplan hnewFirst).andThen ?_
    rintro ⟨result, session'⟩ ms v ⟨hresult, hv⟩
    have hgo (report' : CleanReport) : (Scan.pruneFiles session' report' plans).Ends (fun result _ v =>
        result.1 = plans.foldl (fun report plan => report.addPruned (plan.pruned t)) report' ∧
        ∃ pruned', (∀ m ∈ pruned', m ∈ (plan :: plans).map (·.relative.names) ∨ m ∈ pruned) ∧
          Cleaning t q r id now result.2 pruned' removed v) ms v := by
      refine (ih hv report' (forall_mem_cons.1 hplans).2 hrest (disjoint_cons_right.2 ⟨hfirst, hnewRest⟩)).imp ?_
      rintro result _ w ⟨hreport, pruned', hpruned, hw⟩
      exact ⟨hreport, pruned', fun m hm => by simpa [or_assoc, or_left_comm] using hpruned m hm, hw⟩
    obtain rfl : result = _ := hresult
    rw [foldl_cons]
    cases hchanged : (plan.pruned t).changed with
    | true => exact hgo _
    | false =>
      rw [CleanReport.addPruned_of_unchanged report hchanged]
      exact hgo report

end Cleaning

end Filling

/-! ## The units of a scan -/

theorem pathOf_eq_ofList (a : Address) : pathOf a = ⟨String.ofList ('/' :: (Text.join "/" a).toList)⟩ := by
  refine congrArg Path.mk (String.toList_inj.1 ?_)
  simp

theorem wantsDirectory_pathOf {a : Address} (hne : a ≠ []) (h : ∀ name ∈ a, IsName name) :
    wantsDirectory (pathOf a) = false := by
  obtain ⟨b, name, rfl⟩ : ∃ b name, a = b ++ [name] :=
    ⟨a.dropLast, a.getLast hne, (dropLast_append_getLast hne).symm⟩
  have hname : IsName name := h name (by simp)
  rw [← pathOf_join hname (forall_mem_append.1 h).1]
  exact wantsDirectory_join_name (leadsTo_pathOf (forall_mem_append.1 h).1).text_ne hname

section Scan

variable {config : Config} {found : Discovery} {f : SourceFile}

theorem projectFile_of_discover (wf : t.WellFormed)
    (hr : t.get? r = some .directory) (hfound : answer t (discover config (pathOf r)) = .ok found)
    (hf : f ∈ found.files) : ∃ contents, ProjectFile t r f.relative contents ∧
      LeadsTo f.path (r ++ f.relative.names) ∧ wantsDirectory f.path = false := by
  obtain ⟨exclusion, places, hsub, hperm⟩ := places_discover hfound
  obtain ⟨ms, heq, -, hms⟩ := projectFiles_spec wf hr exclusion
  have hmem := hsub.subset (hperm.subset (mem_map_of_mem (f := SourceFile.places) hf))
  rw [heq, map_map] at hmem
  obtain ⟨m, hm, hplaces⟩ := mem_map.1 hmem
  obtain ⟨hout, contents, hfile⟩ := hms m hm
  have hnames := wf.isName hfile
  have hnames' : ∀ name ∈ m, IsName name := (forall_mem_append.1 hnames).2
  obtain ⟨hpath, hrelative⟩ := Prod.mk.injEq .. ▸ hplaces
  dsimp only [Function.comp, withRelative] at hpath hrelative
  rw [below?_pathOf (forall_mem_append.1 hnames).1 hnames', Option.getD_some] at hrelative
  have hrel : f.relative.IsRelative m := hrelative ▸ isRelative_join_names hout.1 hnames'
  have hm : f.relative.names = m := hrel.names_eq
  refine ⟨contents, ⟨hm.symm ▸ hrel, ?_, hm.symm ▸ hout, hm.symm ▸ hfile⟩, ?_, ?_⟩
  · rw [← hrelative, ← pathOf_eq_ofList]
    exact wantsDirectory_pathOf hout.1 hnames'
  · rw [hm, ← hpath]
    exact leadsTo_pathOf hnames
  · rw [← hpath]
    exact wantsDirectory_pathOf (by simp [hout.1]) hnames

/-- A unit of a scan was read from a file of the project, which has a text if the unit imports something. -/
structure SourceUnit.Found (t : FileTree) (r : Address) (u : SourceUnit) (contents : Bytes) : Prop where
  file : ProjectFile t r u.relative contents
  leads : LeadsTo u.path (r ++ u.relative.names)
  plain : wantsDirectory u.path = false
  text : u.summary.imports ≠ [] → ∃ text, contents.text? = some text

theorem SourceUnit.exists_text_of_imports [TreeReader] {path relative : Path} {language : Language}
    (h : (SourceUnit.ofContents path relative language (.ok contents)).summary.imports ≠ []) :
    ∃ text, contents.text? = some text := by
  cases htext : contents.text? with
  | some text => exact ⟨text, rfl⟩
  | none =>
    rw [SourceUnit.ofContents, htext] at h
    exact absurd rfl h

theorem exists_found [TreeReader] (wf : t.WellFormed) (hr : t.get? r = some .directory)
    (hfound : answer t (discover config (pathOf r)) = .ok found) (hf : f ∈ found.files) :
    ∃ contents, (SourceUnit.ofContents f.path f.relative f.language (t.read f.path)).Found t r contents := by
  obtain ⟨contents, hfile, hleads, hplain⟩ := projectFile_of_discover wf hr hfound hf
  have hread : t.read f.path = .ok contents := (read_eq_ok_iff wf hleads).2 ⟨hfile.there, hplain⟩
  obtain ⟨hpath, hrelative, -⟩ := SourceUnit.ofContents_same f.path f.relative f.language (t.read f.path)
  refine ⟨contents, by rwa [hrelative], by rwa [hpath, hrelative], by rwa [hpath], fun himports => ?_⟩
  rw [hread] at himports
  exact SourceUnit.exists_text_of_imports himports

end Scan

/-! ## Plans -/

theorem Graph.exists_of_mem_pruningPlans {removed : List Nat}
    (h : plan ∈ g.pruningPlans removed) : ∃ i u, g.units[i]? = some u ∧ i ∉ removed ∧ plan.relative = u.relative ∧
      plan.path = u.path ∧ u.summary.imports ≠ [] := by
  obtain ⟨i, u, hu, hstays, himports, rfl⟩ := eq_of_mem_pruningPlans h
  exact ⟨i, u, hu, hstays, rfl, rfl, fun hnil => himports (by simp [Graph.staleImports, hnil])⟩

def PruningPlan.places (plan : PruningPlan) : Path × Path := (plan.path, plan.relative)

theorem sublist_map_filterMap {α β γ : Type} {f : α → Option β} {p : β → γ} {q : α → γ}
    (h : ∀ a b, f a = some b → p b = q a) (l : List α) : ((l.filterMap f).map p).Sublist (l.map q) := by
  induction l with
  | nil => exact .slnil
  | cons a l ih =>
    cases hfa : f a with
    | none =>
      rw [filterMap_cons_none hfa]
      exact ih.cons _
    | some b =>
      rw [filterMap_cons_some hfa, map_cons, map_cons, h a b hfa]
      exact ih.cons_cons _

theorem Graph.sublist_pruningPlans (g : Graph) (removed : List Nat) :
    ((g.pruningPlans removed).map PruningPlan.places).Sublist (g.units.map SourceUnit.places) := by
  have hmap : g.units.map SourceUnit.places = g.units.zipIdx.map fun x => x.1.places := by
    conv_lhs => rw [← zipIdx_map_fst 0 g.units, map_map]
    rfl
  rw [hmap, pruningPlans]
  refine (sublist_map_filterMap (fun x plan hplan => ?_) _).trans (filter_sublist.map _)
  dsimp only at hplan
  split at hplan
  · cases hplan
  · cases hplan
    rfl

theorem Graph.nodup_pruningPlans (h : (g.units.map (·.relative.names)).Nodup)
    (removed : List Nat) : ((g.pruningPlans removed).map (·.relative.names)).Nodup := by
  have hsub := (g.sublist_pruningPlans removed).map (·.2.names)
  rw [map_map, map_map] at hsub
  exact hsub.nodup h

theorem SourceUnit.Found.readable
    (h : u.Found t r contents) (hrelative : plan.relative = u.relative) (hpath : plan.path = u.path)
    (himports : u.summary.imports ≠ []) : ∃ text, plan.Readable t r contents text := by
  obtain ⟨text, htext⟩ := h.text himports
  exact ⟨text, by rw [hrelative]; exact h.file, htext, by rw [hrelative, hpath]; exact h.leads,
    by rw [hpath]; exact h.plain⟩

theorem Located.eq_of_isRelative {paths : List (Path × Path)} {p p' : Path × Path} {m : List String}
    (h : Located r paths) (hp : p ∈ paths) (hp' : p' ∈ paths)
    (hm : p.2.IsRelative m) (hm' : p'.2.IsRelative m) : p = p' := by
  obtain ⟨n, hn, hnames, rfl⟩ := h.2 p hp
  obtain ⟨n', hn', hnames', rfl⟩ := h.2 p' hp'
  have hnm : n = m := (isRelative_join_names hn.1 hnames).names_eq.symm.trans hm.names_eq
  have hnm' : n' = m := (isRelative_join_names hn'.1 hnames').names_eq.symm.trans hm'.names_eq
  rw [hnm, hnm']

theorem Located.nodup_names {paths : List (Path × Path)} (h : Located r paths) : (paths.map (·.2.names)).Nodup := by
  have hrelative {p : Path × Path} (hp : p ∈ paths) : p.2.IsRelative p.2.names := by
    obtain ⟨m, hm, hnames, rfl⟩ := h.2 p hp
    have hrel := isRelative_join_names hm.1 hnames
    rwa [hrel.names_eq]
  refine Nodup.map_on (fun p hp p' hp' heq => ?_) h.1
  exact h.eq_of_isRelative hp hp' (hrelative hp) (heq ▸ hrelative hp')

/-- The units of a scan are read from different files of the project. -/
structure Scan.FoundIn (t : FileTree) (r : Address) (s : Scan) : Prop where
  names : (s.graph.units.map (·.relative.names)).Nodup
  found : ∀ u ∈ s.graph.units, ∃ contents, u.Found t r contents

/-- A scan may be an outcome for the project at `r`, as its files are now. Whatever they are read as, and whatever
counts as dead, is left open. -/
structure Scan.IsOutcomeOf (t : FileTree) (r : Address) (s : Scan) : Prop where
  root : LeadsTo s.root r
  there : (t.get? r).isSome
  found : t.get? r = some .directory → s.FoundIn t r

theorem isOutcomeOf_scan [TreeReader] {config : Config} {directory : Path} {s : Scan} (wf : t.WellFormed)
    (h : answer t (scan config directory) = .ok s) : ∃ r, s.IsOutcomeOf t r := by
  obtain ⟨r, found, hroot, hthere, hfound, hgraph⟩ := exists_found_of_scan h
  obtain ⟨n, hn⟩ := Option.isSome_iff_exists.1 hthere
  refine ⟨r, hroot ▸ leadsTo_pathOf (wf.isName hn), hthere, fun hr => ?_⟩
  have hunits : s.graph.units = _ := hgraph ▸ Graph.units_build _
  refine ⟨?_, fun u hu => ?_⟩
  · have hnames := (located_discover wf hr hfound).nodup_names
    rwa [← places_build, ← hgraph, map_map] at hnames
  · rw [hunits] at hu
    obtain ⟨f, hf, rfl⟩ := mem_map.1 hu
    exact exists_found wf hr hfound hf

namespace Scan

theorem exists_of_mem_unitsAt {positions : List Nat} (h : u ∈ s.unitsAt positions) :
    ∃ i ∈ positions, s.graph.units[i]? = some u :=
  mem_filterMap.1 h

namespace FoundIn

variable {positions : List Nat}

variable (h : s.FoundIn t r)
include h

theorem eq_of_names {i j : Nat} {v : SourceUnit} (hu : s.graph.units[i]? = some u) (hv : s.graph.units[j]? = some v)
    (heq : u.relative.names = v.relative.names) : i = j := by
  have hi := (List.getElem?_eq_some_iff.1 hu).1
  refine (getElem?_inj (by rwa [length_map]) h.names).1 ?_
  rw [getElem?_map, getElem?_map, hu, hv, Option.map_some, Option.map_some, heq]

theorem unitsAt (hu : u ∈ s.unitsAt positions) : ∃ contents, ProjectFile t r u.relative contents := by
  obtain ⟨i, -, hi⟩ := exists_of_mem_unitsAt hu
  obtain ⟨contents, hf⟩ := h.found u (mem_of_getElem? hi)
  exact ⟨contents, hf.file⟩

theorem nodup_unitsAt (hpositions : positions.Nodup) : ((s.unitsAt positions).map (·.relative.names)).Nodup := by
  rw [Scan.unitsAt, map_filterMap]
  refine hpositions.filterMap fun i j m hi hj => ?_
  obtain ⟨u, hu, rfl⟩ := Option.map_eq_some_iff.1 hi
  obtain ⟨v, hv, heq⟩ := Option.map_eq_some_iff.1 hj
  exact h.eq_of_names hu hv heq.symm

theorem readable (hplan : plan ∈ s.graph.pruningPlans positions) :
    ∃ contents text, plan.Readable t r contents text := by
  obtain ⟨i, u, hu, -, hrelative, hpath, himports⟩ := Graph.exists_of_mem_pruningPlans hplan
  obtain ⟨contents, hf⟩ := h.found u (mem_of_getElem? hu)
  exact ⟨contents, hf.readable hrelative hpath himports⟩

theorem nodup_pruningPlans (positions : List Nat) : ((s.graph.pruningPlans positions).map (·.relative.names)).Nodup :=
  Graph.nodup_pruningPlans h.names positions

theorem disjoint_pruningPlans (positions : List Nat) :
    ((s.graph.pruningPlans positions).map (·.relative.names)).Disjoint
      ((s.unitsAt positions).map (·.relative.names)) := by
  intro m hm hmem
  obtain ⟨plan, hplan, rfl⟩ := mem_map.1 hm
  obtain ⟨i, u, hu, hstays, hrelative, -⟩ := Graph.exists_of_mem_pruningPlans hplan
  obtain ⟨v, hv, heq⟩ := mem_map.1 hmem
  obtain ⟨j, hj, hv⟩ := exists_of_mem_unitsAt hv
  exact hstays (h.eq_of_names hu hv (hrelative ▸ heq.symm) ▸ hj)

end FoundIn

end Scan

/-! ## Cleaning -/

theorem Recorded.undisturbed {u : FileTree} {q : Quarantine} {id : String} {now : Moment}
    {session : OpenSession} {moves : List (Path × Path)} (h : Recorded t q r id now session moves u)
    (hq : q.At r) (hid : IsName id) (hfiles : session.record.files = [])
    (hempty : ∀ x, x ≠ [] → u.get? (filesAt r id ++ x) = none) : Undisturbed t q r id [] u := by
  have htree := h.tree
  rw [hfiles] at htree
  have hrecord : u.get? (sessionAt r id ++ ["manifest.json"]) ≠ some .directory := by
    rw [sessionAt_append]
    exact fun hdir => by cases htree.record.symm.trans hdir
  have hdraft : u.get? (sessionAt r id ++ ["manifest.json.tmp"]) ≠ some .directory := by
    rw [sessionAt_append]
    exact htree.draft
  refine ⟨⟨htree.kept.wf, leadsTo_directory hq hid, htree.directory, hrecord, hdraft⟩, htree.files,
    fun x hx => .inl (hempty x hx), fun m contents hm _ ht => ?_⟩
  rw [htree.kept.untouched.same _ (hm.not_storeAt_prefix_of_prefix prefix_rfl), ht]

section Clean

variable {now : Moment}

theorem ensures_openSession_of_file {q : Quarantine} {now : Moment} {contents : Bytes} (wf : t.WellFormed)
    (hq : q.At r) (hr : t.get? r = some (.file contents)) :
    (q.openSession now).run.Ends (fun result _ _ => ∃ e, result = .error e) [] t := by
  refine ensures_run_bind (ensures_ofFiles ((ensures_makeDirectories wf (leadsTo_base hq)).imp ?_))
  rintro (e | _) ms u ⟨-, hadd, hmade, -⟩
  · exact ⟨_, rfl⟩
  · have hbase := hmade rfl
    rw [hadd.wf.get?_below_file (by simp) (hadd.of_some hr)] at hbase
    cases hbase

theorem ensures_openSession_undisturbed {q : Quarantine} (wf : t.WellFormed) (hq : q.At r)
    (hthere : (t.get? r).isSome) : (q.openSession now).run.Ends
      (fun result ms u => ∀ session, result = .ok session → t.get? r = some .directory ∧ IsName session.record.id ∧
        Recorded t q r session.record.id now session ms u ∧ Undisturbed t q r session.record.id [] u) [] t := by
  obtain ⟨n, hn⟩ := Option.isSome_iff_exists.1 hthere
  cases n with
  | directory =>
    refine (ensures_openSession_empty wf hq hn).imp ?_
    rintro result ms u hu session rfl
    obtain ⟨⟨hid, hu⟩, hfiles, hempty⟩ := hu
    exact ⟨hn, hid, hu, hu.undisturbed hq hid hfiles hempty⟩
  | file contents =>
    refine (ensures_openSession_of_file wf hq hn).imp ?_
    rintro _ ms u ⟨e, rfl⟩
    exact nofun

/-- All that was taken or edited by cleaning is in the record of the session, and the files edited are those of
plans. -/
def Scan.LeftBy (s : Scan) (t : FileTree) (r : Address) (now : Moment) (extra : List Path) (id : String)
    (u : FileTree) : Prop :=
  t.get? r = some .directory ∧ IsName id ∧ ∃ record : SessionRecord, InSession t r id (some record) record.files 0 u ∧
    record.Fits t r id now ∧ ∀ f ∈ record.files, f.edited = true →
      f.names ∈ (s.graph.pruningPlans (s.removal extra).1).map (·.relative.names)

/-- **Cleaning does what was previewed**, once a session is open. -/
theorem ensures_clean (wf : t.WellFormed) (hs : s.IsOutcomeOf t r) (now : Moment) (extra : List Path) :
    (s.clean now extra).run.Ends
      (fun result _ u => (∃ report, result = .ok report ∧ (answer t (s.preview extra)).Agrees report ∧
          ∀ id, report.sessionId = some id → s.LeftBy t r now extra id u) ∨
        ∃ e, (((Quarantine.mk s.root).openSession now).run.run t).1 = .error e ∧ result = .error e) [] t := by
  rw [answer_preview]
  unfold Scan.clean
  dsimp only
  split
  · exact ensures_pure.2 (.inl ⟨_, rfl, ⟨rfl, rfl, rfl, rfl, rfl, rfl⟩, nofun⟩)
  refine ensures_run_bind ((ensures_openSession_undisturbed (q := ⟨s.root⟩) wf hs.root hs.there).run.imp ?_)
  rintro (e | session) ms u ⟨hu, hrun⟩
  · exact .inr ⟨e, congrArg Prod.fst hrun, rfl⟩
  obtain ⟨hr, hid, hrecorded, hu⟩ := hu session rfl
  have hfound := hs.found hr
  -- units are moved into the session
  refine ensures_run_bind (ensures_monadLift ((hrecorded.ensures_removeUnits hu wf hs.root hid _
    (fun u hu => hfound.unitsAt hu) (hfound.nodup_unitsAt ((mergeSort_perm _ _).nodup_iff.2 (nodup_eraseDups _)))
    (disjoint_nil_right _)).imp ?_))
  rintro ⟨report, session'⟩ ms u ⟨hreport, hrecorded, hu⟩
  obtain rfl : report = _ := hreport
  rw [append_nil] at hu
  -- imports are pruned
  refine ensures_run_bind (ensures_monadLift (((hrecorded.cleaning hu).ensures_pruneFiles wf hs.root hid _
    (fun _ h => hfound.readable h) (hfound.nodup_pruningPlans _) (hfound.disjoint_pruningPlans _)).imp ?_))
  rintro ⟨report, session''⟩ ms u ⟨hreport, pruned, hpruned, hu⟩
  obtain rfl : report = _ := hreport
  refine ensures_run_bind (ensures_monadLift (ensures_bind.2 (ensures_unlock trivial (ensures_pure.2 ?_))))
  refine ensures_pure.2 (.inl ⟨_, rfl, ?_, fun id hsome => ?_⟩)
  · refine CleanReport.Agrees.foldl (f := fun report (plan : PruningPlan) => report.addPruned (plan.pruned t))
      (fun plan h => h.addPruned _) (CleanReport.Agrees.foldl (f := CleanReport.addFile) (fun u h => h.addFile u) ?_ _) _
    exact ⟨rfl, rfl, rfl, rfl, rfl, rfl⟩
  · obtain rfl : session.record.id = id := Option.some.inj <|
      ((CleanReport.sessionId_foldl (f := CleanReport.addFile) (fun _ _ => rfl) _).symm.trans
        (CleanReport.sessionId_foldl (f := fun report (plan : PruningPlan) => report.addPruned (plan.pruned t))
          (fun _ _ => rfl) _).symm).trans hsome
    refine ⟨hr, hid, session''.record, ?_, hu.fits, fun f hf he => ?_⟩
    · rw [hu.quarantine, hu.fits.id]
      exact hu.tree.unlock hs.root hid
    · exact (hpruned _ (hu.edited f hf he)).resolve_right (by simp)

/-- **A preview tells what cleaning does.** A project is cleaned after a scan, with some further files. A preview of
the same leaves the tree as it is. Unless no session can be opened, cleaning gives a report, and this is what the
preview said. -/
theorem preview_agrees [TreeReader] (wf : t.WellFormed) (s : Scan) (now : Moment) (extra : List Path) :
    (∀ config directory, answer t (scan config directory) = .ok s → ∃ r, s.IsOutcomeOf t r) ∧
    ∀ r, s.IsOutcomeOf t r → ((s.preview extra).run t).2 = t ∧
      ((∃ report, ((s.clean now extra).run.run t).1 = .ok report ∧ ((s.preview extra).run t).1.Agrees report) ∨
        ∃ e, (((Quarantine.mk s.root).openSession now).run.run t).1 = .error e ∧
          ((s.clean now extra).run.run t).1 = .error e) := by
  refine ⟨fun _ _ hscan => isOutcomeOf_scan wf hscan, fun r hs => ⟨reading_preview s extra t, ?_⟩⟩
  obtain ⟨_, ⟨report, hresult, hagrees, -⟩ | herror⟩ := (ensures_clean wf hs now extra).result
  · exact .inl ⟨report, hresult, hagrees⟩
  · exact .inr herror

/-- Two scripts, of which the first imports the second. -/
def importingUnits : List SourceUnit :=
  [{ path := ⟨"/p/a.js"⟩, relative := ⟨"a.js"⟩, language := .javaScript,
      summary := { imports := [⟨"./b", .everything, 1, .sideEffect⟩] } },
    { path := ⟨"/p/b.js"⟩, relative := ⟨"b.js"⟩, language := .javaScript }]

def importingScan : Scan where
  root := ⟨"/p"⟩
  graph := .build importingUnits
  entryPoints := []
  reachability := { reachable := [⟨"a.js"⟩, ⟨"b.js"⟩] }

def importingTree (b : Option Node) : FileTree :=
  { nodes := [(["p"], .directory), (["p", "a.js"], .file (Bytes.ofText "import './b';\nf();\n"))] ++
      (b.map fun n => (["p", "b.js"], n)).toList }

/-- The second script is removed, and the first one loses its import. -/
theorem cleaned_importing : ∃ report u, (importingScan.clean ⟨20000, 0, 0⟩ [⟨"b.js"⟩]).run.run
    (importingTree (some (.file [10]))) = (.ok report, u) ∧ report.filesRemoved = 1 ∧ report.importsPruned = 1 ∧
      report.sessionId.isSome := by
  have hrun : (((importingScan.clean ⟨20000, 0, 0⟩ [⟨"b.js"⟩]).run.run
      (importingTree (some (.file [10])))).1.toOption.any fun report =>
        report.filesRemoved = 1 ∧ report.importsPruned = 1 ∧ report.sessionId.isSome) = true := by
    decide +kernel
  generalize (importingScan.clean ⟨20000, 0, 0⟩ [⟨"b.js"⟩]).run.run (importingTree (some (.file [10]))) = run at *
  obtain ⟨result, u⟩ := run
  obtain ⟨report, hreport, hcounts⟩ := (Option.any_eq_true _ _).1 hrun
  exact ⟨report, u, congrArg (·, u) (eq_ok_of_toOption hreport), of_decide_eq_true hcounts⟩

theorem isOutcomeOf_importingScan : importingScan.IsOutcomeOf (importingTree (some (.file [10]))) ["p"] := by
  have hunits : importingScan.graph.units = importingUnits := Graph.units_build _
  refine ⟨⟨by decide, by decide⟩, by decide, fun _ => ⟨?_, ?_⟩⟩
  · rw [hunits]
    decide
  · rw [hunits, importingUnits, forall_mem_cons, forall_mem_singleton]
    refine ⟨⟨_, ⟨⟨by decide, by decide⟩, by decide, by decide, rfl⟩, ⟨by decide, by decide⟩, by decide, fun _ => ?_⟩,
      ⟨_, ⟨⟨by decide, by decide⟩, by decide, by decide, rfl⟩, ⟨by decide, by decide⟩, by decide, absurd rfl⟩⟩
    exact ⟨_, Bytes.text?_ofText _⟩

theorem preview_agrees_importing :
    let tree := importingTree (some (.file [10]))
    importingScan.IsOutcomeOf tree ["p"] ∧ ∃ report,
      ((importingScan.clean ⟨20000, 0, 0⟩ [⟨"b.js"⟩]).run.run tree).1 = .ok report ∧
      report.filesRemoved = 1 ∧ report.importsPruned = 1 ∧ ((importingScan.preview [⟨"b.js"⟩]).run tree).2 = tree ∧
      ((importingScan.preview [⟨"b.js"⟩]).run tree).1.Agrees report := by
  intro tree
  obtain ⟨report, u, hrun, hfiles, himports, -⟩ := cleaned_importing
  have hclean := congrArg Prod.fst hrun
  obtain ⟨hsame, ⟨report', hclean', hagrees⟩ | ⟨e, -, herror⟩⟩ :=
    (preview_agrees (by decide) importingScan ⟨20000, 0, 0⟩ [⟨"b.js"⟩]).2 _ isOutcomeOf_importingScan
  · cases hclean.symm.trans hclean'
    exact ⟨isOutcomeOf_importingScan, report, hclean, hfiles, himports, hsame, hagrees⟩
  · cases hclean.symm.trans herror

/-- The first script is removed, but the record of the session cannot be written once it has been moved. -/
def unrecorded : Except QuarantineError CleanReport × FileTree :=
  (importingScan.clean ⟨20000, 0, 0⟩ [⟨"a.js"⟩]).run.runWith (List.replicate 13 none ++ [some { reason := .notText }])
    (importingTree (some (.file [10])))

def freshRecord : SessionRecord := { id := "20241004-000000-000", createdAt := ⟨20000, 0, 0⟩ }

theorem unrecorded_spec :
    ((importingScan.preview [⟨"a.js"⟩]).run (importingTree (some (.file [10])))).1.filesRemoved = 1 ∧
    ((importingScan.preview [⟨"a.js"⟩]).run (importingTree (some (.file [10])))).1.failed.length = 0 ∧
    unrecorded.1.toOption.map (fun report => (report.filesRemoved, report.failed.map (·.path.text), report.sessionId)) =
      some (0, ["a.js"], some freshRecord.id) ∧ unrecorded.2.WellFormed ∧ unrecorded.2.get? ["p", "a.js"] = none ∧
    unrecorded.2.get? (sessionAt ["p"] freshRecord.id) = some .directory ∧
    unrecorded.2.get? (filesAt ["p"] freshRecord.id) = some .directory ∧
    unrecorded.2.get? (recordAt ["p"] freshRecord.id) = some (.file freshRecord.contents) ∧
    unrecorded.2.get? (draftAt ["p"] freshRecord.id) ≠ some .directory ∧
    unrecorded.2.get? (lockAt ["p"] freshRecord.id) = some (.file []) ∧
    unrecorded.2.locks.count (lockAt ["p"] freshRecord.id) = 0 := by
  decide +kernel

/-- **A preview does not foresee** that a record cannot be written, as the file in it may have a name that is no text. -/
theorem preview_misses_unrecorded :
    let preview := ((importingScan.preview [⟨"a.js"⟩]).run (importingTree (some (.file [10])))).1
    preview.filesRemoved = 1 ∧ preview.failed.length = 0 ∧
      unrecorded.1.toOption.map (fun report => (report.filesRemoved, report.failed.map (·.path.text))) =
        some (0, ["a.js"]) := by
  obtain ⟨hfiles, hfailed, hreport, -⟩ := unrecorded_spec
  have hcounts := congrArg (Option.map fun x : Nat × List String × Option String => (x.1, x.2.1)) hreport
  rw [Option.map_map] at hcounts
  exact ⟨hfiles, hfailed, hcounts⟩

end Clean

end Deadwood
