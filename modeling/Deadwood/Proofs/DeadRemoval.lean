import Deadwood.Proofs.CleanRestore

/-!
# Removing the dead files only

A live file imports live files only. So if just the dead files are removed, no import is left to prune, and
cleaning writes nothing but the record of its session.

* **`clean_dead_edits_nothing`**: cleaning without further files edits no file.
-/

namespace Deadwood

open List FileTree FileTask Deadwood.Path OpenSession

variable {i : Nat} {s : Scan}

/-! ## Nothing to prune -/

namespace Graph

variable {g : Graph} {removed : List Nat}

theorem staleImports_eq_nil {unit : Nat} (h : ∀ j, g.Imports unit j → j ∉ removed) (u : SourceUnit) :
    g.staleImports removed unit u = [] := by
  have hedges : ((g.edgesFrom unit).filter fun e => removed.contains e.target) = [] := by
    rw [filter_eq_nil_iff]
    intro e he htarget
    obtain ⟨he, hsource⟩ := mem_filter.1 he
    exact h e.target ⟨e, he, beq_iff_eq.1 hsource, rfl⟩ (contains_iff_mem.1 htarget)
  have hsites : g.staleSites removed unit = [] := by
    rw [staleSites, hedges]
    rfl
  rw [staleImports, hsites]
  rfl

theorem pruningPlans_eq_nil (h : ∀ i j, i ∉ removed → g.Imports i j → j ∉ removed) : g.pruningPlans removed = [] := by
  rw [pruningPlans, filterMap_eq_nil_iff]
  rintro ⟨u, i⟩ hx
  have hstays : i ∉ removed := by simpa using (mem_filter.1 hx).2
  simp only [staleImports_eq_nil fun j => h i j hstays]

/-- **What is reached imports nothing that is not**, so that nothing is to be pruned. -/
theorem pruningPlans_dead {entries : List Nat} (hpaths : DistinctPaths g.units) (hremoved : ∀ i, i ∈ removed ↔
      ∃ u, g.units[i]? = some u ∧ (Reachability.ofGraph g entries).dead.contains u.relative = true) :
    g.pruningPlans removed = [] := by
  refine pruningPlans_eq_nil fun i j hi hij hj => ?_
  obtain ⟨e, he, rfl, rfl⟩ := hij
  obtain ⟨u, hu⟩ : ∃ u, g.units[e.source]? = some u :=
    ⟨_, getElem?_eq_getElem (g.within e he).2.1⟩
  obtain ⟨v, hv, hdead⟩ := (hremoved e.target).1 hj
  have hlive : e.source ∈ g.reachableUnits entries := by
    by_contra hnot
    exact hi ((hremoved e.source).2 ⟨u, hu, (Reachability.dead_contains_iff hpaths hu).2 hnot⟩)
  exact (Reachability.dead_contains_iff hpaths hv).1 hdead (reachable_of_imports hlive ⟨e, he, rfl, rfl⟩)

end Graph

theorem Scan.mem_deadUnits : i ∈ s.deadUnits ↔
    ∃ u, s.graph.units[i]? = some u ∧ s.reachability.dead.contains u.relative = true := by
  simp only [deadUnits, mem_map, mem_filter, Prod.exists, exists_eq_right, mem_zipIdx_iff_getElem?]

theorem Scan.mem_removal_nil : i ∈ (s.removal []).1 ↔ i ∈ s.deadUnits := by
  rw [removal, mem_mergeSort, mem_eraseDups, filterMap_nil, append_nil]

/-! ## What a task does -/

namespace FileTask

variable {α β : Type} {P : FileOp → Prop} {Q : α → Prop}

/-- Whatever it is answered, the task carries out operations that satisfy `P` only, and ends with a result that
satisfies `Q`. -/
def Always (P : FileOp → Prop) (Q : α → Prop) : FileTask α → Prop
  | done a => Q a
  | step op next => P op ∧ ∀ answer, Always P Q (next answer)

theorem always_pure {a : α} : (pure a : FileTask α).Always P Q ↔ Q a := Iff.rfl

theorem always_step (op : FileOp) {Q : op.Answer → Prop} (hP : P op) (hQ : ∀ answer, Q answer) :
    (step op done).Always P Q := ⟨hP, hQ⟩

theorem always_step_bind {op : FileOp} {f : op.Answer → FileTask α} (hP : P op)
    (hf : ∀ answer, (f answer).Always P Q) : (step op done >>= f).Always P Q := ⟨hP, hf⟩

theorem Always.bind {task : FileTask α} {f : α → FileTask β} {Q' : β → Prop} (h : task.Always P Q)
    (hf : ∀ a, Q a → (f a).Always P Q') : (task >>= f).Always P Q' := by
  induction task with
  | done a => exact hf a h
  | step op next ih => exact ⟨h.1, fun answer => ih answer (h.2 answer)⟩

theorem Always.mono {task : FileTask α} {R : α → Prop} (h : task.Always P Q) (hQ : ∀ a, Q a → R a) :
    task.Always P R := by
  induction task with
  | done a => exact hQ a h
  | step op next ih => exact ⟨h.1, fun answer => ih answer (h.2 answer)⟩

theorem Always.result {task : FileTask α} (h : task.Always P Q) (t : FileTree) : Q (answer t task) := by
  induction task generalizing t with
  | done a => exact h
  | step op next ih => exact ih _ (h.2 _) _

-- from here on the rules are used
attribute [irreducible] Always

/-! ### Tasks that may fail, and tasks that fill a session -/

theorem always_run_bind {x : QuarantineTask α} {f : α → QuarantineTask β} {Q' : Except QuarantineError β → Prop}
    (h : x.run.Always P fun result => ∀ a, result = .ok a → Q a)
    (hf : ∀ a, Q a → (f a).run.Always P Q') (herror : ∀ e, Q' (.error e)) :
    (x >>= f).run.Always P Q' := by
  rw [ExceptT.run_bind]
  refine h.bind fun result hresult => ?_
  cases result with
  | ok a => exact hf a (hresult a rfl)
  | error e => exact always_pure.2 (herror e)

theorem always_monadLift {task : FileTask α} (h : task.Always P Q) : (monadLift task : QuarantineTask α).run.Always P
      fun result => ∀ a, result = .ok a → Q a := by
  refine h.bind fun a ha => always_pure.2 fun b hb => ?_
  cases hb
  exact ha

theorem always_ofFiles {task : FileTask (Except FileError α)} (h : task.Always P fun _ => True) :
    (QuarantineTask.ofFiles task).run.Always P fun _ => True :=
  h.bind fun result _ => by cases result <;> exact always_pure.2 trivial

variable {s : OpenSession} {Good : OpenSession → Prop}

theorem always_fill_bind {x : FillingTask α} {f : α → FillingTask β}
    (h : (s.fill x).Always P fun result => Good result.2)
    (hf : ∀ a s, Good s → (s.fill (f a)).Always P fun result => Good result.2) :
    (s.fill (x >>= f)).Always P fun result => Good result.2 := by
  rw [fill_bind]
  refine h.bind fun result hgood => ?_
  cases hresult : result.1 with
  | ok a => exact hf a result.2 hgood
  | error e => exact always_pure.2 hgood

theorem always_get_bind {f : OpenSession → FillingTask β} {Q : Except QuarantineError β × OpenSession → Prop}
    (h : (s.fill (f s)).Always P Q) : (s.fill (get >>= f)).Always P Q := by
  rw [fill_bind]
  exact h

theorem always_modify_bind {g : OpenSession → OpenSession} {f : Unit → FillingTask β}
    {Q : Except QuarantineError β × OpenSession → Prop} (h : ((g s).fill (f ())).Always P Q) :
    (s.fill (modify g >>= f)).Always P Q := by
  rw [fill_bind]
  exact h

theorem always_fill_lift {task : QuarantineTask α} (hs : Good s) (h : task.run.Always P fun _ => True) :
    (s.fill (lift task)).Always P fun result => Good result.2 :=
  h.bind fun _ _ => always_pure.2 hs

end FileTask

/-! ## Sessions without edited files -/

/-- If the operation is to write a file, it writes the record of a session without edited files to its draft. -/
def FileOp.WritesUnedited (q : Quarantine) : FileOp → Prop
  | .write path contents => ∃ record : SessionRecord, record.editedFiles = [] ∧
      path = (q.directory record.id).join recordDraft ∧ contents = record.contents
  | _ => True

def OpenSession.IsUnedited (q : Quarantine) (s : OpenSession) : Prop :=
  s.quarantine = q ∧ s.record.editedFiles = []

section Unedited

variable {q : Quarantine} {s : OpenSession} {record : SessionRecord} {f : StoredFile}

theorem SessionRecord.editedFiles_add (h : record.editedFiles = [])
    (hf : f.edited = false) : (record.add f).editedFiles = [] := by
  rw [editedFiles, files_add, filter_append, ← editedFiles, h]
  simp [hf]

theorem always_makeDirectoriesWithin (fuel : Nat) (p : Path) :
    (makeDirectoriesWithin fuel p).Always (FileOp.WritesUnedited q) fun _ => True := by
  have hcheck (p : Path) (e : FileError) :
      (do return if ← isDirectory p then .ok () else .error e : FileTask (Except FileError Unit)).Always
        (FileOp.WritesUnedited q) fun _ => True := by
    refine Always.bind (Q := fun _ => True) (always_step_bind trivial fun result => ?_) fun _ _ => always_pure.2 trivial
    cases result <;> exact always_pure.2 trivial
  induction fuel generalizing p with
  | zero => exact always_pure.2 trivial
  | succ fuel ih =>
    rw [makeDirectoriesWithin]
    refine always_step_bind trivial fun result => ?_
    split
    · exact always_pure.2 trivial
    · split
      · exact always_pure.2 trivial
      · split
        · exact always_pure.2 trivial
        · refine (ih _).bind fun result _ => ?_
          split
          · exact always_pure.2 trivial
          · refine always_step_bind trivial fun result => ?_
            split
            · exact always_pure.2 trivial
            · exact hcheck p _
    · exact hcheck p _

theorem always_makeDirectoriesAbove (p : Path) :
    (makeDirectoriesAbove p).Always (FileOp.WritesUnedited q) fun _ => True := by
  unfold makeDirectoriesAbove
  split
  · exact always_makeDirectoriesWithin _ _
  · exact always_pure.2 trivial

theorem always_moveFile (p p' : Path) : (moveFile p p').Always (FileOp.WritesUnedited q) fun _ => True := by
  refine always_step_bind trivial fun result => ?_
  cases result with
  | ok _ => exact always_pure.2 trivial
  | error e =>
    refine always_step_bind trivial fun result => ?_
    cases result with
    | ok _ => exact always_step (.removeFile _) trivial fun _ => trivial
    | error _ => exact always_pure.2 trivial

theorem always_removeEmptyBelow (root : Path) (fuel : Nat) (directory : Option Path) :
    (removeEmptyBelow root fuel directory).Always (FileOp.WritesUnedited q) fun _ => True := by
  induction fuel generalizing directory with
  | zero => exact always_pure.2 trivial
  | succ fuel ih =>
    cases directory with
    | none => exact always_pure.2 trivial
    | some directory =>
      rw [removeEmptyBelow]
      split
      · exact always_pure.2 trivial
      · refine always_step_bind trivial fun result => ?_
        cases result with
        | ok _ => exact ih _
        | error _ => exact always_pure.2 trivial

theorem always_save (h : record.editedFiles = []) :
    (record.save (q.directory record.id)).run.Always (FileOp.WritesUnedited q) fun _ => True := by
  refine always_run_bind (Q := fun _ => True) ?_ (fun _ _ => ?_) fun _ => trivial
  · refine Always.bind (Q := fun _ => True) (always_step (.write _ _) ⟨record, h, rfl, rfl⟩ fun _ => trivial)
      fun result _ => ?_
    cases result <;> exact always_pure.2 fun _ _ => trivial
  · exact always_ofFiles (always_step (.move _ _) trivial fun _ => trivial)

theorem always_lock (id : String) : (q.lock id).run.Always (FileOp.WritesUnedited q) fun _ => True := by
  refine always_run_bind (Q := fun _ => True) ?_ (fun free _ => ?_) fun _ => trivial
  · refine Always.bind (Q := fun _ => True) (always_step (.lock _) trivial fun _ => trivial) fun result _ => ?_
    cases result <;> exact always_pure.2 fun _ _ => trivial
  · cases free <;> exact always_pure.2 trivial

theorem always_reserveNameWithin (stamp : String) (fuel attempt : Nat) :
    (q.reserveNameWithin stamp fuel attempt).run.Always (FileOp.WritesUnedited q) fun _ => True := by
  induction fuel generalizing attempt with
  | zero => exact always_pure.2 trivial
  | succ fuel ih =>
    rw [Quarantine.reserveNameWithin]
    refine always_run_bind (always_monadLift (Q := fun _ => True)
      (always_step (.makeDirectory _) trivial fun _ => trivial))
      (fun result _ => ?_) fun _ => trivial
    split
    · exact always_pure.2 trivial
    · exact ih _
    · exact always_pure.2 trivial

theorem always_reserveName (stamp : String) :
    (q.reserveName stamp).run.Always (FileOp.WritesUnedited q) fun _ => True :=
  always_run_bind (Q := fun _ => True)
    ((always_ofFiles (always_step (.list _) trivial fun _ => trivial)).mono fun _ _ _ _ => trivial)
    (fun _ _ => always_reserveNameWithin _ _ _) fun _ => trivial

theorem always_openSession (now : Moment) : (q.openSession now).run.Always (FileOp.WritesUnedited q)
    fun result => ∀ session, result = .ok session → session.IsUnedited q := by
  have hany {α : Type} {task : QuarantineTask α} (h : task.run.Always (FileOp.WritesUnedited q) fun _ => True) :
      task.run.Always (FileOp.WritesUnedited q) fun result => ∀ a, result = .ok a → True :=
    h.mono fun _ _ _ _ => trivial
  have hfail (e : QuarantineError) (session : OpenSession) (h : .error e = (.ok session : Except _ _)) :
      session.IsUnedited q := by
    cases h
  refine always_run_bind (hany (always_ofFiles (always_makeDirectoriesWithin _ _))) (fun _ _ => ?_) hfail
  refine always_run_bind (hany (always_reserveName _)) (fun id _ => ?_) hfail
  refine always_run_bind (hany (always_lock id)) (fun _ _ => ?_) hfail
  refine always_run_bind (Q := fun _ => True) ?_ (fun _ _ => ?_) hfail
  · refine hany (Always.bind (Q := fun _ => True) ?_ fun result _ => ?_)
    · exact always_run_bind (hany (always_ofFiles (always_makeDirectoriesWithin _ _)))
        (fun _ _ => always_save rfl) fun _ => trivial
    · cases result with
      | ok _ => exact always_pure.2 trivial
      | error e => exact always_step_bind trivial fun _ => always_pure.2 trivial
  · refine always_pure.2 fun session hsession => ?_
    cases hsession
    exact ⟨rfl, rfl⟩

theorem OpenSession.IsUnedited.add (h : s.IsUnedited q) (hf : f.edited = false) :
    (s.fill (add f)).Always (FileOp.WritesUnedited q) fun result => result.2.IsUnedited q := by
  have hrecord := SessionRecord.editedFiles_add h.2 hf
  refine always_modify_bind (always_get_bind (always_fill_lift ⟨h.1, hrecord⟩ ?_))
  rw [directory, h.1]
  exact always_save hrecord

/-- **Moving a file in leaves a session without edited files**, whether it succeeds or fails. -/
theorem OpenSession.IsUnedited.moveIn (h : s.IsUnedited q) (path : Path) :
    (s.fill (moveIn path)).Always (FileOp.WritesUnedited q) fun result => result.2.IsUnedited q := by
  have hfiles {α : Type} {task : FileTask (Except FileError α)}
      (htask : task.Always (FileOp.WritesUnedited q) fun _ => True) (s : OpenSession) (hs : s.IsUnedited q) :
      (s.fill (files task)).Always (FileOp.WritesUnedited q) fun result => result.2.IsUnedited q :=
    always_fill_lift hs (always_ofFiles htask)
  have hstatus (p : Path) : (status p).Always (FileOp.WritesUnedited q) fun _ => True :=
    always_step (.status p) trivial fun _ => trivial
  refine always_get_bind ?_
  refine always_fill_bind (hfiles (hstatus _) s h) fun status s' h => ?_
  refine always_fill_bind (hfiles (always_makeDirectoriesAbove _) s' h) fun _ s' h => ?_
  refine always_fill_bind (hfiles (always_moveFile _ _) s' h) fun _ s' h => ?_
  refine always_fill_bind (h.add rfl) fun _ s' h => always_fill_lift h ?_
  exact (always_monadLift (always_removeEmptyBelow _ _ _)).mono fun _ _ => trivial

theorem OpenSession.IsUnedited.removeUnits (h : s.IsUnedited q) (report : CleanReport)
    (us : List SourceUnit) : (Scan.removeUnits s report us).Always (FileOp.WritesUnedited q) fun result =>
      result.1.importsPruned = report.importsPruned ∧ result.1.reExportsPruned = report.reExportsPruned := by
  induction us generalizing s report with
  | nil => exact always_pure.2 ⟨rfl, rfl⟩
  | cons u us ih =>
    refine (h.moveIn u.relative).bind fun result hresult => ?_
    obtain ⟨result, s'⟩ := result
    cases result with
    | ok _ => exact ih hresult (report.addFile u)
    | error e => exact ih hresult (report.addFailure u.relative e.message)

end Unedited

theorem Scan.always_clean {extra : List Path} (hplans : s.graph.pruningPlans (s.removal extra).1 = [])
    (now : Moment) : (s.clean now extra).run.Always (FileOp.WritesUnedited ⟨s.root⟩) fun result =>
      ∀ report, result = .ok report → report.importsPruned = 0 ∧ report.reExportsPruned = 0 := by
  unfold Scan.clean
  dsimp only
  split
  · refine always_pure.2 fun report hreport => ?_
    cases hreport
    exact ⟨rfl, rfl⟩
  rw [hplans]
  refine always_run_bind (always_openSession now) (fun session hsession => ?_) nofun
  refine always_run_bind (always_monadLift (hsession.removeUnits _ _)) (fun result hresult => ?_) nofun
  refine always_run_bind (always_monadLift (Q := fun x => x.1.importsPruned = 0 ∧ x.1.reExportsPruned = 0)
    (always_pure.2 hresult)) (fun result hresult => ?_) nofun
  refine always_run_bind (Q := fun _ => True) ?_ (fun _ _ => ?_) nofun
  · exact always_monadLift (always_step_bind trivial fun _ => always_pure.2 trivial)
  · refine always_pure.2 fun report hreport => ?_
    cases hreport
    exact hresult

/-- **Cleaning without further files edits no file.** If the units to remove are the dead ones, there is nothing to
prune. So whatever the file system answers, cleaning writes records without edited files only, and reports that
nothing was pruned; and the record that it leaves in a project that was scanned has no edited file. -/
theorem clean_dead_edits_nothing [TreeReader] {s : Scan} {entries : List Nat} (hpaths : DistinctPaths s.graph.units)
    (hdead : s.reachability = .ofGraph s.graph entries) :
    (∀ removed, (∀ i, i ∈ removed ↔
        ∃ u, s.graph.units[i]? = some u ∧ s.reachability.dead.contains u.relative = true) →
      s.graph.pruningPlans removed = []) ∧
    (∀ now, (s.clean now []).run.Always (FileOp.WritesUnedited ⟨s.root⟩) fun _ => True) ∧
    (∀ now t report, answer t (s.clean now []).run = .ok report →
      report.importsPruned = 0 ∧ report.reExportsPruned = 0) ∧
    (∀ t config directory, t.WellFormed → answer t (scan config directory) = .ok s → ∃ r, s.IsOutcomeOf t r) ∧
    ∀ t r now report id, t.WellFormed → t.weight < 2 ^ 64 → now.IsValid → s.IsOutcomeOf t r →
      answer t (s.clean now []).run = .ok report → report.sessionId = some id →
        ∃ record, answer ((s.clean now []).run.run t).2
            (SessionRecord.load ((Quarantine.mk s.root).directory id)).run = .ok record ∧
          record.editedFiles = [] := by
  have hplans : ∀ removed, (∀ i, i ∈ removed ↔
      ∃ u, s.graph.units[i]? = some u ∧ s.reachability.dead.contains u.relative = true) →
      s.graph.pruningPlans removed = [] := by
    rw [hdead]
    exact fun removed hremoved => Graph.pruningPlans_dead hpaths hremoved
  have hnone : s.graph.pruningPlans (s.removal []).1 = [] :=
    hplans _ fun i => Scan.mem_removal_nil.trans Scan.mem_deadUnits
  refine ⟨hplans, fun now => (Scan.always_clean hnone now).mono fun _ _ => trivial,
    fun now t => (Scan.always_clean hnone now).result t, fun t _ _ wf hscan => isOutcomeOf_scan wf hscan, ?_⟩
  intro t r now report id wf hweight hnow hs hclean hid
  obtain ⟨-, hname, record, htree, hfits, hedited⟩ := hs.leftBy wf hclean hid
  have hkept : Holding t ((s.clean now []).run.run t).2 r id (record.files ++ []) := by
    rw [List.append_nil]
    exact htree.kept
  have hload : (SessionRecord.load ((Quarantine.mk s.root).directory id)).run.Ensures _ _ [] _ :=
    htree.ensures_load hs.root hname (hfits.writable wf hweight hnow hkept)
  obtain ⟨_, hload, -⟩ := hload.result
  refine ⟨record, hload, List.filter_eq_nil_iff.2 fun f hf he => ?_⟩
  have hplan := hedited f hf he
  rw [hnone] at hplan
  cases hplan

/-- Neither script is an entry point, so both are dead; the import of the one by the other is left in place. -/
theorem clean_dead_edits_nothing_importing :
    let s : Scan := { importingScan with reachability := .ofGraph importingScan.graph [] }
    let tree := importingTree (some (.file [10]))
    DistinctPaths s.graph.units ∧ (s.graph.edge? 0 1).any (·.sites.length == 1) ∧ s.deadUnits = [0, 1] ∧
      s.graph.pruningPlans [0, 1] = [] ∧ ∃ report id record,
        answer tree (s.clean ⟨20000, 0, 0⟩ []).run = .ok report ∧ report.filesRemoved = 2 ∧
        report.sessionId = some id ∧ answer ((s.clean ⟨20000, 0, 0⟩ []).run.run tree).2
            (SessionRecord.load ((Quarantine.mk s.root).directory id)).run = .ok record ∧
          record.editedFiles = [] := by
  intro s tree
  have hdead : s.deadUnits = [0, 1] := by decide
  have hpaths : DistinctPaths s.graph.units := by decide
  have hentries : s.reachability = .ofGraph s.graph [] := rfl
  obtain ⟨hplans, -, -, -, hrecord⟩ := clean_dead_edits_nothing hpaths hentries
  have hnone := hplans [0, 1] fun i => by
    rw [← hdead]
    exact Scan.mem_deadUnits
  have hremoval : s.removal [] = ([0, 1], []) := by
    rw [Scan.removal, hdead]
    exact congrArg (·, []) (mergeSort_of_pairwise (by decide))
  have hrun : ((answer tree (s.clean ⟨20000, 0, 0⟩ []).run).toOption.any fun report =>
      report.filesRemoved = 2 ∧ report.sessionId.isSome) = true := by
    rw [Scan.clean, hremoval]
    decide +kernel
  obtain ⟨report, hreport, hcounts⟩ := (Option.any_eq_true _ _).1 hrun
  obtain ⟨hfiles, hsome⟩ := of_decide_eq_true hcounts
  obtain ⟨id, hid⟩ := Option.isSome_iff_exists.1 hsome
  have hclean := eq_ok_of_toOption hreport
  have hs := isOutcomeOf_importingScan
  obtain ⟨record, hload, hedited⟩ := hrecord tree ["p"] ⟨20000, 0, 0⟩ report id (by decide) (by decide)
    ⟨by decide, by decide, by decide⟩ ⟨hs.root, hs.there, fun hr => ⟨(hs.found hr).names, (hs.found hr).found⟩⟩
    hclean hid
  exact ⟨hpaths, by decide, hdead, hnone, report, id, record, hclean, hfiles, hid, hload, hedited⟩

end Deadwood
