import Deadwood.Proofs.SessionIds

/-!
# Work in one session leaves the others alone

Restoring a session changes the project, the directory of that session, and a lock file. The paths of the record
decide what is moved; as long as they lead out of the store, nothing else in the store can change.

* **`restore_worked`**: restoring a session is work in it, by whatever text it is denoted.
-/

namespace Deadwood

open List FileTree FileTask Deadwood.Path Quarantine

/-! ## What work in a session may change -/

section Workspace

variable {r : Address} {name n x : String}

theorem not_workspace_append {y : List String} (h : ¬ y <+: ["quarantine", name, "files"])
    (h' : ∀ last, last = "files" ∨ last = "manifest.json.tmp" ∨ last = "manifest.json" →
      ¬ ["quarantine", name, last] <+: y) : ¬ Workspace r name (r ++ ".deadfiles" :: y) := by
  have hstore : storeAt r <+: r ++ ".deadfiles" :: y := prefix_place (by simp)
  simp only [Workspace, filesAt, draftAt, recordAt, prefix_append_right_inj, cons_prefix_cons,
    true_and, hstore, not_true, false_or, not_or]
  exact ⟨h, h' _ (by simp), h' _ (by simp), h' _ (by simp)⟩

theorem not_workspace_other (hne : n ≠ name) (y : List String) : ¬ Workspace r name (sessionAt r n ++ y) := by
  rw [sessionAt_append]
  refine not_workspace_append (fun h => ?_) fun last _ h => ?_
  · simp only [cons_prefix_cons] at h
    exact hne h.2.1
  · simp only [cons_prefix_cons] at h
    exact hne h.2.1.symm

theorem not_workspace_inner (hx : InnerLock x) : ¬ Workspace r name (sessionAt r n ++ [x]) := by
  rw [sessionAt_append]
  refine not_workspace_append (fun h => ?_) fun last hlast h => ?_
  · simp only [cons_prefix_cons] at h
    rcases hx with rfl | rfl <;> simp at h
  · simp only [cons_prefix_cons] at h
    rcases hx with rfl | rfl <;> rcases hlast with rfl | rfl | rfl <;> simp at h

theorem not_workspace_lock (hdot : '.' ∉ name.toList) : ¬ Workspace r name (lockAt r n) := by
  have hne : n ++ ".lock" ≠ name := fun heq => hdot (by rw [← heq]; simp)
  have h := not_workspace_other (r := r) hne []
  rwa [append_nil] at h

theorem LockedAt.not_workspace {a : Address} (h : LockedAt r n a) (hdot : '.' ∉ name.toList) :
    ¬ Workspace r name a := by
  rcases h with rfl | ⟨x, hx, rfl⟩
  · exact not_workspace_lock hdot
  · exact not_workspace_inner hx

end Workspace

/-! ## Tasks that work in a session -/

section Tasks

variable {q : Quarantine} {r : Address} {id name : String} {W : Bytes → Prop} {s u : FileTree} {directory : Path}
  {moves : List (Path × Path)}

theorem WorkedIn.of_fileRestored {f : StoredFile} {result : Except RestoreProblem Unit}
    (h : FileRestored r name f s result u) (hf : f.IsTidy) (wf : s.WellFormed) : WorkedIn r name W s u := by
  cases h with
  | failed e hadd => exact aboveHome hf.outside hadd
  | moved hadd hmov _ =>
    exact (aboveHome hf.outside hadd).trans (of_sameBut (hadd.wf.transfer hmov) hf.outside
      ((SameBut.transfer hadd.wf hmov).mono fun _ => Or.symm))
  | same _ _ =>
    exact of_sameBut (wf.erase hf.stored_ne_nil) hf.outside ((SameBut.erase hf.stored_ne_nil).mono fun _ => .inr)

theorem ensures_restoreFiles_worked {files : List StoredFile} (wf : s.WellFormed) (hq : q.At r)
    (hdirectory : LeadsTo directory (sessionAt r name)) (hfiles : ∀ f ∈ files, f.IsTidy) :
    (files.mapM (q.restoreFile directory)).Ends (fun _ _ u => WorkedIn r name W s u) moves s := by
  induction files generalizing s moves with
  | nil => exact ensures_pure.2 (.refl wf)
  | cons f files ih =>
    have hf := hfiles f mem_cons_self
    rw [mapM_cons]
    refine (hf.ensures_restoreFile wf hq hdirectory).andThen fun result ms u hu => ?_
    have hu : WorkedIn r name W s u := .of_fileRestored hu hf wf
    refine (ih hu.wf (forall_mem_cons.1 hfiles).2).andThen ?_
    exact fun results ms v hv => ensures_pure.2 (hu.trans hv)

def HasRecord (r : Address) (name : String) (s : FileTree) (record : SessionRecord) : Prop :=
  ∃ contents, s.get? (recordAt r name) = some (.file contents) ∧ SessionRecord.ofContents? contents = some record

theorem HasRecord.unique {record record' : SessionRecord} (h : HasRecord r name s record)
    (h' : HasRecord r name s record') : record = record' := by
  obtain ⟨contents, hfile, hread⟩ := h
  obtain ⟨contents', hfile', hread'⟩ := h'
  rw [hfile] at hfile'
  cases hfile'
  exact Option.some.inj (hread.symm.trans hread')

def RestoredRecord (r : Address) (name : String) (s : FileTree) (contents : Bytes) : Prop :=
  ∃ record, HasRecord r name s record ∧ record.status = .active ∧
    contents = ({ record with status := .restored } : SessionRecord).contents

/-- **What is done to restore a session is work in it**, and the new record is that of a restored session. -/
theorem ensures_restoreWithin (wf : s.WellFormed) (hq : q.At r) (hdirectory : LeadsTo directory (sessionAt r name))
    (htidy : ∀ record, HasRecord r name s record → ∀ f ∈ record.files, f.IsTidy) :
    (q.restoreWithin id directory).run.Ends (fun _ _ u => WorkedIn r name (RestoredRecord r name s) s u) moves s := by
  refine ensures_run_bind ((ensures_load_iff wf hdirectory).imp ?_)
  rintro (e | record) ms t ⟨rfl, hiff⟩
  · exact .refl wf
  have hrecord : HasRecord r name t record := (hiff record).1 rfl
  cases hstatus : record.status with
  | restored =>
    simp only [hstatus, if_true]
    exact ensures_pure.2 (.refl wf)
  | active =>
    simp only [hstatus, reduceCtorEq, if_false]
    refine ensures_run_bind (ensures_monadLift ((ensures_restoreFiles_worked (W := RestoredRecord r name t) wf hq
      hdirectory (htidy record hrecord)).imp ?_))
    intro results ms v hv
    dsimp only
    split
    · refine ensures_run_bind ((ensures_save_worked hv.wf hdirectory _).imp ?_)
      rintro result ms w ⟨hw, -⟩
      have hdone : WorkedIn r name (RestoredRecord r name t) t w :=
        hv.trans (hw.mono fun contents hc => ⟨record, hrecord, hstatus, hc.2⟩)
      cases result with
      | error e => exact hdone
      | ok _ => exact ensures_pure.2 hdone
    · exact ensures_pure.2 hv

theorem run_restoreWithin_restored (wf : s.WellFormed) (hdirectory : LeadsTo directory (sessionAt r name))
    {record : SessionRecord} (hrecord : HasRecord r name s record) (hstatus : record.status = .restored) :
    (q.restoreWithin id directory).run.run s = (.error (.alreadyRestored id), s) := by
  refine Ensures.run_eq (ensures_run_bind ((ensures_load_iff wf hdirectory).imp ?_))
  rintro (e | record') ms t ⟨rfl, hiff⟩
  · cases (hiff record).2 hrecord
  have hrecord' : HasRecord r name t record' := (hiff record').1 rfl
  obtain rfl := hrecord'.unique hrecord
  simp only [hstatus, if_true]
  exact ensures_pure.2 rfl

/-! ## Locked work -/

theorem FileTree.SameBut.unlock {region : Address → Prop} {a : Address} (ha : ¬ region a)
    (h : SameBut region (s.withLock a) u) : SameBut region s { u with locks := u.locks.erase a } where
  get? := h.get?
  locks c hc := by
    have hcount := h.locks c hc
    show (u.locks.erase a).count c = s.locks.count c
    by_cases hca : c = a
    · subst hca
      rw [count_erase_self, hcount]
      show (c :: s.locks).count c - 1 = s.locks.count c
      rw [count_cons_self, Nat.add_sub_cancel]
    · rw [count_erase_of_ne hca, hcount]
      exact count_cons_of_ne (Ne.symm hca)

theorem WorkedIn.unlock {a : Address} (h : WorkedIn r name W (s.withLock a) u)
    (ha : ¬ Workspace r name a) (hp : LeadsTo p a) {contents : Bytes} (hfile : s.get? a = some (.file contents)) :
    WorkedIn r name W s (u.unlock p) := by
  have hne : a ≠ [] := fun hnil => by
    rw [hnil, get?_nil] at hfile
    cases hfile
  have hthere : u.get? a = some (.file contents) := (h.same.get? a ha).trans hfile
  rw [unlock_eq h.wf hp (h.wf.room hne hthere)]
  exact ⟨WellFormed.locks h.wf _, h.same.unlock ha, h.directory, h.record⟩

/-- **A session is restored**: there is no such session or lock file, or the lock file is touched and work is done
in the session. -/
theorem restore_worked (wf : s.WellFormed) (hq : q.At r) (hid : Denotes id name)
    (hdir : s.get? (sessionAt r name) = some .directory) (hdot : '.' ∉ name.toList)
    (htidy : ∀ record, HasRecord r name s record → ∀ f ∈ record.files, f.IsTidy) :
    ((q.restore id).run.run s).2 = s ∨ ∃ a, LockedAt r name a ∧ s.Room a ∧ s.get? a ≠ some .directory ∧
      WorkedIn r name (RestoredRecord r name s) (s.touch a) ((q.restore id).run.run s).2 := by
  obtain ⟨a, hlead, hat⟩ := hid.leadsTo_lockFile hq
  rw [run_restore wf hq hid hdir]
  rcases run_locked_cases wf hlead (hid.wantsDirectory_lockFile hq) (q.restoreWithin id (q.directory id)) with
    ⟨e, hrun⟩ | ⟨hroom, hfile, ⟨e, hrun⟩ | ⟨-, hrun⟩⟩
  · rw [hrun]
    exact .inl rfl
  · rw [hrun]
    exact .inr ⟨a, hat, hroom, hfile, .refl (wf.touch hroom)⟩
  · rw [hrun]
    refine .inr ⟨a, hat, hroom, hfile, ?_⟩
    obtain ⟨contents, htouched⟩ := exists_touch hfile hroom.ne_nil
    have hout : ¬ Workspace r name a := hat.not_workspace hdot
    have hrecord : (s.touch a).get? (recordAt r name) = s.get? (recordAt r name) :=
      (SameBut.touch hroom.ne_nil).get? _ fun heq => hout (heq ▸ .inr (.inr (.inr (.inr prefix_rfl))))
    have hsame (record : SessionRecord) :
        HasRecord r name ((s.touch a).withLock a) record ↔ HasRecord r name s record := by
      rw [HasRecord, HasRecord, get?_withLock, hrecord]
    have hdone : (q.restoreWithin id (q.directory id)).run.Ensures _ _ [] ((s.touch a).withLock a) :=
      ensures_restoreWithin ((wf.touch hroom).withLock a) hq (hid.leadsTo_directory hq)
        fun record h => htidy record ((hsame record).1 h)
    obtain ⟨_, hworked⟩ := hdone.result
    refine WorkedIn.unlock (hworked.mono ?_) hout hlead htouched
    rintro contents ⟨record, h, hstatus, hcontents⟩
    exact ⟨record, (hsame record).1 h, hstatus, hcontents⟩

end Tasks

end Deadwood
