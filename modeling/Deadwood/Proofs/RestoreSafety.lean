import Deadwood.Proofs.Filling
import Deadwood.Proofs.Restore

/-!
# Restoring in a project that has changed

When a session is restored, the project may have changed in any way. So nothing is known here of the tree but that it
is well formed, and of the record that it was made by filling a session.

* **`restore_keeps_work`**: no file is overwritten but an edited one that has not changed since, no stored file is
  lost, and the report is true.
-/

namespace Deadwood

open List FileTree FileTask Deadwood.Path Quarantine
open SessionRecord (load)

variable {moves : List (Path × Path)} {x : List String × Option Node} {p : Path} {g f : StoredFile} {q : Quarantine}
  {r : Address} {id : String} {s u : FileTree} {contents : Bytes} {files : List StoredFile}

theorem FileTask.ensures_sameContents_cases {p' : Path} {a b : Address} {s : FileTree}
    {Q : Post Bool} (wf : s.WellFormed) (hp : LeadsTo p a) (hp' : LeadsTo p' b)
    (hsame : ∀ contents, s.get? a = some (.file contents) → s.get? b = some (.file contents) → Q true moves s)
    (hdiffer : Q false moves s) : (sameContents p p').Ends Q moves s := by
  refine ensures_bind.2 (ensures_read trivial (ensures_bind.2 (ensures_read trivial ?_)))
  cases hread : s.read p with
  | error e => exact ensures_pure.2 hdiffer
  | ok old =>
    cases hread' : s.read p' with
    | error e => exact ensures_pure.2 hdiffer
    | ok new =>
      refine ensures_pure.2 ?_
      by_cases heq : old = new
      · rw [beq_iff_eq.2 heq]
        exact hsame old ((read_eq_ok_iff wf hp).1 hread).1 (heq ▸ ((read_eq_ok_iff wf hp').1 hread').1)
      · rw [beq_eq_false_iff_ne.2 heq]
        exact hdiffer

/-- A stored file that was outside the store, and is stored in the usual place. -/
structure StoredFile.IsTidy (f : StoredFile) : Prop where
  home : f.home.IsRelative f.names
  outside : IsOutside f.names
  stored : f.stored = filesDirectory.join f.home

theorem StoredFile.Logged.isTidy (h : g.Logged x) : g.IsTidy :=
  ⟨h.home, h.outside, h.stored⟩

/-- What becomes of a file that is to be put back: nothing, but for directories above it; or it is moved to its
home, where there was nothing, or an edited file that had not changed since; or it was there all the time. -/
inductive FileRestored (r : Address) (id : String) (f : StoredFile) (s : FileTree) :
    Except RestoreProblem Unit → FileTree → Prop
  | failed (e : RestoreProblem) {u : FileTree} (hadd : AddsDirectories (r ++ f.names).dropLast s u) :
      FileRestored r id f s (.error e) u
  | moved {u : FileTree} (hadd : AddsDirectories (r ++ f.names).dropLast s u)
      (hmov : u.Movable (filesAt r id ++ f.names) (r ++ f.names))
      (hfree : ∀ n, s.get? (r ++ f.names) = some n → f.edited = true ∧
        ∃ contents, n = .file contents ∧ f.writtenHash = some (fingerprint contents)) :
      FileRestored r id f s (.ok ()) (u.transfer (filesAt r id ++ f.names) (r ++ f.names))
  | same {contents : Bytes} (hstored : s.get? (filesAt r id ++ f.names) = some (.file contents))
      (hhome : s.get? (r ++ f.names) = some (.file contents)) :
      FileRestored r id f s (.ok ()) (s.erase (filesAt r id ++ f.names))

namespace StoredFile.IsTidy

variable {directory : Path}

theorem home_ne_nil (hf : f.IsTidy) : r ++ f.names ≠ [] := by simp [hf.outside.1]

theorem stored_ne_nil (hf : f.IsTidy) : filesAt r id ++ f.names ≠ [] := by simp [hf.outside.1]

theorem leadsTo_stored (hf : f.IsTidy) (hdirectory : LeadsTo directory (sessionAt r id)) :
    LeadsTo (directory.join f.stored) (filesAt r id ++ f.names) := by
  rw [hf.stored]
  exact leadsTo_storedIn hdirectory hf.home

variable (hf : f.IsTidy) (wf : s.WellFormed) (hq : q.At r) (hdirectory : LeadsTo directory (sessionAt r id))
include hf wf hq hdirectory

theorem ensures_putBack (hfree : ∀ n, s.get? (r ++ f.names) = some n →
      (f.edited = true ∧ ∃ contents, n = .file contents ∧ f.writtenHash = some (fingerprint contents)) ∨
        wantsDirectory (q.root.join f.home) = true ∧ n ≠ .directory) :
    (putBack (directory.join f.stored) (q.root.join f.home)).Ends
      (fun result _ u => FileRestored r id f s result u) moves s := by
  have hhome : LeadsTo (q.root.join f.home) (r ++ f.names) := hq.join hf.home
  have hstored := hf.leadsTo_stored hdirectory
  refine (ensures_makeDirectoriesAbove wf hhome hf.home_ne_nil).andThen ?_
  rintro (e | _) ms u ⟨-, hadd, -⟩
  · exact ensures_pure.2 (.failed _ hadd)
  refine ensures_bind.2 (ensures_moveFile hadd.wf hstored hhome (ne_filesAt _).symm trivial
    (fun e _ => ensures_pure.2 (.failed _ hadd)) fun v hv => ensures_pure.2 ?_)
  obtain ⟨hmov, hreplaces, hwants, rfl⟩ := (move_eq_ok_iff hadd.wf hstored hhome (ne_filesAt _).symm).1 hv
  refine .moved hadd hmov fun n hn => (hfree n hn).resolve_right ?_
  rintro ⟨hwant, hfile⟩
  have hkind := hreplaces _ _ (hwants (.inr hwant)) (hadd.of_some hn)
  cases n with
  | directory => exact hfile rfl
  | file contents => cases hkind

/-- **One file.** Whatever the tree, restoring a file does one of the things it may do. -/
theorem ensures_restoreFile : (q.restoreFile directory f).Ends
      (fun result _ u => FileRestored r id f s result u) moves s := by
  have hhome : LeadsTo (q.root.join f.home) (r ++ f.names) := hq.join hf.home
  have hstored := hf.leadsTo_stored hdirectory
  have hnothing (e : RestoreProblem) : FileRestored r id f s (.error e) s := .failed e (.refl wf)
  unfold restoreFile
  refine ensures_bind.2 (ensures_bind.2 (ensures_status trivial (ensures_pure.2 ?_)))
  cases s.find (directory.join f.stored) with
  | error e => exact ensures_pure.2 (hnothing _)
  | ok x =>
    refine ensures_bind.2 (ensures_bind.2 (ensures_status trivial (ensures_pure.2 ?_)))
    cases hfind : s.find (q.root.join f.home) with
    | error e =>
      refine hf.ensures_putBack wf hq hdirectory fun n hn => .inr ?_
      cases hwant : wantsDirectory (q.root.join f.home) with
      | false =>
        rw [exists_find wf hhome hn (by simp [hwant])] at hfind
        cases hfind
      | true =>
        refine ⟨rfl, fun hdir => ?_⟩
        rw [exists_find wf hhome hn fun _ => hdir] at hfind
        cases hfind
    | ok y =>
      refine ensures_bind.2 (ensures_sameContents_cases wf hstored hhome (fun contents hold hnew => ?_) ?_)
      · refine ensures_bind.2 (ensures_removeFile trivial (fun e _ => ensures_pure.2 (hnothing _)) fun u hu => ?_)
        obtain ⟨-, -, rfl⟩ := (removeFile_eq_ok_iff wf hstored).1 hu
        exact ensures_pure.2 (.same hold hnew)
      cases hedited : f.edited with
      | false => exact ensures_pure.2 (hnothing _)
      | true =>
        refine ensures_bind.2 (ensures_read trivial ?_)
        cases hread : s.read (q.root.join f.home) with
        | error e => exact ensures_pure.2 (hnothing _)
        | ok current =>
          obtain ⟨hfile, -⟩ := (read_eq_ok_iff wf hhome).1 hread
          by_cases hhash : f.writtenHash = some (fingerprint current)
          · simp only [beq_iff_eq.2 hhash, if_true]
            refine hf.ensures_putBack wf hq hdirectory fun n hn => .inl ⟨hedited, current, ?_, hhash⟩
            exact Option.some.inj (hn.symm.trans hfile)
          · simp only [beq_eq_false_iff_ne.2 hhash, Bool.false_eq_true, if_false]
            exact ensures_pure.2 (hnothing _)

end StoredFile.IsTidy

/-! ## What is kept -/

namespace FileRestored

variable {result : Except RestoreProblem Unit} {c : Address} {m : List String}

section

variable (h : FileRestored r id f s result u) (hf : f.IsTidy)
include h hf

theorem wf (hs : s.WellFormed) : u.WellFormed := by
  cases h with
  | failed e hadd => exact hadd.wf
  | moved hadd hmov _ => exact hadd.wf.transfer hmov
  | same _ _ => exact hs.erase hf.stored_ne_nil

theorem get?_store (hc : storeAt r <+: c) (hstored : ¬ filesAt r id ++ f.names <+: c) : u.get? c = s.get? c := by
  cases h with
  | failed e hadd => exact hadd.same.get? c (hf.outside.not_prefix_above hc)
  | moved hadd hmov _ =>
    rw [get?_transfer_rest hadd.wf hmov hstored (hf.outside.not_above_store hc)]
    exact hadd.same.get? c (hf.outside.not_prefix_above hc)
  | same _ _ => exact (SameBut.erase hf.stored_ne_nil).get? c hstored

theorem file_kept (hc : ¬ storeAt r <+: c) (hfile : s.get? c = some (.file contents)) :
    u.get? c = some (.file contents) ∨
      f.edited = true ∧ c = r ++ f.names ∧ f.writtenHash = some (fingerprint contents) := by
  have hstored : ¬ filesAt r id ++ f.names <+: c := fun hp => hc ((store_prefix_files _).trans hp)
  cases h with
  | failed e hadd => exact .inl (hadd.of_some hfile)
  | moved hadd hmov hfree =>
    by_cases hhome : r ++ f.names <+: c
    · -- there is nothing below a file
      obtain rfl := hmov.eq_of_prefix (by rw [hadd.of_some hfile]; rfl) hhome
      obtain ⟨hedited, _, hn, hhash⟩ := hfree _ hfile
      cases hn
      exact .inr ⟨hedited, rfl, hhash⟩
    · rw [get?_transfer_rest hadd.wf hmov hstored hhome]
      exact .inl (hadd.of_some hfile)
  | same _ _ => exact .inl (((SameBut.erase hf.stored_ne_nil).get? c hstored).trans hfile)

theorem stored_kept (hs : s.WellFormed) (hfile : s.get? (filesAt r id ++ m) = some (.file contents)) :
    u.get? (filesAt r id ++ m) = some (.file contents) ∨
      u.get? (filesAt r id ++ m) = none ∧ u.get? (r ++ m) = some (.file contents) := by
  by_cases hm : f.names <+: m
  · obtain ⟨x, rfl⟩ := hm
    rw [← append_assoc] at hfile
    rw [← append_assoc, ← append_assoc]
    cases h with
    | failed e hadd => exact .inl (hadd.of_some hfile)
    | moved hadd hmov _ =>
      rw [get?_transfer_source hadd.wf hmov, get?_transfer_target hadd.wf hmov]
      exact .inr ⟨rfl, hadd.of_some hfile⟩
    | same hstored hhome =>
      have hx : x = [] := by
        by_contra hx
        rw [hs.get?_below_file hx hstored] at hfile
        cases hfile
      subst hx
      rw [append_nil] at hfile ⊢
      rw [append_nil, get?_erase hf.stored_ne_nil, if_pos prefix_rfl,
        (SameBut.erase hf.stored_ne_nil).get? _ (hf.outside.not_files_prefix prefix_rfl),
        hhome, ← hstored, hfile]
      exact .inr ⟨rfl, rfl⟩
  · rw [h.get?_store hf (store_prefix_files m) fun hp => hm ((prefix_append_right_inj _).1 hp)]
    exact .inl hfile

theorem home_kept (hm : IsOutside m) (hnone : s.get? (filesAt r id ++ m) = none)
    (hfile : s.get? (r ++ m) = some (.file contents)) :
    u.get? (filesAt r id ++ m) = none ∧ u.get? (r ++ m) = some (.file contents) := by
  have hstore : storeAt r <+: filesAt r id ++ m := store_prefix_files m
  have hsource : ¬ filesAt r id ++ f.names <+: r ++ m := hm.not_files_prefix prefix_rfl
  cases h with
  | failed e hadd => exact ⟨(hadd.same.get? _ (hf.outside.not_prefix_above hstore)).trans hnone, hadd.of_some hfile⟩
  | moved hadd hmov _ =>
    have hnone' := (hadd.same.get? _ (hf.outside.not_prefix_above hstore)).trans hnone
    constructor
    · rw [get?_transfer hadd.wf hmov, if_neg (hf.outside.not_above_store hstore), hnone', ite_self]
    · have hhome : ¬ r ++ f.names <+: r ++ m := fun hp => by
        have heq := hmov.eq_of_prefix (by rw [hadd.of_some hfile]; rfl) hp
        have hsome := hmov.source
        rw [← append_cancel_left heq, hnone'] at hsome
        cases hsome
      rw [get?_transfer_rest hadd.wf hmov hsource hhome, hadd.of_some hfile]
  | same _ _ =>
    rw [get?_erase hf.stored_ne_nil, get?_erase hf.stored_ne_nil, if_neg hsource, hnone, ite_self]
    exact ⟨rfl, hfile⟩

end

/-- **A file that is reported as restored is at home as it was stored.** -/
theorem of_ok (h : FileRestored r id f s (.ok ()) u) (hf : f.IsTidy) (hs : s.WellFormed) :
    (s.get? (filesAt r id ++ f.names)).isSome ∧
      ∀ x, u.get? (r ++ f.names ++ x) = s.get? (filesAt r id ++ f.names ++ x) := by
  cases h with
  | @moved v hadd hmov _ =>
    have hstored (x : List String) : v.get? (filesAt r id ++ f.names ++ x) =
        s.get? (filesAt r id ++ f.names ++ x) := by
      rw [append_assoc]
      exact hadd.same.get? _ (hf.outside.not_prefix_above (store_prefix_files _))
    have hsource := hstored []
    rw [append_nil] at hsource
    exact ⟨hsource ▸ hmov.source, fun x => (get?_transfer_target hadd.wf hmov x).trans (hstored x)⟩
  | same hstored hhome =>
    refine ⟨by rw [hstored]; rfl, fun x => ?_⟩
    rw [get?_erase hf.stored_ne_nil, if_neg (hf.outside.not_files_prefix (prefix_append _ x))]
    by_cases hx : x = []
    · rw [hx, append_nil, append_nil, hhome, hstored]
    · rw [hs.get?_below_file hx hhome, hs.get?_below_file hx hstored]

/-- **A file that is reported as failed is as it was, and so is its home.** -/
theorem of_error {e : RestoreProblem} (h : FileRestored r id f s (.error e) u) (hf : f.IsTidy) (x : List String) :
    u.get? (r ++ f.names ++ x) = s.get? (r ++ f.names ++ x) ∧
      u.get? (filesAt r id ++ f.names ++ x) = s.get? (filesAt r id ++ f.names ++ x) := by
  cases h with
  | failed e hadd =>
    rw [append_assoc (filesAt r id)]
    exact ⟨hadd.same.get? _ (not_prefix_dropLast hf.home_ne_nil (prefix_append _ x)),
      hadd.same.get? _ (hf.outside.not_prefix_above (store_prefix_files _))⟩

end FileRestored

/-! ## One file after the other -/

theorem FileTask.run_mapM_getElem? {α β : Type} (g : α → FileTask β) {l : List α} {i : Nat} {a : α} (h : l[i]? = some a)
    (s : FileTree) : ((l.mapM g).run s).1[i]? = some ((g a).run (((l.take i).mapM g).run s).2).1 ∧
      (((l.take (i + 1)).mapM g).run s).2 = ((g a).run (((l.take i).mapM g).run s).2).2 := by
  have hcons (b : α) (l : List α) (s : FileTree) : ((b :: l).mapM g).run s =
      (((g b).run s).1 :: ((l.mapM g).run ((g b).run s).2).1, ((l.mapM g).run ((g b).run s).2).2) := by
    rw [mapM_cons, run_bind, run_bind]
    rfl
  induction l generalizing i s with
  | nil => cases h
  | cons b l ih =>
    cases i with
    | zero =>
      cases h
      rw [take_succ_cons, take_zero, hcons, hcons]
      exact ⟨rfl, rfl⟩
    | succ i =>
      rw [take_succ_cons, take_succ_cons, hcons, hcons, hcons, getElem?_cons_succ]
      exact ih h _

namespace Quarantine

variable {n : Nat}

def restoreResults (q : Quarantine) (id : String) (files : List StoredFile) (s : FileTree) :
    List (Except RestoreProblem Unit) :=
  ((files.mapM (q.restoreFile (q.directory id))).run ((q.lock id).run.run s).2).1

/-- The tree when the session is locked and the first `n` files have been dealt with. -/
def restoring (q : Quarantine) (id : String) (files : List StoredFile) (s : FileTree) (n : Nat) : FileTree :=
  (((files.take n).mapM (q.restoreFile (q.directory id))).run ((q.lock id).run.run s).2).2

theorem restoring_succ (h : files[n]? = some f) : q.restoring id files s (n + 1) =
    ((q.restoreFile (q.directory id) f).run (q.restoring id files s n)).2 :=
  (run_mapM_getElem? _ h _).2

theorem restoring_induction {P : FileTree → Prop} (hlocked : P ((q.lock id).run.run s).2)
    (hstep : ∀ f ∈ files, ∀ u, P u → P ((q.restoreFile (q.directory id) f).run u).2) (n : Nat) :
    P (q.restoring id files s n) := by
  have hnil (u : FileTree) : ((([] : List StoredFile).mapM (q.restoreFile (q.directory id))).run u).2 = u := rfl
  induction n with
  | zero =>
    rw [restoring, take_zero, hnil]
    exact hlocked
  | succ n ih =>
    cases hf : files[n]? with
    | none =>
      have hlen := List.getElem?_eq_none_iff.1 hf
      have hsame : q.restoring id files s (n + 1) = q.restoring id files s n := by
        rw [restoring, restoring, take_of_length_le hlen, take_of_length_le (Nat.le_succ_of_le hlen)]
      rw [hsame]
      exact ih
    | some f =>
      rw [restoring_succ hf]
      exact hstep f (mem_of_getElem? hf) _ ih

section

variable (wf : s.WellFormed) (hq : q.At r) (hid : IsName id)
include wf hq hid

theorem ensures_lock_sameBut : (q.lock id).run.Ends (fun _ _ u => u.WellFormed ∧
      ∀ c, c ≠ lockAt r id → u.get? c = s.get? c) moves s := by
  refine ensures_run_bind (ensures_ofFiles (FileTask.ensures_lock trivial (fun e _ => ⟨wf, fun _ _ => rfl⟩)
    fun free u hu => ?_))
  obtain ⟨hroom, -, -, rfl⟩ := (lock_eq_ok_iff wf (leadsTo_lockFile hq hid) (wantsDirectory_lockFile hq hid)).1 hu
  have hlocked : ∀ locks : List Address, ({ s.touch (lockAt r id) with locks } : FileTree).WellFormed ∧
      ∀ c, c ≠ lockAt r id → ({ s.touch (lockAt r id) with locks } : FileTree).get? c = s.get? c := fun locks =>
    ⟨WellFormed.locks (wf.touch hroom) _, fun c hc => (SameBut.touch hroom.ne_nil).get? c hc⟩
  cases free <;> exact ensures_pure.2 (hlocked _)

theorem ensures_existingDirectory_ok : (q.existingDirectory id).run.Ends
      (fun result _ u => u = s ∧ ∀ directory, result = .ok directory → directory = q.directory id) moves s := by
  unfold existingDirectory
  rw [components_of_isName hid]
  refine ensures_run_bind (ensures_monadLift (ensures_isDirectory wf (leadsTo_directory hq hid) trivial ?_))
  by_cases hdir : s.get? (sessionAt r id) = some .directory
  · rw [decide_eq_true hdir]
    refine ensures_pure.2 ⟨rfl, fun directory h => ?_⟩
    cases h
    rfl
  · rw [decide_eq_false hdir]
    refine ensures_pure.2 ⟨rfl, fun directory h => ?_⟩
    cases h

theorem ensures_restoreFiles_wf (hfiles : ∀ f ∈ files, f.IsTidy) :
    (files.mapM (q.restoreFile (q.directory id))).Ends (fun _ _ u => u.WellFormed) moves s := by
  induction files generalizing s moves with
  | nil => exact ensures_pure.2 wf
  | cons f files ih =>
    have hf := hfiles f mem_cons_self
    rw [mapM_cons]
    refine (hf.ensures_restoreFile wf hq (leadsTo_directory hq hid)).andThen fun result ms u hu => ?_
    refine (ih (hu.wf hf wf) (forall_mem_cons.1 hfiles).2).andThen ?_
    exact fun results ms v hv => ensures_pure.2 hv

end

/-- What is left when a session is restored and `report` is returned: the tree after the last file, with a new
record if any file is back or none failed. -/
structure Reported (q : Quarantine) (r : Address) (id : String) (record : SessionRecord) (s : FileTree)
    (report : RestoreReport) (u : FileTree) : Prop where
  wf : u.WellFormed
  active : record.status = .active
  results : report = .ofResults (record.files.zip (q.restoreResults id record.files s))
  same : ∀ c, ¬ (draftAt r id <+: c ∨ recordAt r id <+: c) →
    u.get? c = (q.restoring id record.files s record.files.length).get? c
  unsaved : report.restored = [] → report.failed ≠ [] →
    ∀ c, u.get? c = (q.restoring id record.files s record.files.length).get? c

theorem ensures_restore_reported (wf : s.WellFormed) (hq : q.At r) (hid : IsName id) {record : SessionRecord}
    (hload : answer s (load (q.directory id)).run = .ok record)
    (hfiles : ∀ f ∈ record.files, f.IsTidy) : (q.restore id).run.Ends
      (fun result _ u => ∀ report, result = .ok report → Reported q r id record s report u) moves s := by
  refine ensures_run_bind ((ensures_existingDirectory_ok wf hq hid).imp ?_)
  rintro (e | directory) ms t ⟨rfl, hdirectory⟩
  · exact fun report h => by cases h
  obtain rfl := hdirectory directory rfl
  refine ensures_run_bind ((ensures_lock_sameBut wf hq hid).run.imp ?_)
  rintro (e | _) ms u ⟨⟨hu, hsame⟩, hlocked⟩
  · exact fun report h => by cases h
  refine ensures_run_bind (Ensures.bind (I := fun _ _ => True) (Q := fun result _ u =>
    ∀ report, result = .ok report → Reported q r id record t report u) ?_ (fun _ _ _ => trivial) ?_)
  · refine ensures_run_bind ((ensures_load_iff hu (leadsTo_directory hq hid)).imp ?_)
    rintro (e | record') ms _ ⟨rfl, hiff⟩
    · exact fun report h => by cases h
    have hrecord : record' = record := by
      obtain ⟨contents, hfile, hcontents⟩ := (load_eq_ok_iff wf hq hid).1 hload
      obtain ⟨contents', hfile', hcontents'⟩ := (hiff record').1 rfl
      rw [hsame _ (by simp [recordAt, lockAt]), hfile] at hfile'
      cases hfile'
      exact Option.some.inj (hcontents'.symm.trans hcontents)
    subst hrecord
    by_cases hstatus : record'.status = .restored
    · simp only [hstatus, if_true]
      exact ensures_pure.2 fun report h => by cases h
    simp only [hstatus, if_false]
    have hactive : record'.status = .active := by
      cases hcase : record'.status with
      | active => rfl
      | restored => exact absurd hcase hstatus
    refine ensures_run_bind (ensures_monadLift ((ensures_restoreFiles_wf hu hq hid hfiles).run.imp ?_))
    rintro results ms v ⟨hv, hrun⟩
    have hresults : results = q.restoreResults id record'.files t := by rw [restoreResults, hlocked, hrun]
    have htree : v = q.restoring id record'.files t record'.files.length := by
      rw [restoring, take_length, hlocked, hrun]
    subst hresults htree
    dsimp only
    split
    · rename_i hsave
      refine ensures_run_bind ((ensures_save_sameBut hv (leadsTo_directory hq hid) _).imp ?_)
      rintro (e | _) ms w ⟨hwf, hw, -⟩
      · exact fun report h => by cases h
      · refine ensures_pure.2 fun report h => ?_
        cases h
        refine ⟨hwf, hactive, rfl, hw.get?, fun hrestored hfailed => ?_⟩
        simp [hrestored, hfailed] at hsave
    · refine ensures_pure.2 fun report h => ?_
      cases h
      exact ⟨hv, hactive, rfl, fun _ _ => rfl, fun _ _ _ => rfl⟩
  · rintro result ms v hv
    refine ensures_pure.2 (ensures_run_bind (ensures_monadLift (ensures_unlock trivial ?_)))
    refine ensures_pure.2 fun report h => ?_
    obtain ⟨hwf, hactive, hresults, hsame, hunsaved⟩ := hv report h
    exact ⟨hwf.unlock _, hactive, hresults, fun c hc => (get?_unlock _ c).trans (hsame c hc),
      fun hrestored hfailed c => (get?_unlock _ c).trans (hunsaved hrestored hfailed c)⟩

end Quarantine

/-! ## The whole session -/

section Session

theorem StoredFile.IsTidy.fileRestored (hf : f.IsTidy) (wf : s.WellFormed) (hq : q.At r)
    (hid : IsName id) : FileRestored r id f s ((q.restoreFile (q.directory id) f).run s).1
      ((q.restoreFile (q.directory id) f).run s).2 := by
  have h : (q.restoreFile (q.directory id) f).Ensures _ _ [] s :=
    hf.ensures_restoreFile wf hq (leadsTo_directory hq hid)
  exact h.result.choose_spec

section

variable (wf : s.WellFormed) (hq : q.At r) (hid : IsName id)
include wf hq hid

theorem locked_spec : ((q.lock id).run.run s).2.WellFormed ∧
      ∀ c, c ≠ lockAt r id → ((q.lock id).run.run s).2.get? c = s.get? c := by
  have h : (q.lock id).run.Ensures _ _ [] s := Quarantine.ensures_lock_sameBut wf hq hid
  exact h.result.choose_spec

variable (hfiles : ∀ f ∈ files, f.IsTidy)
include hfiles

theorem restoring_keeps {P : FileTree → Prop} (hlocked : P ((q.lock id).run.run s).2)
    (hstep : ∀ f ∈ files, ∀ u result v, u.WellFormed → FileRestored r id f u result v → P u → P v) (n : Nat) :
    (q.restoring id files s n).WellFormed ∧ P (q.restoring id files s n) := by
  refine restoring_induction (P := fun u => u.WellFormed ∧ P u) ⟨(locked_spec wf hq hid).1, hlocked⟩
    (fun f hf u hu => ?_) n
  have hdone := (hfiles f hf).fileRestored hu.1 hq hid
  exact ⟨hdone.wf (hfiles f hf) hu.1, hstep f hf u _ _ hu.1 hdone hu.2⟩

theorem file_restoring {c : Address} (hc : ¬ storeAt r <+: c) (hfile : s.get? c = some (.file contents)) (n : Nat) :
    (q.restoring id files s n).get? c = some (.file contents) ∨
      ∃ f ∈ files, f.edited = true ∧ c = r ++ f.names ∧ f.writtenHash = some (fingerprint contents) := by
  have hlock : c ≠ lockAt r id := fun heq => hc (heq ▸ prefix_place (by simp))
  refine (restoring_keeps (P := fun u => u.get? c = some (.file contents) ∨
    ∃ f ∈ files, f.edited = true ∧ c = r ++ f.names ∧ f.writtenHash = some (fingerprint contents)) wf hq hid hfiles
    (.inl (((locked_spec wf hq hid).2 c hlock).trans hfile)) (fun f hf u result v _ hdone hu => ?_) n).2
  rcases hu with hkept | hedited
  · exact (hdone.file_kept (hfiles f hf) hc hkept).imp_right fun h => ⟨f, hf, h⟩
  · exact .inr hedited

theorem stored_restoring {m : List String} (hm : IsOutside m)
    (hfile : s.get? (filesAt r id ++ m) = some (.file contents)) (n : Nat) :
    (q.restoring id files s n).get? (filesAt r id ++ m) = some (.file contents) ∨
      (q.restoring id files s n).get? (filesAt r id ++ m) = none ∧
        (q.restoring id files s n).get? (r ++ m) = some (.file contents) := by
  have hlock : filesAt r id ++ m ≠ lockAt r id := fun heq => by
    rw [filesAt, lockAt, append_assoc] at heq
    simpa using append_cancel_left heq
  refine (restoring_keeps (P := fun u => u.get? (filesAt r id ++ m) = some (.file contents) ∨
    u.get? (filesAt r id ++ m) = none ∧ u.get? (r ++ m) = some (.file contents)) wf hq hid hfiles
    (.inl (((locked_spec wf hq hid).2 _ hlock).trans hfile)) (fun f hf u result v hu hdone hcase => ?_) n).2
  rcases hcase with hstored | ⟨hnone, hhome⟩
  · exact hdone.stored_kept (hfiles f hf) hu hstored
  · exact .inr (hdone.home_kept (hfiles f hf) hm hnone hhome)

theorem record_restoring (n : Nat) :
    (q.restoring id files s n).get? (recordAt r id) = s.get? (recordAt r id) := by
  have hstore : storeAt r <+: recordAt r id := prefix_place (by simp)
  refine (restoring_keeps (P := fun u => u.get? (recordAt r id) = s.get? (recordAt r id)) wf hq hid hfiles
    ((locked_spec wf hq hid).2 _ (by simp [recordAt, lockAt])) (fun f hf u result v _ hdone hu => ?_) n).2
  exact (hdone.get?_store (hfiles f hf) hstore (not_prefix_files (by simp))).trans hu

/-- **The report is true.** Between one file and the next: a file that is reported as restored is at home as it was
stored, and of a file that is reported as failed nothing has changed. -/
theorem results_restoring {i : Nat} (hf : files[i]? = some f) :
    ∃ result, (q.restoreResults id files s)[i]? = some result ∧
      (result = .ok () → ((q.restoring id files s i).get? (filesAt r id ++ f.names)).isSome ∧
        ∀ x, (q.restoring id files s (i + 1)).get? (r ++ f.names ++ x) =
          (q.restoring id files s i).get? (filesAt r id ++ f.names ++ x)) ∧
      (result ≠ .ok () → ∀ x, (q.restoring id files s (i + 1)).get? (r ++ f.names ++ x) =
          (q.restoring id files s i).get? (r ++ f.names ++ x) ∧
        (q.restoring id files s (i + 1)).get? (filesAt r id ++ f.names ++ x) =
          (q.restoring id files s i).get? (filesAt r id ++ f.names ++ x)) := by
  have htidy := hfiles f (mem_of_getElem? hf)
  have hwf := (restoring_keeps (P := fun _ => True) wf hq hid hfiles trivial (fun _ _ _ _ _ _ _ _ => trivial) i).1
  have hdone := htidy.fileRestored hwf hq hid
  rw [← restoring_succ hf] at hdone
  refine ⟨((q.restoreFile (q.directory id) f).run (q.restoring id files s i)).1, (run_mapM_getElem? _ hf _).1,
    fun hok => ?_, fun herror x => ?_⟩
  · rw [hok] at hdone
    exact hdone.of_ok htidy hwf
  · generalize ((q.restoreFile (q.directory id) f).run (q.restoring id files s i)).1 = result at hdone herror
    cases result with
    | ok _ => exact absurd rfl herror
    | error e => exact hdone.of_error htidy x

end

/-- **Restoring a session keeps all work.** Let a session be filled with files, and let it be restored in any
tree that still has its record. Then, if a report is returned,

* every file outside the store is as it was, unless it is an edited file with the contents that were written;
* every stored file is at home or still stored;
* a file that is reported as restored is then at home as it was stored, and a file that is reported as failed
  has not changed, nor has its home;
* if some files failed and none is back, the session is still active. -/
theorem restore_keeps_work {t : FileTree} (ht : t.WellFormed) (hq : LeadsTo q.root r) {start : SessionRecord}
    (hid : IsName start.id) (hempty : start.files = []) {filling : Filling}
    (hrun : Relation.ReflTransGen (Filling.Step r) ⟨⟨q, start, []⟩, t, []⟩ filling)
    (hs : s.WellFormed) (hload : answer s (load (q.directory start.id)).run = .ok filling.session.record)
    {report : RestoreReport} (hreport : answer s (q.restore start.id).run = .ok report) :
    let files := filling.session.record.files
    let results := q.restoreResults start.id files s
    let tree := q.restoring start.id files s
    let after := ((q.restore start.id).run.run s).2
    (∀ c contents, ¬ storeAt r <+: c → s.get? c = some (.file contents) → after.get? c = some (.file contents) ∨
      ∃ f ∈ files, f.edited = true ∧ c = r ++ f.names ∧ f.writtenHash = some (fingerprint contents)) ∧
    (∀ f ∈ files, ∀ contents, s.get? (filesAt r start.id ++ f.names) = some (.file contents) →
      after.get? (r ++ f.names) = some (.file contents) ∨
        after.get? (filesAt r start.id ++ f.names) = some (.file contents)) ∧
    report = .ofResults (files.zip results) ∧
    (∀ (i : Nat) f, files[i]? = some f → ∃ result, results[i]? = some result ∧
      (result = .ok () → ((tree i).get? (filesAt r start.id ++ f.names)).isSome ∧
        ∀ x, (tree (i + 1)).get? (r ++ f.names ++ x) = (tree i).get? (filesAt r start.id ++ f.names ++ x)) ∧
      (result ≠ .ok () → ∀ x, (tree (i + 1)).get? (r ++ f.names ++ x) = (tree i).get? (r ++ f.names ++ x) ∧
        (tree (i + 1)).get? (filesAt r start.id ++ f.names ++ x) =
          (tree i).get? (filesAt r start.id ++ f.names ++ x))) ∧
    (report.restored = [] → report.failed ≠ [] →
      answer after (load (q.directory start.id)).run = .ok filling.session.record ∧
        filling.session.record.status = .active) := by
  intro files results tree after
  have hsound : filling.Sound q r start.id := (Filling.Sound.start ht hempty).run hq hid hrun
  have hfiles : ∀ f ∈ files, f.IsTidy := fun f hf => by
    obtain ⟨x, -, hlogged⟩ := hsound.exists_logged hf
    exact hlogged.isTidy
  have hdone : (q.restore start.id).run.Ensures _ _ [] s := ensures_restore_reported hs hq hid hload hfiles
  obtain ⟨_, hreported⟩ := hdone.result
  obtain ⟨hwf, hactive, hresults, hsame, hunsaved⟩ := hreported report hreport
  -- the record and its draft are in the store, and not among the stored files
  have houtside {c : Address} (hc : ¬ storeAt r <+: c) : after.get? c = (tree files.length).get? c :=
    hsame c fun h => hc (h.elim (prefix_place (by simp)).trans (prefix_place (by simp)).trans)
  have hstored (m : List String) : after.get? (filesAt r start.id ++ m) =
      (tree files.length).get? (filesAt r start.id ++ m) :=
    hsame _ (not_or.2 ⟨not_prefix_filesAt (by simp), not_prefix_filesAt (by simp)⟩)
  refine ⟨fun c contents hc hfile => ?_, fun f hf contents hfile => ?_, hresults,
    fun i f hf => results_restoring hs hq hid hfiles hf, fun hrestored hfailed => ⟨?_, hactive⟩⟩
  · rw [houtside hc]
    exact file_restoring hs hq hid hfiles hc hfile _
  · have hm := (hfiles f hf).outside
    rw [houtside (hm.not_storeAt_prefix_of_prefix List.prefix_rfl), hstored]
    exact (stored_restoring hs hq hid hfiles hm hfile _).symm.imp_left And.right
  · refine (load_eq_ok_iff hwf hq hid).2 ?_
    rw [hunsaved hrestored hfailed, record_restoring hs hq hid hfiles]
    exact (load_eq_ok_iff hs hq hid).1 hload

end Session

theorem Recorded.perform_moveIn {t : FileTree} {q : Quarantine} {r : Address} {id : String} {now : Moment}
    {f : Filling} (h : Recorded t q r id now f.session moves f.tree)
    (hq : q.At r) (hid : IsName id) {m : List String} (hp : p.IsRelative m) (hm : IsOutside m) :
    ∃ moves', Recorded t q r id now (f.perform r (OpenSession.moveIn p)).session moves'
      (f.perform r (OpenSession.moveIn p)).tree := by
  have hmoved : (f.session.fill (OpenSession.moveIn p)).Ensures _ _ moves f.tree := h.moveIn hq hid hp (.inr hm)
  simp only [Filling.perform]
  exact hmoved.result

theorem recorded_emptyFilling : Recorded emptyFilling.tree ⟨⟨"/p"⟩⟩ ["p"] "S" ⟨0, 0, 0⟩ emptyFilling.session
    [recordMove ⟨⟨"/p"⟩⟩ "S"] emptyFilling.tree where
  quarantine := rfl
  tree := ⟨(Untouched.refl (by decide)).kept, by decide, by decide, rfl, by decide, ⟨[], by decide⟩, by decide⟩
  fits := ⟨rfl, rfl, rfl, by simp [emptyFilling], rfl, rfl⟩
  unedited := by simp [emptyFilling]
  backedUp := rfl
  last := rfl

theorem restore_keeps_work_onceMoved :
    let q : Quarantine := ⟨⟨"/p"⟩⟩
    let s : FileTree := { onceMoved.tree with locks := [] }
    onceMoved.log = [(["a.js"], some (.file [111]))] ∧ ∃ report,
      answer s (load (q.directory "S")).run = .ok onceMoved.session.record ∧
      answer s (q.restore "S").run = .ok report ∧
      ∀ f ∈ onceMoved.session.record.files, ∀ contents,
        s.get? (filesAt ["p"] "S" ++ f.names) = some (.file contents) →
        ((q.restore "S").run.run s).2.get? (["p"] ++ f.names) = some (.file contents) ∨
          ((q.restore "S").run.run s).2.get? (filesAt ["p"] "S" ++ f.names) = some (.file contents) := by
  intro q s
  have hroot : pathOf ["p"] = q.root := congrArg Path.mk (by decide)
  have hq : LeadsTo q.root ["p"] := hroot ▸ leadsTo_pathOf (by decide)
  have hid : IsName "S" := by decide
  have hwf : emptyFilling.tree.WellFormed := by decide
  obtain ⟨_, hrecorded⟩ : ∃ moves, Recorded emptyFilling.tree q ["p"] "S" ⟨0, 0, 0⟩ onceMoved.session moves
      onceMoved.tree :=
    recorded_emptyFilling.perform_moveIn hq hid (isRelative_of_isName (by decide)) (by decide : IsOutside ["a.js"])
  -- once the lock is gone, the session can be restored
  have hsession : InSession emptyFilling.tree ["p"] "S" (some onceMoved.session.record)
      (onceMoved.session.record.files ++ []) 0 s := by
    rw [List.append_nil]
    exact hrecorded.tree.withLocks []
  have hw : onceMoved.session.record.Writable :=
    hrecorded.fits.writable hwf (by decide +kernel) ⟨by decide, by decide, by decide⟩ hsession.kept
  have hload : (load (q.directory "S")).run.Ensures _ _ [] s := hsession.ensures_load hq hid hw
  have hrestore : (q.restore "S").run.Ensures _ _ [] s := hsession.ensures_restore hwf hq hid hw hrecorded.fits.status
  obtain ⟨_, hload, -⟩ := hload.result
  obtain ⟨_, hreport, -⟩ := hrestore.result
  rw [← answer] at hload hreport
  exact ⟨twiceMoved_spec.1, _, hload, hreport, (restore_keeps_work hwf hq hid rfl run_onceMoved hsession.kept.wf
    hload hreport).2.1⟩

end Deadwood
