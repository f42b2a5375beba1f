import Deadwood.Proofs.Filling
import Deadwood.Proofs.Partition
import Deadwood.Proofs.Places

/-!
# Calls that fail

A file is moved into a session, or backed up, in several steps. Any of them may fail, and then the call does not undo
those before it.

* **`failed_filling`**: what is left of a call that fails, and when a file that counts as backed up is recorded.
-/

namespace Deadwood

open List FileTree FileTask Deadwood.Path OpenSession SessionRecord

variable {r : Address} {replacement : Bytes} {result : Except QuarantineError Unit} {t u : FileTree}
  {failed : List Path} {s s' : OpenSession} {path : Path} {record : SessionRecord} {id : String}

namespace OpenSession

def homeOf (s : OpenSession) (path : Path) : Path := s.quarantine.root.join (s.relative path)

def keepOf (s : OpenSession) (path : Path) : Path := s.directory.join (filesDirectory.join (s.relative path))

def recording (s : OpenSession) (f : StoredFile) : OpenSession := { s with record := s.record.add f }

def asked (s : OpenSession) (path : Path) : OpenSession := { s with backedUp := s.relative path :: s.backedUp }

def entry (s : OpenSession) (path : Path) (size : Nat) : StoredFile :=
  { home := s.relative path, stored := filesDirectory.join (s.relative path), size }

def editedEntry (s : OpenSession) (path : Path) (size : Nat) (replacement : Bytes) : StoredFile :=
  { home := s.relative path, stored := filesDirectory.join (s.relative path), size, edited := true,
    writtenHash := some (fingerprint replacement) }

/-- The session with a new fingerprint for a file that it has been asked to keep before. -/
def rehashed (s : OpenSession) (path : Path) (replacement : Bytes) : OpenSession :=
  { s with record := withHash s.record (s.relative path) (fingerprint replacement) }

end OpenSession

/-! ## What a call may do -/

/-- What a call to move a file in may have done to a session and a tree. -/
inductive MoveInOutcome (s : OpenSession) (r : Address) (path : Path) (t : FileTree) :
    Except QuarantineError Unit × OpenSession → FileTree → Prop
  | missing {e : QuarantineError} : MoveInOutcome s r path t (.error e, s) t
  | unmoved {e : QuarantineError} {made u : FileTree} (hsource : (t.get? (s.homeOf path).place).isSome)
      (hmade : Made (s.keepOf path) t made) (hwf : u.WellFormed)
      (hsame : ∀ c, c ≠ (s.keepOf path).place → u.get? c = made.get? c) :
      MoveInOutcome s r path t (.error e, s) u
  | unsaved {e : QuarantineError} {made moved u : FileTree} (size : Nat)
      (hsource : (t.get? (s.homeOf path).place).isSome) (hmade : Made (s.keepOf path) t made)
      (hmoved : Carried (s.homeOf path).place (s.keepOf path).place made moved)
      (hsaved : Saving (s.record.add (s.entry path size)) (sessionAt r s.record.id) moved (.error e) u) :
      MoveInOutcome s r path t (.error e, s.recording (s.entry path size)) u
  | moved {made moved saved u : FileTree} (size : Nat) (hsource : (t.get? (s.homeOf path).place).isSome)
      (hmade : Made (s.keepOf path) t made)
      (hmoved : Carried (s.homeOf path).place (s.keepOf path).place made moved)
      (hsaved : Saving (s.record.add (s.entry path size)) (sessionAt r s.record.id) moved (.ok ()) saved)
      (hemptied : Emptied (s.homeOf path) saved u) :
      MoveInOutcome s r path t (.ok (), s.recording (s.entry path size)) u

inductive BackUpOutcome (s : OpenSession) (r : Address) (path : Path) (replacement : Bytes) (t : FileTree) :
    Except QuarantineError Unit × OpenSession → FileTree → Prop
  /-- The session has been asked to keep the file before, and gets a new fingerprint only. -/
  | again {result : Except QuarantineError Unit} {u : FileTree} (hasked : s.backedUp.contains (s.relative path) = true)
      (hsaved : Saving (s.rehashed path replacement).record (sessionAt r s.record.id) t result u) :
      BackUpOutcome s r path replacement t (result, s.rehashed path replacement) u
  | uncopied {e : QuarantineError} {made u : FileTree} (hasked : s.backedUp.contains (s.relative path) = false)
      (hmade : Made (s.keepOf path) t made) (hwf : u.WellFormed)
      (hsame : ∀ c, c ≠ (s.keepOf path).place → u.get? c = made.get? c) :
      BackUpOutcome s r path replacement t (.error e, s.asked path) u
  | copied {result : Except QuarantineError Unit} {made copied u : FileTree} {contents bytes : Bytes} {size : Nat}
      (hasked : s.backedUp.contains (s.relative path) = false) (hmade : Made (s.keepOf path) t made)
      (hfile : made.get? (s.homeOf path).place = some (.file contents))
      (hbytes : bytes = if (s.homeOf path).place = (s.keepOf path).place then [] else contents)
      (hsize : size = bytes.length) (hwf : copied.WellFormed)
      (hkept : copied.get? (s.keepOf path).place = some (.file bytes))
      (hsame : ∀ c, c ≠ (s.keepOf path).place → copied.get? c = made.get? c)
      (hsaved : Saving (s.record.add (s.editedEntry path size replacement)) (sessionAt r s.record.id)
        copied result u) :
      BackUpOutcome s r path replacement t (result, (s.asked path).recording (s.editedEntry path size replacement)) u

namespace OpenSession

variable {s : OpenSession} {r : Address} {t : FileTree}

theorem isAbsolute_homeOf (hroot : s.quarantine.At r) (path : Path) : (s.homeOf path).isAbsolute = true :=
  isAbsolute_join hroot.absolute

theorem leadsTo_sessionDirectory (hroot : s.quarantine.At r) (hid : IsName s.record.id) :
    LeadsTo s.directory (sessionAt r s.record.id) :=
  leadsTo_directory hroot hid

theorem isAbsolute_keepOf (hroot : s.quarantine.At r) (hid : IsName s.record.id) (path : Path) :
    (s.keepOf path).isAbsolute = true :=
  isAbsolute_join (leadsTo_sessionDirectory hroot hid).absolute

theorem endures_add {f : StoredFile} {Q : Final (Except QuarantineError Unit × OpenSession)}
    (h : ((s.record.add f).save s.directory).run.Endures (fun result => Q (result, s.recording f)) t) :
    (s.fill (add f)).Endures Q t := by
  have hdir : (s.recording f).directory = s.directory := by
    rw [directory, directory, recording, id_add]
  refine endures_modify_bind (endures_get_bind (endures_fill_lift ?_))
  show ((s.recording f).record.save (s.recording f).directory).run.Endures (fun result => Q (result, s.recording f)) t
  rw [hdir]
  exact h

/-- **A call to move a file in ends in one of these ways**, whichever operations fail. -/
theorem endures_moveIn (hroot : s.quarantine.At r) (hid : IsName s.record.id) (wf : t.WellFormed)
    (path : Path) : (s.fill (moveIn path)).Endures (MoveInOutcome s r path t) t := by
  have hhome := isAbsolute_homeOf hroot path
  have hkeep := isAbsolute_keepOf hroot hid path
  have hdirectory := leadsTo_sessionDirectory hroot hid
  refine endures_get_bind ?_
  refine endures_files_bind (R := fun result u => u = t ∧ ∀ status, result = .ok status →
      (t.get? (s.homeOf path).place).isSome)
    (endures_status (fun e => ⟨rfl, nofun⟩) fun a n hn => ⟨rfl, fun status _ => ?_⟩) ?_ ?_
  · rw [((reaches_place wf hhome).find hn).2.1]
    rfl
  · rintro e u ⟨rfl, -⟩
    exact .missing
  rintro status u ⟨rfl, hsource⟩
  have hsource := hsource status rfl
  refine endures_files_bind (endures_makeDirectoriesAbove wf hkeep)
    (fun e made hmade => .unmoved hsource hmade hmade.wf fun _ _ => rfl) fun _ made hmade => ?_
  refine endures_files_bind (endures_moveFile hmade.wf hhome hkeep)
    (fun e u hu => .unmoved hsource hmade hu.1 hu.2) fun _ moved hmoved => ?_
  have hsave := endures_save hmoved.wf hdirectory (s.record.add (s.entry path status.size))
  refine endures_fill_bind (endures_add (f := s.entry path status.size) (Q := fun result u =>
      result.2 = s.recording (s.entry path status.size) ∧ Saving (s.record.add (s.entry path status.size))
        (sessionAt r s.record.id) moved result.1 u) (hsave.mono fun _ _ h => ⟨rfl, h⟩)) ?_ ?_
  · rintro e s' u ⟨rfl, hsaved⟩
    exact .unsaved status.size hsource hmade hmoved hsaved
  · rintro a s' saved ⟨rfl, hsaved⟩
    refine endures_fill_lift (endures_monadLift ((endures_removeEmptyBelow (p := s.homeOf path) hsaved.1
      hroot.absolute _ fun d hd => prefix_of_parent? hd).mono fun _ u hu => ?_))
    exact .moved status.size hsource hmade hmoved hsaved hu

/-- **A call to back a file up ends in one of these ways**, whichever operations fail. -/
theorem endures_backUp (hroot : s.quarantine.At r) (hid : IsName s.record.id) (wf : t.WellFormed)
    (path : Path) (replacement : Bytes) :
    (s.fill (backUp path replacement)).Endures (BackUpOutcome s r path replacement t) t := by
  have hhome := isAbsolute_homeOf hroot path
  have hkeep := isAbsolute_keepOf hroot hid path
  have hdirectory := leadsTo_sessionDirectory hroot hid
  refine endures_get_bind ?_
  dsimp only
  split
  · rename_i hasked
    refine endures_set_bind (endures_get_bind (endures_fill_lift ?_))
    exact (endures_save wf hdirectory (s.rehashed path replacement).record).mono fun _ _ h => .again hasked h
  · rename_i hasked
    rw [Bool.not_eq_true] at hasked
    refine endures_set_bind ?_
    refine endures_files_bind (endures_makeDirectoriesAbove wf hkeep)
      (fun e made hmade => .uncopied hasked hmade hmade.wf fun _ _ => rfl) fun _ made hmade => ?_
    refine endures_files_bind (R := fun result u => (∀ e, result = .error e → u.WellFormed ∧
          ∀ c, c ≠ (s.keepOf path).place → u.get? c = made.get? c) ∧
        ∀ size, result = .ok size → made.copy (s.homeOf path) (s.keepOf path) = .ok (size, u))
      (endures_copy (fun e u hu => ⟨fun _ _ => same_of_mayWrite hmade.wf hkeep hu, nofun⟩)
        fun size u hu => ⟨nofun, fun size' hsize => ?_⟩) ?_ ?_
    · cases hsize
      exact hu
    · rintro e u ⟨hu, -⟩
      obtain ⟨hwf, hsame⟩ := hu e rfl
      exact .uncopied hasked hmade hwf hsame
    · rintro size copied ⟨-, hcopy⟩
      obtain ⟨contents, hfile, -, hsize, hwrite⟩ :=
        (reaches_place hmade.wf hhome).copy (reaches_place hmade.wf hkeep) (hcopy size rfl)
      obtain ⟨hwf, -, hkept, hsame⟩ := room_of_write hmade.wf hkeep hwrite
      have hsave := endures_save hwf hdirectory (s.record.add (s.editedEntry path size replacement))
      refine endures_add (s := s.asked path) (f := s.editedEntry path size replacement) (hsave.mono fun _ _ h => ?_)
      exact .copied hasked hmade hfile rfl hsize hwf hkept hsame h

end OpenSession

/-! ## Files that are elsewhere -/

/-- All files are where they were, but for those at and below `a`, which are at and below `b` now. Nothing is said
of the addresses that are exempt, nor, if the two are the same, of that one. -/
structure Relocated (exempt : Address → Prop) (a b : Address) (t u : FileTree) : Prop where
  files : a ≠ b → ∀ c bytes, ¬ exempt c → (u.get? c = some (.file bytes) ↔
    (∃ x, c = b ++ x ∧ t.get? (a ++ x) = some (.file bytes)) ∨ (¬ a <+: c ∧ ¬ b <+: c ∧ t.get? c = some (.file bytes)))
  gone : a ≠ b → ∀ x, ¬ exempt (a ++ x) → u.get? (a ++ x) = none
  same : a = b → ∀ c bytes, c ≠ a → ¬ exempt c → (u.get? c = some (.file bytes) ↔ t.get? c = some (.file bytes))

theorem FileTree.Carried.relocated {exempt : Address → Prop} {a b : Address} {p : Path} {made moved : FileTree}
    (h : Carried a b made moved) (hmade : Made p t made)
    (hfiles : ∀ c bytes, ¬ exempt c → (u.get? c = some (.file bytes) ↔ moved.get? c = some (.file bytes)))
    (hnone : ∀ c, ¬ exempt c → moved.get? c = none → u.get? c = none) : Relocated exempt a b t u where
  files hab c bytes hc := by
    rw [hfiles c bytes hc]
    by_cases hb : b <+: c
    · obtain ⟨x, rfl⟩ := hb
      rw [h.target hab, hmade.file_iff]
      constructor
      · exact fun hfile => .inl ⟨x, rfl, hfile⟩
      · rintro (⟨y, hy, hfile⟩ | ⟨-, hb, -⟩)
        · rwa [append_cancel_left hy]
        · exact absurd (prefix_append b x) hb
    by_cases ha : a <+: c
    · obtain ⟨x, rfl⟩ := ha
      rw [h.gone hab]
      constructor
      · exact nofun
      · rintro (⟨y, hy, -⟩ | ⟨ha, -⟩)
        · exact absurd ⟨y, hy.symm⟩ hb
        · exact absurd (prefix_append a x) ha
    · rw [h.rest c ha hb, hmade.file_iff]
      constructor
      · exact fun hfile => .inr ⟨ha, hb, hfile⟩
      · rintro (⟨y, hy, -⟩ | ⟨-, -, hfile⟩)
        · exact absurd ⟨y, hy.symm⟩ hb
        · exact hfile
  gone hab x hx := hnone _ hx (h.gone hab x)
  same hab c bytes hne hc := by
    rw [hfiles c bytes hc, ← hmade.file_iff (c := c)]
    by_cases ha : a <+: c
    · obtain ⟨x, rfl⟩ := ha
      rw [h.stays hab x fun hx => hne (by rw [hx, append_nil])]
    · rw [h.rest c ha (hab ▸ ha)]

/-! ## Entries of edited files -/

def SessionRecord.HasEdited (record : SessionRecord) (path : Path) : Prop :=
  ∃ f ∈ record.files, f.edited = true ∧ (f.home == path) = true

theorem SessionRecord.HasEdited.add (h : record.HasEdited path) (f : StoredFile) : (record.add f).HasEdited path := by
  obtain ⟨g, hg, hpath⟩ := h
  exact ⟨g, by rw [files_add]; exact mem_append_left _ hg, hpath⟩

theorem SessionRecord.HasEdited.congr {path' : Path} (h : record.HasEdited path)
    (hpath : (path == path') = true) : record.HasEdited path' := by
  obtain ⟨g, hg, hedited, hhome⟩ := h
  exact ⟨g, hg, hedited, Path.beq_iff.2 ((Path.beq_iff.1 hhome).trans (Path.beq_iff.1 hpath))⟩

theorem SessionRecord.exists_mem_withHash {f : StoredFile} (hf : f ∈ record.files) (relative : Path) (hash : String) :
    ∃ g ∈ (withHash record relative hash).files, g.edited = f.edited ∧ g.home = f.home := by
  have hmem : f.withoutHash ∈ (withHash record relative hash).files.map StoredFile.withoutHash :=
    withHash_files record relative hash ▸ mem_map_of_mem hf
  obtain ⟨g, hg, heq⟩ := mem_map.1 hmem
  exact ⟨g, hg, (congrArg StoredFile.edited heq :), (congrArg StoredFile.home heq :)⟩

theorem SessionRecord.HasEdited.withHash (h : record.HasEdited path)
    (relative : Path) (hash : String) : (withHash record relative hash).HasEdited path := by
  obtain ⟨f, hf, hpath⟩ := h
  obtain ⟨g, hg, hedited, hhome⟩ := exists_mem_withHash hf relative hash
  refine ⟨g, hg, ?_⟩
  rw [hedited, hhome]
  exact hpath

theorem SessionRecord.HasEdited.exists_hash (h : record.HasEdited path)
    (hash : String) : ∃ f ∈ (OpenSession.withHash record path hash).files,
      f.edited = true ∧ (f.home == path) = true ∧ f.writtenHash = some hash := by
  have hupdate (files : List StoredFile) (h : ∃ f ∈ files, f.edited = true ∧ (f.home == path) = true) :
      ∃ f ∈ OpenSession.withHash.update path hash files,
        f.edited = true ∧ (f.home == path) = true ∧ f.writtenHash = some hash := by
    induction files with
    | nil =>
      obtain ⟨f, hf, -⟩ := h
      cases hf
    | cons g files ih =>
      rw [OpenSession.withHash.update]
      split
      · rename_i hg
        rw [Bool.and_eq_true] at hg
        exact ⟨_, mem_cons_self, hg.1, hg.2, rfl⟩
      · rename_i hg
        obtain ⟨f, hf, hfound⟩ := h
        rcases mem_cons.1 hf with rfl | hf
        · exact absurd (Bool.and_eq_true _ _ ▸ hfound) hg
        · obtain ⟨f', hf', hfound'⟩ := ih ⟨f, hf, hfound⟩
          exact ⟨f', mem_cons_of_mem _ hf', hfound'⟩
  exact hupdate record.files h

/-! ## Sessions after any calls -/

/-- A session after any calls, and the paths of which a call to back up failed. Others may have changed the tree
between the calls. -/
inductive Filled (r : Address) : OpenSession → List Path → Prop
  | opened {s : OpenSession} (hroot : LeadsTo s.quarantine.root r) (hid : IsName s.record.id)
      (hbackedUp : s.backedUp = []) : Filled r s []
  | moveIn {s : OpenSession} {failed : List Path} {t : FileTree} (h : Filled r s failed) (wf : t.WellFormed)
      (path : Path) (faults : List (Option FileFault)) :
      Filled r ((s.fill (moveIn path)).runWith faults t).1.2 failed
  | backUp {s : OpenSession} {failed : List Path} {t : FileTree} (h : Filled r s failed) (wf : t.WellFormed)
      (path : Path) (replacement : Bytes) (faults : List (Option FileFault)) :
      Filled r ((s.fill (backUp path replacement)).runWith faults t).1.2
        (if ((s.fill (backUp path replacement)).runWith faults t).1.1.isOk then failed
        else s.relative path :: failed)

/-- A session has a place, and of the files that it has been asked to keep it has an entry, or the call failed. -/
structure Remembers (r : Address) (s : OpenSession) (failed : List Path) : Prop where
  root : LeadsTo s.quarantine.root r
  isName : IsName s.record.id
  asked : ∀ p ∈ s.backedUp, s.record.HasEdited p ∨ failed.contains p = true

theorem Remembers.moveIn (h : Remembers r s failed)
    (hcall : MoveInOutcome s r path t (result, s') u) : Remembers r s' failed := by
  have hrecording (f : StoredFile) : Remembers r (s.recording f) failed :=
    ⟨h.root, (id_add s.record f).symm ▸ h.isName, fun p hp => (h.asked p hp).imp_left fun hf => hf.add f⟩
  cases hcall with
  | missing => exact h
  | unmoved => exact h
  | unsaved size => exact hrecording _
  | moved size => exact hrecording _

theorem Remembers.backUp (h : Remembers r s failed) (hcall : BackUpOutcome s r path replacement t (result, s') u) :
    Remembers r s' (if result.isOk then failed else s.relative path :: failed) := by
  have hmore {p : Path} (hp : failed.contains p = true) :
      (if result.isOk then failed else s.relative path :: failed).contains p = true := by
    split
    · exact hp
    · rw [contains_cons, hp, Bool.or_true]
  cases hcall with
  | again hasked hsaved =>
    refine ⟨h.root, h.isName, fun p hp => ?_⟩
    exact (h.asked p hp).imp (fun hf => hf.withHash _ _) hmore
  | uncopied hasked hmade hwf hsame =>
    refine ⟨h.root, h.isName, fun p hp => ?_⟩
    rcases mem_cons.1 hp with rfl | hp
    · exact .inr (by simp [Except.isOk, Except.toBool, Path.beq_iff])
    · exact (h.asked p hp).imp_right hmore
  | @copied _ _ _ _ _ _ size hasked hmade hfile hbytes hsize hwf hkept hsame hsaved =>
    refine ⟨h.root, (id_add s.record (s.editedEntry path size replacement)).symm ▸ h.isName, fun p hp => ?_⟩
    rcases mem_cons.1 hp with rfl | hp
    · refine .inl ⟨s.editedEntry path size replacement, ?_, rfl, Path.beq_iff.2 rfl⟩
      rw [recording, files_add]
      exact mem_append_right _ mem_cons_self
    · exact (h.asked p hp).imp (fun hf => hf.add _) hmore

theorem Filled.remembers (h : Filled r s failed) : Remembers r s failed := by
  induction h with
  | opened hroot hid hbackedUp => exact ⟨hroot, hid, by rw [hbackedUp]; exact forall_mem_nil _⟩
  | moveIn _ wf path faults ih =>
    exact ih.moveIn (endures_iff.1 (endures_moveIn ih.root ih.isName wf path) faults)
  | backUp _ wf path replacement faults ih =>
    exact ih.backUp (endures_iff.1 (endures_backUp ih.root ih.isName wf path replacement) faults)

/-! ## What is left of a call -/

theorem sessionAt_draft (r : Address) (id : String) :
    sessionAt r id ++ ["manifest.json.tmp"] = draftAt r id := sessionAt_append r id _

theorem sessionAt_record (r : Address) (id : String) :
    sessionAt r id ++ ["manifest.json"] = recordAt r id := sessionAt_append r id _

/-- What a call to move a file in has left that failed. -/
inductive MoveInTrace (s : OpenSession) (r : Address) (path : Path) (t : FileTree) (s' : OpenSession)
    (u : FileTree) : Prop
  /-- Nothing is recorded, the file is as it was, and so are all files but one at the place to keep it. -/
  | none (hsession : s' = s)
      (hhome : (s.homeOf path).place ≠ (s.keepOf path).place →
        u.get? (s.homeOf path).place = t.get? (s.homeOf path).place)
      (hfiles : ∀ c bytes, c ≠ (s.keepOf path).place → (u.get? c = some (.file bytes) ↔ t.get? c = some (.file bytes)))
  /-- The file is moved and counts as recorded, but the record on disk is the old one. -/
  | moved (size : Nat) (hsession : s' = s.recording (s.entry path size))
      (hmoved : Relocated (· = draftAt r s.record.id) (s.homeOf path).place (s.keepOf path).place t u)

theorem MoveInOutcome.trace {e : QuarantineError}
    (h : MoveInOutcome s r path t (.error e, s') u) : MoveInTrace s r path t s' u := by
  cases h with
  | missing => exact .none rfl (fun _ => rfl) fun _ _ _ => Iff.rfl
  | unmoved hsource hmade hwf hsame =>
    refine .none rfl (fun hne => ?_) fun c bytes hc => ?_
    · rw [hsame _ hne, hmade.get?_of_isSome hsource]
    · rw [hsame c hc, hmade.file_iff]
  | unsaved size hsource hmade hmoved hsaved =>
    have hsame (c : Address) (hc : ¬ c = draftAt r s.record.id) : u.get? c = _ :=
      hsaved.2 c (by rwa [sessionAt_draft])
    refine .moved size rfl (hmoved.relocated hmade (fun c bytes hc => ?_) fun c hc hnone => ?_)
    · rw [hsame c hc]
    · rw [hsame c hc, hnone]

/-- What a call to back a file up has done: it answered `result`, and left the session `s'` and the tree `u`. -/
structure BackUpTrace (s : OpenSession) (r : Address) (path : Path) (replacement : Bytes) (t : FileTree)
    (result : Except QuarantineError Unit) (s' : OpenSession) (u : FileTree) : Prop where
  /-- A first call is remembered in any case. It fails before the file is recorded, or the copy is there. -/
  first : s.backedUp.contains (s.relative path) = false → s'.backedUp = s.relative path :: s.backedUp ∧
    (((∃ e, result = .error e) ∧ s'.record = s.record ∧ ∀ c bytes, c ≠ (s.keepOf path).place →
        (u.get? c = some (.file bytes) ↔ t.get? c = some (.file bytes))) ∨
      ∃ contents bytes, t.get? (s.homeOf path).place = some (.file contents) ∧
        bytes = (if (s.homeOf path).place = (s.keepOf path).place then [] else contents) ∧
        s'.record = s.record.add (s.editedEntry path bytes.length replacement) ∧
        ∀ c, c ≠ draftAt r s.record.id → c ≠ recordAt r s.record.id →
          (c = (s.keepOf path).place → u.get? c = some (.file bytes)) ∧
          (c ≠ (s.keepOf path).place → ∀ bytes, u.get? c = some (.file bytes) ↔ t.get? c = some (.file bytes)))
  /-- A later call changes the fingerprint and nothing else, and copies nothing. -/
  again : s.backedUp.contains (s.relative path) = true → s' = s.rehashed path replacement ∧
    ∀ c, c ≠ draftAt r s.record.id → c ≠ recordAt r s.record.id → u.get? c = t.get? c
  saved : result = .ok () → u.get? (recordAt r s.record.id) = some (.file s'.record.contents)

theorem FileTask.Saving.same {c : Address} (h : Saving record (sessionAt r id) t result u)
    (hdraft : c ≠ draftAt r id) (hrecord : c ≠ recordAt r id) : u.get? c = t.get? c := by
  rw [← sessionAt_draft] at hdraft
  rw [← sessionAt_record] at hrecord
  cases result with
  | ok _ => exact h.2.2 c hdraft hrecord
  | error e => exact h.2 c hdraft

theorem FileTask.Saving.saved (h : Saving record (sessionAt r id) t result u) (hok : result = .ok ()) :
    u.get? (recordAt r id) = some (.file record.contents) := by
  subst hok
  rw [← sessionAt_record]
  exact h.2.1

theorem BackUpOutcome.trace (h : BackUpOutcome s r path replacement t (result, s') u) :
    BackUpTrace s r path replacement t result s' u := by
  cases h with
  | again hasked hsaved =>
    refine ⟨fun hnot => ?_, fun _ => ⟨rfl, fun c => hsaved.same⟩, hsaved.saved⟩
    rw [hasked] at hnot
    cases hnot
  | @uncopied e made u hasked hmade hwf hsame =>
    refine ⟨fun _ => ⟨rfl, .inl ⟨⟨e, rfl⟩, rfl, fun c bytes hc => ?_⟩⟩, fun hnot => ?_, nofun⟩
    · rw [hsame c hc, hmade.file_iff]
    · rw [hasked] at hnot
      cases hnot
  | @copied _ made copied _ contents bytes size hasked hmade hfile hbytes hsize hwf hkept hsame hsaved =>
    refine ⟨fun _ => ⟨rfl, .inr ⟨contents, bytes, hmade.file_iff.1 hfile, hbytes, ?_, fun c hdraft hrecord => ?_⟩⟩,
      fun hnot => ?_, hsaved.saved⟩
    · rw [← hsize]
      rfl
    · rw [hsaved.same hdraft hrecord]
      refine ⟨fun hc => hc ▸ hkept, fun hc bytes => ?_⟩
      rw [hsame c hc, hmade.file_iff]
    · rw [hasked] at hnot
      cases hnot

/-- A file that counts as backed up, and of which no earlier call failed, is recorded with its fingerprint. -/
theorem Remembers.exists_entry (h : Remembers r s failed) (hfailed : failed.contains (s.relative path) = false)
    (hcall : BackUpOutcome s r path replacement t (.ok (), s') u) : ∃ f ∈ s'.record.files, f.edited = true ∧
      (f.home == s.relative path) = true ∧ f.writtenHash = some (fingerprint replacement) := by
  cases hcall with
  | again hasked hsaved =>
    obtain ⟨p, hp, hpath⟩ := Path.contains_iff.1 hasked
    have hrecorded : s.record.HasEdited p := (h.asked p hp).resolve_right fun hfail => by
      obtain ⟨q, hq, hpq⟩ := Path.contains_iff.1 hfail
      rw [Path.contains_iff.2 ⟨q, hq, hpath.trans hpq⟩] at hfailed
      cases hfailed
    exact (hrecorded.congr (Path.beq_iff.2 hpath.symm)).exists_hash _
  | @copied _ _ _ _ _ _ size hasked hmade hfile hbytes hsize hwf hkept hsame hsaved =>
    refine ⟨s.editedEntry path size replacement, ?_, rfl, Path.beq_iff.2 rfl, rfl⟩
    rw [OpenSession.recording, files_add]
    exact mem_append_right _ mem_cons_self

/-- **What is left of a call that fails**, whichever operations fail and whatever the path is. If a file is not moved
in, nothing is recorded and all files are as they were, but for one at the place to keep it; or the file is moved, is
not put back, and counts as recorded, though the record on disk does not have it. If a file is not backed up, the
session remembers that it was asked: a later call does not copy the file, and succeeds without an entry. If no earlier
call for the file has failed, success means that there is an entry with the new fingerprint, in the session and on
disk; and the first success means that there is a copy. -/
theorem failed_filling {s : OpenSession} {r : Address} {t : FileTree} (hroot : LeadsTo s.quarantine.root r)
    (hid : IsName s.record.id) (wf : t.WellFormed) (path : Path) (replacement : Bytes)
    (faults : List (Option FileFault)) :
    (∀ e s' u, (s.fill (OpenSession.moveIn path)).runWith faults t = ((.error e, s'), u) →
      MoveInTrace s r path t s' u) ∧
    ∀ result s' u, (s.fill (OpenSession.backUp path replacement)).runWith faults t = ((result, s'), u) →
      BackUpTrace s r path replacement t result s' u ∧
      ∀ failed, Filled r s failed → failed.contains (s.relative path) = false → result = .ok () →
        ∃ f ∈ s'.record.files, f.edited = true ∧ (f.home == s.relative path) = true ∧
          f.writtenHash = some (fingerprint replacement) := by
  have hmoveIn := endures_iff.1 (OpenSession.endures_moveIn hroot hid wf path) faults
  have hbackUp := endures_iff.1 (OpenSession.endures_backUp hroot hid wf path replacement) faults
  refine ⟨fun e s' u hrun => ?_, fun result s' u hrun => ?_⟩
  · rw [hrun] at hmoveIn
    exact hmoveIn.trace
  · rw [hrun] at hbackUp
    refine ⟨hbackUp.trace, fun failed hfilled hfailed hok => ?_⟩
    subst hok
    exact hfilled.remembers.exists_entry hfailed hbackUp

theorem leadsTo_p : LeadsTo ⟨"/p"⟩ ["p"] := ⟨by decide, by decide⟩

/-- The script is backed up in a session that was just opened. -/
theorem failed_filling_emptyFilling : emptyFilling.tree.WellFormed ∧
    ∃ f ∈ ((emptyFilling.session.fill (OpenSession.backUp ⟨"a.js"⟩ [110])).runWith []
        emptyFilling.tree).1.2.record.files,
      f.edited = true ∧ (f.home == ⟨"a.js"⟩) = true ∧ f.writtenHash = some (fingerprint [110]) := by
  have hwf : emptyFilling.tree.WellFormed := by decide
  have hspec := (failed_filling (s := emptyFilling.session) leadsTo_p (by decide) hwf ⟨"a.js"⟩ [110] []).2 _ _ _ rfl
  refine ⟨hwf, hspec.2 [] (.opened leadsTo_p (by decide) rfl) rfl ?_⟩
  decide +kernel

/-- **Calls that fail leave traces.** If the draft of the record cannot be written, the script is gone from the project,
and only the session knows of it. If a file that is not there is to be backed up, the call fails; when the file is
there, the next call succeeds, and nothing is recorded or kept. -/
theorem failed_filling_traces :
    let blocked := emptyFilling.tree.put ["p", ".deadfiles", "quarantine", "S", "manifest.json.tmp"] .directory
    let moved := (emptyFilling.session.fill (OpenSession.moveIn ⟨"a.js"⟩)).run blocked
    let first := (emptyFilling.session.fill (OpenSession.backUp ⟨"b.js"⟩ [110])).run emptyFilling.tree
    let second := (first.1.2.fill (OpenSession.backUp ⟨"b.js"⟩ [110])).run (first.2.put ["p", "b.js"] (.file [111]))
    (moved.1.1.isOk = false ∧ moved.1.2.record.files.length = 1 ∧ moved.2.get? ["p", "a.js"] = none ∧
      moved.2.get? (recordAt ["p"] "S") = emptyFilling.tree.get? (recordAt ["p"] "S")) ∧
    first.1.1.isOk = false ∧ second.1.1.isOk = true ∧ second.1.2.record.files.length = 0 ∧
      second.2.get? (filesAt ["p"] "S" ++ ["b.js"]) = none := by
  decide +kernel

end Deadwood
