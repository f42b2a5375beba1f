import Deadwood.Proofs.RestoreSafety
import Deadwood.Proofs.Storing

/-!
# Sessions when operations fail

What opening and filling a session do in any case, whichever operations fail: outside the store no file is new or has
other contents, no entry is lost, and the record on disk is one that the session has had.

* **`Quarantine.endures_openSession`**: opening a session.
-/

namespace Deadwood

open List FileTree FileTask Deadwood.Path SessionRecord

/-! ## Trees in which nothing is new -/

/-- Outside the store the files are those of before, but for some that may be gone. -/
structure Older (r : Address) (gone : Address → Prop) (t u : FileTree) : Prop where
  wf : u.WellFormed
  files : ∀ c bytes, ¬ storeAt r <+: c → u.get? c = some (.file bytes) → t.get? c = some (.file bytes)
  stays : ∀ c bytes, ¬ storeAt r <+: c → ¬ gone c → t.get? c = some (.file bytes) → u.get? c = some (.file bytes)

variable {r : Address} {gone : Address → Prop} {t u : FileTree} {m : List String}

namespace Older

variable {v : FileTree}

theorem of_file_iff (wf : u.WellFormed) (h : ∀ c bytes, ¬ storeAt r <+: c →
    (u.get? c = some (.file bytes) ↔ t.get? c = some (.file bytes))) : Older r gone t u :=
  ⟨wf, fun c bytes hc => (h c bytes hc).1, fun c bytes hc _ => (h c bytes hc).2⟩

theorem refl (wf : t.WellFormed) : Older r gone t t := of_file_iff wf fun _ _ _ => Iff.rfl

theorem trans (h : Older r gone t u) (h' : Older r gone u v) : Older r gone t v :=
  ⟨h'.wf, fun c bytes hc hfile => h.files c bytes hc (h'.files c bytes hc hfile),
    fun c bytes hc hstays hfile => h'.stays c bytes hc hstays (h.stays c bytes hc hstays hfile)⟩

theorem of_get? (wf : u.WellFormed) (h : ∀ c, ¬ storeAt r <+: c → u.get? c = t.get? c) : Older r gone t u :=
  of_file_iff wf fun c _ hc => by rw [h c hc]

theorem of_made {p : Path} (h : Made p t u) : Older r gone t u := of_file_iff h.wf fun _ _ _ => h.file_iff

theorem unlock (h : Older r gone t u) (p : Path) : Older r gone t (u.unlock p) :=
  h.trans (of_get? (h.wf.unlock p) fun c _ => get?_unlock p c)

theorem of_saving {record : SessionRecord} {id : String} {result : Except QuarantineError Unit}
    (h : Saving record (sessionAt r id) t result u) : Older r gone t u := by
  have hwf : u.WellFormed := by
    cases result with
    | ok _ => exact h.1
    | error e => exact h.1
  refine of_get? hwf fun c hc => h.same ?_ ?_
  · rintro rfl
    exact hc (prefix_place (by simp))
  · rintro rfl
    exact hc (prefix_place (by simp))

end Older

/-! ## Opening a session -/

namespace Quarantine

variable {q : Quarantine}

theorem endures_reserveNameWithin (wf : t.WellFormed) (hq : q.At r) {stamp : String}
    (hstamp : '-' ∈ stamp.toList ∧ '/' ∉ stamp.toList) (fuel attempt : Nat) :
    (q.reserveNameWithin stamp fuel attempt).run.Endures
      (fun result u => Older r gone t u ∧ ∀ id, result = .ok id → IsName id) t := by
  induction fuel generalizing attempt with
  | zero => exact endures_pure.2 ⟨.refl wf, nofun⟩
  | succ fuel ih =>
    have hname := isName_sessionName hstamp attempt
    -- a refused directory leaves the tree alone, so that the next attempt starts where this one did
    refine endures_lift_bind (endures_makeDirectory
      (Q := fun answer u => Older r gone t u ∧ ∀ e, answer = .error e → u = t)
      (fun e => ⟨.refl wf, fun _ _ => rfl⟩) fun u hu => ⟨?_, nofun⟩) fun answer u hu => ?_
    · exact .of_made (made_of_makeDirectory wf (leadsTo_directory hq hname).absolute hu)
    · cases answer with
      | ok _ =>
        refine endures_pure.2 ⟨hu.1, fun id hid => ?_⟩
        cases hid
        exact hname
      | error e =>
        obtain rfl : u = t := hu.2 e rfl
        cases e with
        | occupied => exact ih (attempt + 1)
        | _ => exact endures_pure.2 ⟨.refl wf, nofun⟩

theorem endures_reserveName (wf : t.WellFormed) (hq : q.At r) {stamp : String}
    (hstamp : '-' ∈ stamp.toList ∧ '/' ∉ stamp.toList) : (q.reserveName stamp).run.Endures
      (fun result u => Older r gone t u ∧ ∀ id, result = .ok id → IsName id) t := by
  refine endures_run_bind (endures_ofFiles_tree (P := (· = t)) (endures_list fun _ => rfl)) ?_ ?_
  · rintro e _ rfl
    exact ⟨.refl wf, nofun⟩
  · rintro names _ rfl
    exact endures_reserveNameWithin wf hq hstamp _ _

theorem endures_lock {id : String} (wf : t.WellFormed) (hq : q.At r) (hid : IsName id) :
    (q.lock id).run.Endures (fun _ u => Older r gone t u) t := by
  have hlead := leadsTo_lockFile hq hid
  have hstore : storeAt r <+: lockAt r id := prefix_place (by simp)
  refine endures_run_bind (endures_ofFiles_tree (FileTask.endures_lock (fun e u hu => ?_) fun free u hu => ?_))
    (fun _ _ h => h) fun free u hu => ?_
  · obtain ⟨hwf, hsame⟩ := same_of_mayWrite wf hlead.absolute hu
    refine .of_get? hwf fun c hc => hsame c ?_
    rintro rfl
    exact hc (hlead.place_eq ▸ hstore)
  · obtain ⟨hroom, -, -, rfl⟩ := (lock_eq_ok_iff wf hlead (wantsDirectory_lockFile hq hid)).1 hu
    refine .of_get? (WellFormed.locks (wf.touch hroom) _) fun c hc => ?_
    refine (SameBut.touch (t := t) hroom.ne_nil).get? c ?_
    rintro rfl
    exact hc hstore
  · cases free <;> exact endures_pure.2 hu

/-- **A session is opened with its record on disk, or not at all**, and nothing is new outside the store. -/
theorem endures_openSession (wf : t.WellFormed) (hq : q.At r) (now : Moment) :
    (q.openSession now).run.Endures (fun result u => Older r gone t u ∧ ∀ session, result = .ok session →
      session.quarantine = q ∧ IsName session.record.id ∧
        u.get? (recordAt r session.record.id) = some (.file session.record.contents)) t := by
  have hmake {u : FileTree} {p : Path} (wf : u.WellFormed) (hp : p.isAbsolute = true) :
      (QuarantineTask.ofFiles (makeDirectories p)).run.Endures (fun _ => Older r gone u) u :=
    endures_ofFiles_tree ((endures_makeDirectories wf hp).mono fun _ _ h => .of_made h)
  refine endures_run_bind (hmake wf (leadsTo_base hq).absolute) (fun e u hu => ⟨hu, nofun⟩) fun _ u hu => ?_
  refine endures_run_bind (endures_reserveName hu.wf hq now.stamp_spec)
    (fun e v hv => ⟨hu.trans hv.1, nofun⟩) fun id v hv => ?_
  have hid := hv.2 id rfl
  replace hv := hu.trans hv.1
  refine endures_run_bind (endures_lock hv.wf hq hid) (fun e w hw => ⟨hv.trans hw, nofun⟩) fun _ w hw => ?_
  replace hw := hv.trans hw
  have hdirectory := leadsTo_directory hq hid
  refine endures_run_bind (R := fun result x => Older r gone t x ∧ (result = .ok () →
      x.get? (recordAt r id) = some (.file (contents { id, createdAt := now }))))
    (endures_tryCatch (R := fun result x => Older r gone t x ∧ (result = .ok () →
      x.get? (recordAt r id) = some (.file (contents { id, createdAt := now })))) ?_
      (fun _ _ h => h) fun e x hx => ?_) (fun e x hx => ⟨hx.1, nofun⟩) fun _ x hx => ?_
  · refine endures_run_bind (hmake hw.wf (isAbsolute_join hdirectory.absolute)) (fun e x hx => ⟨hw.trans hx, nofun⟩)
      fun _ x hx => ?_
    exact (endures_save hx.wf hdirectory _).mono fun result y hy => ⟨hw.trans (hx.trans (.of_saving hy)), hy.saved⟩
  · exact endures_lift_bind (endures_unlock (hx.1.unlock _)) fun _ y hy => endures_pure.2 ⟨hy, nofun⟩
  · refine endures_pure.2 ⟨hx.1, fun session hsession => ?_⟩
    cases hsession
    exact ⟨rfl, hid, hx.2 rfl⟩

end Quarantine

/-! ## One call -/

def SessionRecord.HasMoved (record : SessionRecord) (path : Path) : Prop :=
  ∃ f ∈ record.files, f.edited = false ∧ f.home = path

theorem SessionRecord.HasMoved.add {record : SessionRecord} {path : Path} (h : record.HasMoved path) (f : StoredFile) :
    (record.add f).HasMoved path := by
  obtain ⟨g, hg, hmoved⟩ := h
  exact ⟨g, by rw [files_add]; exact mem_append_left _ hg, hmoved⟩

theorem SessionRecord.HasMoved.withHash {record : SessionRecord} {path : Path} (h : record.HasMoved path)
    (relative : Path) (hash : String) : (OpenSession.withHash record relative hash).HasMoved path := by
  obtain ⟨f, hf, hmoved, hpath⟩ := h
  obtain ⟨g, hg, hedited, hhome⟩ := exists_mem_withHash hf relative hash
  exact ⟨g, hg, hedited.trans hmoved, hhome.trans hpath⟩

/-- What a call that fills a session does in any case: no entry is lost, and the record on disk is the old one or that
of the session. -/
structure FillingStep (r : Address) (gone : Address → Prop) (s : OpenSession) (t : FileTree) (s' : OpenSession)
    (u : FileTree) : Prop where
  quarantine : s'.quarantine = s.quarantine
  id : s'.record.id = s.record.id
  older : Older r gone t u
  disk : ∀ bytes, t.get? (recordAt r s.record.id) = some (.file bytes) →
    u.get? (recordAt r s.record.id) = some (.file bytes) ∨
      u.get? (recordAt r s.record.id) = some (.file s'.record.contents)
  moved : ∀ p, s.record.HasMoved p → s'.record.HasMoved p

/-- Names that do not lead into the store; there may be none. -/
def NotStored (m : List String) : Prop := m.head? ≠ some ".deadfiles"

instance (m : List String) : Decidable (NotStored m) := inferInstanceAs (Decidable (_ ≠ _))

namespace NotStored

variable {c : Address}

theorem eq_nil_or_isOutside (h : NotStored m) : m = [] ∨ IsOutside m := or_iff_not_imp_left.2 fun hne => ⟨hne, h⟩

theorem not_storeAt_isPrefix (h : NotStored m) : ¬ storeAt r <+: r ++ m := by
  rcases h.eq_nil_or_isOutside with rfl | hout
  · rw [storeAt, prefix_append_right_inj]
    simp
  · exact hout.not_storeAt_prefix_of_prefix prefix_rfl

end NotStored

namespace FileTree.Carried

variable {id : String}

theorem ne_nil (h : Carried (r ++ m) (filesAt r id ++ m) t u) : m ≠ [] := by
  rintro rfl
  have htarget := h.target (ne_filesAt []) []
  have hgone := h.gone (ne_filesAt []) [".deadfiles", "quarantine", id, "files"]
  have hsource := h.source
  simp only [append_nil, filesAt] at htarget hgone hsource
  rw [← htarget, hgone] at hsource
  cases hsource

theorem get?_of_storeAt (h : Carried (r ++ m) (filesAt r id ++ m) t u) (hm : NotStored m) {c : Address}
    (hstore : storeAt r <+: c) (hc : ¬ filesAt r id <+: c) : u.get? c = t.get? c := by
  have hout : IsOutside m := hm.eq_nil_or_isOutside.resolve_left h.ne_nil
  exact h.rest c (hout.not_above_store hstore) fun hp => hc ((prefix_append _ _).trans hp)

end FileTree.Carried

section Call

variable {s s' : OpenSession} {path : Path} {result : Except QuarantineError Unit}

theorem OpenSession.places_of_isRelative (hroot : s.quarantine.At r) (hid : IsName s.record.id)
    (hpath : path.IsRelative m) : s.relative path = path ∧ (s.homeOf path).place = r ++ m ∧
      (s.keepOf path).place = filesAt r s.record.id ++ m := by
  have hrel := relative_of_isAbsolute hroot.absolute hpath.relative
  have habs : (s.relative path).isAbsolute = false := by
    rw [hrel]
    exact hpath.relative
  refine ⟨hrel, ?_, ?_⟩
  · rw [place_homeOf_eq hroot habs, hrel, ← descend_components, hpath.descend_eq]
  · rw [place_keepOf hroot hid habs, hrel, ← descend_components, hpath.descend_eq]

theorem recordAt_ne_files (r x : Address) (id : String) : recordAt r id ≠ filesAt r id ++ x := by
  simp [recordAt, filesAt]

theorem storeAt_prefix_recordAt (r : Address) (id : String) : storeAt r <+: recordAt r id :=
  prefix_place (by simp)

/-- **One file more, or not.** -/
theorem MoveInOutcome.step (hroot : s.quarantine.At r) (hid : IsName s.record.id) (wf : t.WellFormed)
    (hpath : path.IsRelative m) (hm : NotStored m) (h : MoveInOutcome s r path t (result, s') u) :
    FillingStep r (r ++ m <+: ·) s t s' u ∧ (result = .ok () → s'.record.HasMoved path ∧
      u.get? (recordAt r s.record.id) = some (.file s'.record.contents)) := by
  obtain ⟨hrel, hhome, hkeep⟩ := OpenSession.places_of_isRelative hroot hid hpath
  have hout {c : Address} (hc : ¬ storeAt r <+: c) (x : Address) : ¬ filesAt r s.record.id ++ x <+: c :=
    fun hp => hc ((store_prefix_files x).trans hp)
  have hrecording (size : Nat) {p : Path} (hp : s.record.HasMoved p) :
      (s.recording (s.entry path size)).record.HasMoved p := hp.add _
  have hentry (size : Nat) : (s.recording (s.entry path size)).record.HasMoved path := by
    refine ⟨s.entry path size, ?_, rfl, hrel⟩
    rw [OpenSession.recording, files_add]
    exact mem_append_right _ mem_cons_self
  -- what was moved was moved into the store
  have holder {made moved : FileTree} (hmade : Made (s.keepOf path) t made)
      (hmoved : Carried (s.homeOf path).place (s.keepOf path).place made moved) :
      Older r (r ++ m <+: ·) t moved := by
    rw [hhome, hkeep] at hmoved
    refine ⟨hmoved.wf, fun c bytes hc hfile => hmade.file_iff.1 ?_, fun c bytes hc ha hfile => ?_⟩
    · by_cases ha : r ++ m <+: c
      · obtain ⟨x, rfl⟩ := ha
        rw [hmoved.gone (ne_filesAt m)] at hfile
        cases hfile
      · rwa [hmoved.rest c ha (hout hc m)] at hfile
    · rw [hmoved.rest c ha (hout hc m)]
      exact hmade.file_iff.2 hfile
  have hfailed {e : QuarantineError} {P : Prop} (h : (.error e : Except QuarantineError Unit) = .ok ()) : P := by
    cases h
  cases h with
  | missing => exact ⟨⟨rfl, rfl, .refl wf, fun _ hfile => .inl hfile, fun _ hp => hp⟩, hfailed⟩
  | unmoved hsource hmade hwf hsame =>
    rw [hkeep] at hsame
    refine ⟨⟨rfl, rfl, .of_file_iff hwf fun c bytes hc => ?_, fun bytes hfile => .inl ?_, fun _ hp => hp⟩, hfailed⟩
    · rw [hsame c fun heq => hout hc m (heq ▸ prefix_rfl), hmade.file_iff]
    · rw [hsame _ (recordAt_ne_files r m _)]
      exact hmade.file_iff.2 hfile
  | @unsaved e made moved u size hsource hmade hmoved hsaved =>
    refine ⟨⟨rfl, id_add _ _, (holder hmade hmoved).trans (.of_saving hsaved), fun bytes hfile => .inl ?_,
      fun _ => hrecording size⟩, hfailed⟩
    rw [hhome, hkeep] at hmoved
    have hdisk := hsaved.2 (recordAt r s.record.id) (by simp [sessionAt_draft, recordAt, draftAt])
    rw [hdisk, hmoved.get?_of_storeAt hm (storeAt_prefix_recordAt r _) (not_prefix_place (by simp))]
    exact hmade.file_iff.2 hfile
  | @moved made moved saved u size hsource hmade hmoved hsaved hemptied =>
    have hdisk := hemptied.file_iff.2 (hsaved.saved rfl)
    have hemptied' : Older r (r ++ m <+: ·) saved u := .of_file_iff hemptied.wf fun _ _ _ => hemptied.file_iff
    refine ⟨⟨rfl, id_add _ _, (holder hmade hmoved).trans (.trans (.of_saving hsaved) hemptied'),
      fun _ _ => .inr hdisk, fun _ => hrecording size⟩, fun _ => ⟨hentry size, hdisk⟩⟩

theorem BackUpOutcome.step {replacement : Bytes} (hroot : s.quarantine.At r) (hid : IsName s.record.id)
    (hpath : path.IsRelative m) (h : BackUpOutcome s r path replacement t (result, s') u) :
    FillingStep r (fun _ => False) s t s' u := by
  obtain ⟨-, -, hkeep⟩ := OpenSession.places_of_isRelative hroot hid hpath
  have hne {c : Address} (hc : ¬ storeAt r <+: c) : c ≠ filesAt r s.record.id ++ m := by
    rintro rfl
    exact hc (store_prefix_files m)
  have hdisk {record : SessionRecord} {w : FileTree} {bytes : Bytes}
      (hsaved : Saving record (sessionAt r s.record.id) w result u)
      (hfile : w.get? (recordAt r s.record.id) = some (.file bytes)) :
      u.get? (recordAt r s.record.id) = some (.file bytes) ∨
        u.get? (recordAt r s.record.id) = some (.file record.contents) := by
    cases result with
    | ok _ => exact .inr (hsaved.saved rfl)
    | error e =>
      refine .inl ?_
      rwa [hsaved.2 _ (by simp [sessionAt_draft, recordAt, draftAt])]
  cases h with
  | again hasked hsaved =>
    exact ⟨rfl, rfl, .of_saving hsaved, fun bytes => hdisk hsaved, fun _ hp => hp.withHash _ _⟩
  | uncopied hasked hmade hwf hsame =>
    rw [hkeep] at hsame
    refine ⟨rfl, rfl, .of_file_iff hwf fun c bytes hc => ?_, fun bytes hfile => .inl ?_, fun _ hp => hp⟩
    · rw [hsame c (hne hc), hmade.file_iff]
    · rw [hsame _ (recordAt_ne_files r m _)]
      exact hmade.file_iff.2 hfile
  | @copied _ made copied u contents bytes size hasked hmade hfile hbytes hsize hwf hkept hsame hsaved =>
    rw [hkeep] at hsame
    refine ⟨rfl, id_add _ _, .trans (.of_file_iff hwf fun c bytes hc => ?_) (.of_saving hsaved),
      fun bytes hfile => hdisk hsaved ?_, fun _ hp => hp.add _⟩
    · rw [hsame c (hne hc), hmade.file_iff]
    · rw [hsame _ (recordAt_ne_files r m _)]
      exact hmade.file_iff.2 hfile

end Call

end Deadwood
