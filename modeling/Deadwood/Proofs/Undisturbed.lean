import Deadwood.Proofs.Filling
import Deadwood.Proofs.RecordFile

/-!
# Setting files aside succeeds

A session is filled with files of a project, each of them once, and nobody else changes the project. Then no call
fails.

* **`Undisturbed.ensures_moveIn`**, **`Cleaning.ensures_backUp`**: files are moved in and backed up without fail.
-/

namespace Deadwood

open List FileTree FileTask Deadwood.Path

/-- A file of a project is at a path within the project, and is not in the store. -/
structure ProjectFile (t : FileTree) (r : Address) (path : Path) (contents : Bytes) : Prop where
  relative : path.IsRelative path.names
  plain : wantsDirectory ⟨String.ofList ('/' :: path.text.toList)⟩ = false
  outside : IsOutside path.names
  there : t.get? (r ++ path.names) = some (.file contents)

theorem ProjectFile.not_prefix_of_ne {t : FileTree} {r : Address} {path : Path} {contents contents' : Bytes}
    {m : List String} (h : ProjectFile t r path contents) (wf : t.WellFormed)
    (hm : t.get? (r ++ m) = some (.file contents')) (hne : m ≠ path.names) : ¬ r ++ path.names <+: r ++ m := by
  rw [prefix_append_right_inj]
  rintro ⟨x, rfl⟩
  have hx : x ≠ [] := fun hnil => hne (by rw [hnil, append_nil])
  rw [← append_assoc, wf.get?_below_file hx h.there] at hm
  cases hm

/-! ## Undisturbed trees -/

/-- The tree `s` has been made of `t` by setting files aside in a session: files whose names are not `done`
are as they were, and what is stored is stored under the names that it had. -/
structure Undisturbed (t : FileTree) (q : Quarantine) (r : Address) (id : String) (done : List (List String))
    (s : FileTree) : Prop where
  keeps : KeepsRecord (q.directory id) (sessionAt r id) s
  files : s.get? (filesAt r id) = some .directory
  mirror : ∀ x, x ≠ [] → s.get? (filesAt r id ++ x) = none ∨ s.get? (filesAt r id ++ x) = t.get? (r ++ x)
  same : ∀ m contents, IsOutside m → m ∉ done → t.get? (r ++ m) = some (.file contents) →
    s.get? (r ++ m) = some (.file contents)

variable {t s u : FileTree} {q : Quarantine} {r : Address} {id : String} {done done' : List (List String)} {path : Path}
  {contents : Bytes} {moves : List (Path × Path)}

namespace Undisturbed

section

variable (h : Undisturbed t q r id done s)
include h

theorem mono (hdone : ∀ m ∈ done, m ∈ done') : Undisturbed t q r id done' s :=
  ⟨h.keeps, h.files, h.mirror, fun m contents hm hnew => h.same m contents hm (mt (hdone m) hnew)⟩

theorem congr (wf : u.WellFormed) (haside : ∀ c, u.get? c = s.get? c ∨ Aside r id c)
    (hmirror : ∀ x, x ≠ [] → u.get? (filesAt r id ++ x) = s.get? (filesAt r id ++ x) ∨
      u.get? (filesAt r id ++ x) = t.get? (r ++ x))
    (hsame : ∀ m contents, IsOutside m → m ∉ done → t.get? (r ++ m) = some (.file contents) →
      s.get? (r ++ m) = some (.file contents) → u.get? (r ++ m) = some (.file contents)) :
    Undisturbed t q r id done u := by
  have hget {x : List String} := InSession.get?_of_aside haside (x := x)
  refine ⟨⟨wf, h.keeps.leads, ?_, ?_, ?_⟩, ?_, fun x hx => ?_, fun m contents hm hnew ht => ?_⟩
  · exact (hget (by simp)).trans h.keeps.there
  · have hrecord := h.keeps.record
    rw [sessionAt_append] at hrecord ⊢
    rwa [hget (by simp)]
  · have hdraft := h.keeps.draft
    rw [sessionAt_append] at hdraft ⊢
    rwa [hget (by simp)]
  · exact (hget (by simp [eq_comm])).trans h.files
  · rcases hmirror x hx with heq | heq
    · rw [heq]
      exact h.mirror x hx
    · exact .inr heq
  · exact hsame m contents hm hnew ht (h.same m contents hm hnew ht)

theorem save (hkeeps : KeepsRecord (q.directory id) (sessionAt r id) u)
    (hsame : SameBut (fun c => sessionAt r id ++ ["manifest.json.tmp"] <+: c ∨
      sessionAt r id ++ ["manifest.json"] <+: c) s u) : Undisturbed t q r id done u := by
  have hfiles (x : List String) : u.get? (filesAt r id ++ x) = s.get? (filesAt r id ++ x) := by
    refine hsame.get? _ ?_
    rw [sessionAt_append, sessionAt_append, filesAt, append_assoc]
    exact not_or.2 ⟨not_prefix_place (by simp), not_prefix_place (by simp)⟩
  have hstore (name : String) : storeAt r <+: sessionAt r id ++ [name] := by
    rw [sessionAt_append]
    exact prefix_place (by simp)
  refine ⟨hkeeps, ?_, fun x hx => ?_, fun m contents hm hnew ht => ?_⟩
  · have := hfiles []
    rw [append_nil] at this
    exact this.trans h.files
  · rw [hfiles x]
    exact h.mirror x hx
  · rw [hsame.get?]
    · exact h.same m contents hm hnew ht
    · have hout := hm.not_storeAt_prefix_of_prefix (prefix_refl (r ++ m))
      exact not_or.2 ⟨fun hp => hout ((hstore _).trans hp), fun hp => hout ((hstore _).trans hp)⟩

theorem removeEmpty (wf : u.WellFormed) (hstore : SameBut (fun c => ¬ storeAt r <+: c) s u)
    (hfiles : ∀ c contents, s.get? c = some (.file contents) → u.get? c = some (.file contents)) :
    Undisturbed t q r id done u := by
  refine h.congr wf (fun c => ?_) (fun x _ => .inl ?_) fun m contents _ _ _ => hfiles _ _
  · exact (hstore.get?_or c).imp_right .inl
  · exact hstore.get? _ (not_not.2 (store_prefix_files x))

end

/-! ## Room in the store -/

section

variable (h : Undisturbed t q r id done s) (wf : t.WellFormed) (hf : ProjectFile t r path contents)
include h wf hf

theorem addDirectories (hadd : AddsDirectories (filesAt r id ++ path.names).dropLast s u) :
    Undisturbed t q r id done u := by
  have hnew := hadd.new_below h.keeps.wf h.files
  refine h.congr hadd.wf (fun c => (hnew c).imp_right ?_) (fun x hx => (hnew _).imp_right ?_)
    fun m contents _ _ _ => hadd.of_some
  · rintro ⟨-, x, hx, rfl, -⟩
    exact .inr ⟨x, hx, rfl⟩
  · rintro ⟨hdir, y, -, heq, ⟨z, hz⟩, hne⟩
    obtain rfl := append_cancel_left heq
    have hthere := hf.there
    have hznil : z ≠ [] := fun hnil => hne (by rw [← hz, hnil, append_nil])
    rw [← hz, ← append_assoc] at hthere
    rw [hdir, wf.directory_above hznil hthere]

theorem isFileName_stored : ∀ name ∈ filesAt r id ++ path.names, IsFileName name := by
  intro name hname
  rcases mem_append.1 hname with hname | hname
  · exact h.keeps.wf.isFileName h.files name hname
  · exact wf.isFileName hf.there name (mem_append_right _ hname)

theorem passable : s.Passable (filesAt r id ++ path.names).dropLast := by
  have hup := dropLast_prefix (filesAt r id ++ path.names)
  refine ⟨fun name hname => h.isFileName_stored wf hf name (hup.subset hname), fun b hb => ?_⟩
  have habove {b : Address} (hb : b <+: filesAt r id) : s.get? b = some .directory := by
    obtain ⟨x, hx⟩ := hb
    by_cases hnil : x = []
    · rw [hnil, append_nil] at hx
      rw [hx, h.files]
    · exact h.keeps.wf.directory_above hnil (hx ▸ h.files)
  rcases prefix_or_prefix_of_prefix (hb.trans hup) (prefix_append (filesAt r id) path.names) with
    hshort | ⟨x, rfl⟩
  · exact .inr (habove hshort)
  by_cases hx : x = []
  · rw [hx, append_nil]
    exact .inr h.files
  -- what is stored there had the names of a directory above the file
  obtain ⟨y, hy⟩ := (prefix_append_right_inj _).1 (hb.trans hup)
  have hynil : y ≠ [] := by
    rintro rfl
    rw [append_nil] at hy
    have hlen := hb.length_le
    have := length_pos_iff.2 hx
    rw [length_dropLast, length_append, length_append, ← hy] at hlen
    omega
  have hthere := hf.there
  rw [← hy, ← append_assoc] at hthere
  rw [← wf.directory_above hynil hthere]
  exact h.mirror x hx

end

section

variable (h : Undisturbed t q r id done s) (hf : ProjectFile t r path contents)
include h hf

theorem stored_cases :
    s.get? (filesAt r id ++ path.names) = none ∨ s.get? (filesAt r id ++ path.names) = some (.file contents) := by
  rw [← hf.there]
  exact h.mirror _ hf.outside.1

theorem stored_ne_directory : s.get? (filesAt r id ++ path.names) ≠ some .directory := by
  rcases h.stored_cases hf with hnone | hfile
  · simp [hnone]
  · simp [hfile]

end

theorem room (h : Undisturbed t q r id done s) (wf : t.WellFormed) (hf : ProjectFile t r path contents)
    (hparent : s.get? (filesAt r id ++ path.names).dropLast = some .directory) :
    s.Room (filesAt r id ++ path.names) :=
  ⟨by simp [filesAt], h.isFileName_stored wf hf, hparent⟩

/-! ## Files -/

variable (h : Undisturbed t q r id done s)
include h

theorem movable (wf : t.WellFormed) (hf : ProjectFile t r path contents) (hnew : path.names ∉ done)
    (hparent : s.get? (filesAt r id ++ path.names).dropLast = some .directory) :
    s.Movable (r ++ path.names) (filesAt r id ++ path.names) where
  source := by
    rw [h.same _ _ hf.outside hnew hf.there]
    rfl
  apart := hf.outside.not_above_store (store_prefix_files _)
  room x hx := by
    rcases h.stored_cases hf with hnone | hfile
    · exact h.keeps.wf.get?_append_eq_none hnone
    · exact h.keeps.wf.get?_below_file hx hfile
  parent := hparent
  names := h.isFileName_stored wf hf

theorem replaces (hf : ProjectFile t r path contents) (hnew : path.names ∉ done) :
    s.Replaces (r ++ path.names) (filesAt r id ++ path.names) := by
  rcases h.stored_cases hf with hnone | hfile
  · exact .of_none hnone
  · exact .of_files (h.same _ _ hf.outside hnew hf.there) hfile

theorem take (wf : t.WellFormed) (hf : ProjectFile t r path contents) (hnew : path.names ∉ done)
    (hmov : s.Movable (r ++ path.names) (filesAt r id ++ path.names)) :
    Undisturbed t q r id (path.names :: done) (s.transfer (r ++ path.names) (filesAt r id ++ path.names)) := by
  have hsame := SameBut.transfer h.keeps.wf hmov
  refine (h.mono fun m hm => mem_cons_of_mem _ hm).congr (h.keeps.wf.transfer hmov) (fun c => ?_) (fun x _ => ?_)
    fun m contents' hm hnot ht hs => ?_
  · exact (hsame.get?_or c).imp_right (InSession.aside_of_isPrefix hf.outside)
  · by_cases hx : filesAt r id ++ path.names <+: filesAt r id ++ x
    · obtain ⟨y, rfl⟩ := (prefix_append_right_inj _).1 hx
      have hfile := h.same _ _ hf.outside hnew hf.there
      rw [← append_assoc, get?_transfer_target h.keeps.wf hmov, ← append_assoc]
      by_cases hy : y = []
      · rw [hy, append_nil, hfile, hf.there]
        exact .inr rfl
      · rw [h.keeps.wf.get?_below_file hy hfile, wf.get?_below_file hy hf.there]
        exact .inr rfl
    · exact .inl (hsame.get? _ (not_or.2 ⟨hf.outside.not_above_store (store_prefix_files x), hx⟩))
  · have hne : m ≠ path.names := fun heq => hnot (heq ▸ mem_cons_self)
    rw [hsame.get? _ (not_or.2 ⟨hf.not_prefix_of_ne wf ht hne, hm.not_files_prefix prefix_rfl⟩), hs]

theorem backUp (hf : ProjectFile t r path contents) (hroom : s.Room (filesAt r id ++ path.names)) :
    Undisturbed t q r id done (s.put (filesAt r id ++ path.names) (.file contents)) := by
  have hdir := h.stored_ne_directory hf
  have hput := SameBut.put (t := s) (n := .file contents) hroom.ne_nil
  refine h.congr (hroom.put h.keeps.wf (.inr hdir)) (fun c => ?_) (fun x _ => ?_)
    fun m contents' hm _ _ hs => ?_
  · exact (hput.get?_or c).imp_right fun hc => .inr ⟨path.names, hf.outside.1, hc⟩
  · by_cases hx : x = path.names
    · rw [hx, get?_put hroom.ne_nil, if_pos rfl, hf.there]
      exact .inr rfl
    · exact .inl (hput.get? _ fun heq => hx (append_cancel_left heq))
  · rw [hput.get? _ (hm.ne_files _), hs]

theorem rewrite (hf : ProjectFile t r path contents) (hdone : path.names ∈ done) (hroom : s.Room (r ++ path.names))
    (hdir : s.get? (r ++ path.names) ≠ some .directory) (new : Bytes) :
    Undisturbed t q r id done (s.put (r ++ path.names) (.file new)) := by
  have hput := SameBut.put (t := s) (n := .file new) hroom.ne_nil
  refine h.congr (hroom.put h.keeps.wf (.inr hdir)) (fun c => ?_) (fun x _ => .inl ?_)
    fun m contents' hm hnot _ hs => ?_
  · refine (hput.get?_or c).imp_right fun hc => .inl ?_
    exact hc ▸ hf.outside.not_storeAt_prefix_of_prefix prefix_rfl
  · exact hput.get? _ (hf.outside.ne_files x).symm
  · have hne : m ≠ path.names := fun heq => hnot (heq ▸ hdone)
    rw [hput.get? _ fun heq => hne (append_cancel_left heq), hs]

end Undisturbed

/-! ## Filling the session -/

namespace InSession

variable {record : Option SessionRecord} {held : List StoredFile} {k : Nat} {f : StoredFile}

theorem backUp (h : InSession t r id record held k s) (wf : t.WellFormed) (hf : f.From t r) (he : f.edited = true)
    {contents : Bytes} (hfile : s.get? (r ++ f.names) = some (.file contents))
    (hnew : ∀ g ∈ held, g.edited = true → g.names ≠ f.names) (hroom : s.Room (filesAt r id ++ f.names))
    (hdir : s.get? (filesAt r id ++ f.names) ≠ some .directory) :
    InSession t r id record (held ++ [f]) k (s.put (filesAt r id ++ f.names) (.file contents)) := by
  have hwf := hroom.put (n := .file contents) h.kept.wf (.inr hdir)
  refine h.congr (h.kept.backUp wf hf he hfile hnew hwf) (fun c => ?_) h.locks
  exact ((SameBut.put hroom.ne_nil).get?_or c).imp_right fun hc => aside_of_isPrefix hf.outside (.inr (by rw [hc]))

theorem rewrite (h : InSession t r id record held k s) (hf : f ∈ held) (he : f.edited = true) {new : Bytes}
    (hhash : f.writtenHash = some (fingerprint new)) (hroom : s.Room (r ++ f.names))
    (hdir : s.get? (r ++ f.names) ≠ some .directory) :
    InSession t r id record held k (s.put (r ++ f.names) (.file new)) := by
  have hwf := hroom.put (n := .file new) h.kept.wf (.inr hdir)
  refine h.congr (h.kept.rewrite hf he hhash hwf) (fun c => ?_) h.locks
  exact ((SameBut.put hroom.ne_nil).get?_or c).imp_right fun hc =>
    aside_of_isPrefix (h.kept.origin f hf).outside (.inl (by rw [hc]))

end InSession

/-- **A file is moved in without fail.** -/
theorem Undisturbed.ensures_moveIn {session : OpenSession} (h : Undisturbed t q r id done s) (wf : t.WellFormed)
    (hq : q.At r) (hid : IsName id) (hsq : session.quarantine = q) (hdir : session.directory = q.directory id)
    (hf : ProjectFile t r path contents) (hnew : path.names ∉ done) : (session.fill (OpenSession.moveIn path)).Ends
      (fun result _ u => result.1 = .ok () ∧ Undisturbed t q r id (path.names :: done) u) moves s := by
  have hrel : session.relative path = path := OpenSession.relative_eq (hsq ▸ hq) hf.relative
  have hhome : LeadsTo (q.root.join path) (r ++ path.names) := hq.join hf.relative
  have hwants : wantsDirectory (q.root.join path) = false :=
    (wantsDirectory_join hq.text_ne hf.relative.relative).trans hf.plain
  have hstored := leadsTo_storedPath hq hid hf.relative
  have hwants' := (wantsDirectory_storedPath hq hid hf.relative).trans hf.plain
  have hne : r ++ path.names ≠ filesAt r id ++ path.names := hf.outside.ne_files _
  refine ensures_get_bind ?_
  simp only [hrel, hsq, hdir]
  refine ensures_files_bind (ensures_status trivial ?_)
  rw [exists_find h.keeps.wf hhome (h.same _ _ hf.outside hnew hf.there) (by simp [hwants])]
  refine ensures_files_bind ((ensures_makeDirectoriesAbove h.keeps.wf hstored (by simp [filesAt])).imp ?_)
  rintro result _ u ⟨-, hadd, hmade, hpass⟩
  obtain rfl := hpass (h.passable wf hf)
  have hu := h.addDirectories wf hf hadd
  have hmov := hu.movable wf hf hnew (hmade rfl)
  have hmove : u.move (q.root.join path) ((q.directory id).join (filesDirectory.join path)) = .ok _ :=
    (move_eq_ok_iff hadd.wf hhome hstored hne).2 ⟨hmov, hu.replaces hf hnew, by simp [hwants, hwants'], rfl⟩
  refine ensures_files_bind (ensures_moveFile hadd.wf hhome hstored hne trivial (fun e he => ?_) fun v hv => ?_)
  · rw [hmove] at he
    cases he
  rw [hmove] at hv
  cases hv
  refine ensures_fill_bind (FileTask.ensures_add ?_)
  rw [hdir]
  refine ((hu.take wf hf hnew hmov).keeps.ensures_save _).imp ?_
  rintro _ _ v ⟨rfl, hkeeps, -, hsaved⟩
  have hv := (hu.take wf hf hnew hmov).save hkeeps hsaved.same
  obtain ⟨above, habove, hlead⟩ := hhome.parent_below hf.outside.1
  dsimp only
  rw [habove]
  refine ensures_fill_lift (ensures_monadLift ((ensures_removeEmptyBelow_files hv.keeps.wf hq hf.outside hlead
    (List.dropLast_prefix _)).imp ?_))
  rintro _ _ w ⟨⟨hw, hstore⟩, hfiles⟩
  exact ⟨rfl, hv.removeEmpty hw hstore hfiles⟩

/-- A session is filled with files of a project. Those with the names `removed` have been moved into it, and those
with the names `pruned` have been backed up or left as they are. -/
structure Cleaning (t : FileTree) (q : Quarantine) (r : Address) (id : String) (now : Moment) (session : OpenSession)
    (pruned removed : List (List String)) (s : FileTree) : Prop extends Undisturbed t q r id (pruned ++ removed) s where
  quarantine : session.quarantine = q
  tree : InSession t r id (some session.record) session.record.files 1 s
  fits : session.record.Fits t r id now
  edited : ∀ f ∈ session.record.files, f.edited = true → f.names ∈ pruned
  backedUp : ∀ p ∈ session.backedUp, p.names ∈ pruned

namespace Cleaning

variable {session : OpenSession} {now : Moment} {pruned removed : List (List String)}

variable (h : Cleaning t q r id now session pruned removed s)
include h

theorem mono (m : List String) : Cleaning t q r id now session (m :: pruned) removed s :=
  ⟨h.toUndisturbed.mono fun _ hm => mem_cons_of_mem m hm, h.quarantine, h.tree, h.fits,
    fun f hf he => mem_cons_of_mem m (h.edited f hf he), fun p hp => mem_cons_of_mem m (h.backedUp p hp)⟩

theorem directory : session.directory = q.directory id := by
  rw [OpenSession.directory, h.quarantine, h.fits.id]

/-- **A file is backed up without fail.** -/
theorem ensures_backUp (wf : t.WellFormed) (hq : q.At r) (hid : IsName id) (hf : ProjectFile t r path contents)
    (hnew : path.names ∉ pruned ++ removed) (replacement : Bytes) :
    (session.fill (OpenSession.backUp path replacement)).Ends (fun result _ u => result.1 = .ok () ∧
      Cleaning t q r id now result.2 (path.names :: pruned) removed u ∧
      u.get? (r ++ path.names) = some (.file contents) ∧
      ∃ f ∈ result.2.record.files, f.names = path.names ∧ f.edited = true ∧
        f.writtenHash = some (fingerprint replacement)) moves s := by
  obtain rfl := h.quarantine
  have hhome : LeadsTo (session.quarantine.root.join path) (r ++ path.names) := hq.join hf.relative
  have hwants : wantsDirectory (session.quarantine.root.join path) = false :=
    (wantsDirectory_join hq.text_ne hf.relative.relative).trans hf.plain
  have hstored := leadsTo_storedPath hq hid hf.relative
  have hwants' := (wantsDirectory_storedPath hq hid hf.relative).trans hf.plain
  have hcontains : session.backedUp.contains path = false := by
    refine Bool.eq_false_iff.2 fun hcontains => hnew (mem_append_left _ ?_)
    obtain ⟨p, hp, heq⟩ := contains_iff_exists_mem_beq.1 hcontains
    rw [Path.names_eq_of_beq heq]
    exact h.backedUp p hp
  refine ensures_get_bind ?_
  simp only [OpenSession.relative_eq hq hf.relative, hcontains, h.directory, Bool.false_eq_true, if_false]
  refine ensures_fill_bind (ensures_pure.2 ?_)
  refine ensures_files_bind ((ensures_makeDirectoriesAbove h.keeps.wf hstored (by simp [filesAt])).imp ?_)
  rintro result _ u ⟨-, hadd, hmade, hpass⟩
  obtain rfl := hpass (h.passable wf hf)
  have hu := h.addDirectories wf hf hadd
  have hroom := hu.room wf hf (hmade rfl)
  have hdir := hu.stored_ne_directory hf
  have hthere := hu.same _ _ hf.outside hnew hf.there
  have hcopy : u.copy (session.quarantine.root.join path)
      ((session.quarantine.directory id).join (filesDirectory.join path)) = .ok (contents.length, _) :=
    (copy_eq_ok_iff hadd.wf hhome hstored (ne_filesAt _)).2 ⟨contents, hthere, hwants, rfl,
      (write_eq_ok_iff hadd.wf hstored).2 ⟨hroom, hdir, hwants', rfl⟩⟩
  refine ensures_files_bind (ensures_copy trivial (fun e he => ?_) fun size v hv => ?_)
  · rw [hcopy] at he
    cases he
  rw [hcopy] at hv
  cases hv
  -- the copy is recorded
  let f : StoredFile := { home := path, stored := filesDirectory.join path, size := contents.length, edited := true,
                          writtenHash := some (fingerprint replacement) }
  have hfrom : f.From t r := ⟨hf.relative, rfl, hf.outside, by rw [StoredFile.names, hf.there]; rfl, fun hw => by
    rw [hf.plain] at hw
    cases hw⟩
  have hstore := (h.tree.addDirectories hadd (by rw [h.same _ _ hf.outside hnew hf.there]; rfl)).backUp wf hfrom rfl
    hthere (fun g hg he (heq : _ = path.names) => hnew (mem_append_left _ (heq ▸ h.edited g hg he))) hroom hdir
  have hbacked := hu.backUp hf hroom
  have hdirectory : OpenSession.directory { session with backedUp := path :: session.backedUp } =
      session.quarantine.directory id := h.directory
  refine FileTask.ensures_add ?_
  rw [hdirectory]
  refine ((hstore.ensures_save hq hid (session.record.add f)).and (hbacked.keeps.ensures_save _)).imp ?_
  rintro _ _ v ⟨⟨rfl, -, htree⟩, -, hkeeps, -, hsaved⟩
  have hv := hbacked.save hkeeps hsaved.same
  have hfiles := session.record.files_add f
  have hmem : f ∈ (session.record.add f).files := hfiles ▸ mem_append_right _ mem_cons_self
  have hfits : (session.record.add f).Fits t r id now := h.fits.add fun n (hn : t.get? (r ++ path.names) = some n) => by
    cases hf.there.symm.trans hn
    rfl
  refine ⟨rfl, ⟨hv.mono fun _ hm => mem_cons_of_mem _ hm, rfl, by rwa [← hfiles] at htree, hfits, ?_, ?_⟩,
    hv.same _ _ hf.outside hnew hf.there, f, hmem, rfl, rfl, rfl⟩
  · intro g hg he
    rcases mem_append.1 (hfiles ▸ hg) with hg | hg
    · exact mem_cons_of_mem _ (h.edited g hg he)
    · exact mem_singleton.1 hg ▸ mem_cons_self
  · exact forall_mem_cons.2 ⟨mem_cons_self, fun p hp => mem_cons_of_mem _ (h.backedUp p hp)⟩

end Cleaning

end Deadwood
