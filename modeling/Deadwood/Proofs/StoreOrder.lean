import Deadwood.Proofs.SessionWork

/-!
# A store in order

Every call leaves the store in order: sessions have plain names, their records can be read and name files outside the
store, and the lock file beside a session is locked if and only if the session is held.

* **`Orderly.restore`**, **`Orderly.purge`**, **`Orderly.ensures_openSession`**, `Orderly.fill`, `Orderly.unlock`: the
  calls keep the store in order.
-/

namespace Deadwood

open List FileTree FileTask Deadwood.Path Quarantine

/-! ## The invariant -/

/-- A record as sessions write it: it can be read again, and its files have been outside the store. -/
structure SessionRecord.IsTidy (record : SessionRecord) : Prop where
  writable : record.Writable
  files : ∀ f ∈ record.files, f.IsTidy

/-- The store is in order, and the sessions `held` are locked. -/
structure Orderly (r : Address) (held : List String) (t : FileTree) : Prop where
  wf : t.WellFormed
  root : t.get? r = some .directory
  names : ∀ name, t.get? (sessionAt r name) = some .directory → '.' ∉ name.toList
  inner : ∀ name x, InnerLock x → t.get? (sessionAt r name ++ [x]) ≠ some .directory ∧
    sessionAt r name ++ [x] ∉ t.locks
  records : ∀ name contents, t.get? (recordAt r name) = some (.file contents) →
    (∃ record : SessionRecord, record.IsTidy ∧ contents = record.contents) ∧
      ∃ lock, t.get? (lockAt r name) = some (.file lock)
  locks : ∀ name, t.locks.count (lockAt r name) = held.count name
  holding : ∀ name ∈ held, IsName name ∧ '.' ∉ name.toList ∧ ∃ lock, t.get? (lockAt r name) = some (.file lock)
  nodup : held.Nodup

variable {r a : Address} {name n id : String} {held : List String} {s u v : FileTree} {W : Bytes → Prop}
  {q : Quarantine} {record : SessionRecord} {now : Moment} {moves : List (Path × Path)}

section Places

variable {x : String}

theorem recordAt_eq (r : Address) (name : String) : recordAt r name = sessionAt r name ++ ["manifest.json"] :=
  (sessionAt_append r name ["manifest.json"]).symm

theorem lockAt_inj : lockAt r name = lockAt r n ↔ name = n := by
  rw [lockAt, lockAt, append_right_inj]
  constructor
  · intro h
    simpa using h
  · rintro rfl
    rfl

theorem sessionAt_ne_lockAt (hdot : '.' ∉ name.toList) : sessionAt r name ≠ lockAt r n := fun h => by
  have h : name = n ++ ".lock" := by simpa [sessionAt, lockAt] using h
  exact hdot (by rw [h]; simp)

theorem LockedAt.ne_root (h : LockedAt r n a) : a ≠ r := by
  have hne {y : List String} (hy : y ≠ []) : r ++ y ≠ r := by simpa using hy
  rcases h with rfl | ⟨x, -, rfl⟩
  · exact hne (by simp)
  · rw [sessionAt_append]
    exact hne (by simp)

theorem LockedAt.ne_record (h : LockedAt r n a) : a ≠ recordAt r name := by
  rcases h with rfl | ⟨x, hx, rfl⟩
  · simp [lockAt, recordAt]
  · rw [recordAt_eq]
    intro heq
    have := congrArg List.getLast? heq
    rcases hx with rfl | rfl <;> simp at this

end Places

namespace Orderly

theorem start (wf : s.WellFormed) (hroot : s.get? r = some .directory) (hstore : s.get? (storeAt r) = none)
    (hlocks : ∀ c ∈ s.locks, ¬ storeAt r <+: c) : Orderly r [] s := by
  have hnone (x : List String) : s.get? (r ++ ".deadfiles" :: x) = none := by
    have h := wf.get?_append_eq_none hstore (x := x)
    rwa [storeAt, append_assoc] at h
  have hfree (x : List String) : r ++ ".deadfiles" :: x ∉ s.locks := fun hmem => hlocks _ hmem (prefix_place (by simp))
  refine ⟨wf, hroot, fun n hn => ?_, fun n x _ => ?_, fun n contents hn => ?_, fun n => ?_, by simp, nodup_nil⟩
  · rw [sessionAt, hnone] at hn
    cases hn
  · rw [sessionAt_append, hnone]
    exact ⟨by simp, hfree _⟩
  · rw [recordAt, hnone] at hn
    cases hn
  · rw [count_nil, count_eq_zero]
    exact hfree _

theorem worked (h : Orderly r held s) (hdot : '.' ∉ name.toList) (hu : WorkedIn r name W s u)
    (hroot : u.get? r = some .directory)
    (hW : ∀ contents, W contents → (∃ record : SessionRecord, record.IsTidy ∧ contents = record.contents) ∧
      ∃ lock, s.get? (lockAt r name) = some (.file lock)) : Orderly r held u := by
  have hlock (n : String) : u.get? (lockAt r n) = s.get? (lockAt r n) :=
    hu.same.get? _ (not_workspace_lock hdot)
  refine ⟨hu.wf, hroot, fun n hdir => ?_, fun n x hx => ?_, fun n contents hfile => ?_, fun n => ?_, fun n hn => ?_,
    h.nodup⟩
  · by_cases hn : n = name
    · exact hn ▸ hdot
    · have hsame := hu.same.get? _ (not_workspace_other hn [])
      rw [append_nil] at hsame
      exact h.names n (hsame ▸ hdir)
  · have hx' : ¬ Workspace r name (sessionAt r n ++ [x]) := not_workspace_inner hx
    rw [hu.same.get? _ hx', ← count_eq_zero, hu.same.locks _ hx', count_eq_zero]
    exact h.inner n x hx
  · rw [hlock]
    by_cases hn : n = name
    · subst hn
      rcases hu.record with hsame | ⟨contents', hc, hnew⟩
      · exact h.records n contents (hsame ▸ hfile)
      · rw [hnew] at hfile
        cases hfile
        exact hW contents hc
    · rw [recordAt_eq, hu.same.get? _ (not_workspace_other hn _), ← recordAt_eq] at hfile
      exact h.records n contents hfile
  · rw [hu.same.locks _ (not_workspace_lock hdot)]
    exact h.locks n
  · rw [hlock]
    exact h.holding n hn

theorem touch (h : Orderly r held s) (hat : LockedAt r name a) (hroom : s.Room a) (hdir : s.get? a ≠ some .directory) :
    Orderly r held (s.touch a) := by
  have hsame (c : Address) (hc : c ≠ a) : (s.touch a).get? c = s.get? c := (SameBut.touch hroom.ne_nil).get? c hc
  obtain ⟨lock, hfile⟩ := exists_touch hdir hroom.ne_nil
  have hdirectory (c : Address) (hc : (s.touch a).get? c = some .directory) : s.get? c = some .directory := by
    by_cases hca : c = a
    · rw [hca, hfile] at hc
      cases hc
    · rwa [hsame c hca] at hc
  have hlock (n : String) (hn : ∃ lock, s.get? (lockAt r n) = some (.file lock)) :
      ∃ lock, (s.touch a).get? (lockAt r n) = some (.file lock) := by
    by_cases hca : lockAt r n = a
    · exact ⟨lock, hca ▸ hfile⟩
    · rwa [hsame _ hca]
  refine ⟨h.wf.touch hroom, ?_, fun n hn => h.names n (hdirectory _ hn), fun n x hx => ?_, fun n contents hn => ?_,
    ?_, fun n hn => ?_, h.nodup⟩
  · rw [hsame _ hat.ne_root.symm, h.root]
  · rw [locks_touch]
    exact ⟨mt (hdirectory _) (h.inner n x hx).1, (h.inner n x hx).2⟩
  · rw [hsame _ hat.ne_record.symm] at hn
    exact (h.records n contents hn).imp_right (hlock n)
  · rw [locks_touch]
    exact h.locks
  · exact ⟨(h.holding n hn).1, (h.holding n hn).2.1, hlock n (h.holding n hn).2.2⟩

theorem hold (h : Orderly r held s) (hname : IsName name) (hdot : '.' ∉ name.toList)
    (hfile : ∃ lock, s.get? (lockAt r name) = some (.file lock)) (hfree : lockAt r name ∉ s.locks) :
    Orderly r (name :: held) (s.withLock (lockAt r name)) := by
  have hnot : name ∉ held := by
    rw [← count_eq_zero, ← h.locks name, count_eq_zero]
    exact hfree
  refine ⟨h.wf.withLock _, h.root, h.names, fun n x hx => ⟨(h.inner n x hx).1, ?_⟩, h.records, fun n => ?_, ?_,
    nodup_cons.2 ⟨hnot, h.nodup⟩⟩
  · intro hmem
    rcases mem_cons.1 hmem with heq | hmem
    · have := congrArg List.length heq
      simp [sessionAt, lockAt] at this
    · exact (h.inner n x hx).2 hmem
  · show (lockAt r name :: s.locks).count (lockAt r n) = _
    rw [count_cons, count_cons, h.locks n]
    simp only [beq_iff_eq, lockAt_inj]
  · rintro n (_ | ⟨_, hn⟩)
    · exact ⟨hname, hdot, hfile⟩
    · exact h.holding n hn

theorem release (h : Orderly r (name :: held) s) :
    Orderly r held { s with locks := s.locks.erase (lockAt r name) } := by
  refine ⟨WellFormed.locks h.wf _, h.root, h.names, fun n x hx => ⟨(h.inner n x hx).1, ?_⟩, h.records, fun n => ?_,
    (forall_mem_cons.1 h.holding).2, (nodup_cons.1 h.nodup).2⟩
  · exact mt mem_of_mem_erase (h.inner n x hx).2
  · have hcount := h.locks n
    show (s.locks.erase (lockAt r name)).count (lockAt r n) = _
    rw [count_erase, hcount, count_cons]
    simp only [beq_iff_eq, lockAt_inj]
    omega

theorem erase (h : Orderly r held s) (ha : a ≠ []) (hroot : ¬ a <+: r)
    (hlock : ∀ n, a <+: lockAt r n → n ∉ held ∧ s.get? (recordAt r n) = none) : Orderly r held (s.erase a) := by
  have hsame := SameBut.erase (t := s) ha
  have hsome {c : Address} {n : Node} (hc : (s.erase a).get? c = some n) : s.get? c = some n := by
    rw [get?_erase ha] at hc
    split at hc
    · cases hc
    · exact hc
  refine ⟨h.wf.erase ha, (hsame.get? r hroot).trans h.root, fun n hn => h.names n (hsome hn),
    fun n x hx => ⟨mt hsome (h.inner n x hx).1, fun hmem => (h.inner n x hx).2 (mem_filter.1 hmem).1⟩,
    fun n contents hn => ?_, fun n => ?_, fun n hn => ?_, h.nodup⟩
  · have hrecord := hsome hn
    rw [hsame.get? _ fun hp => ?_]
    · exact h.records n contents hrecord
    · rw [(hlock n hp).2] at hrecord
      cases hrecord
  · by_cases hp : a <+: lockAt r n
    · rw [count_eq_zero.2 (hlock n hp).1, count_eq_zero]
      exact fun hmem => not_isPrefixOf_iff.1 (mem_filter.1 hmem).2 hp
    · rw [hsame.locks _ hp]
      exact h.locks n
  · rw [hsame.get? _ fun hp => (hlock n hp).1 hn]
    exact h.holding n hn

theorem eraseSession (h : Orderly r held s) (hdot : '.' ∉ name.toList) :
    Orderly r held (s.erase (sessionAt r name)) := by
  refine h.erase (by simp [sessionAt]) (fun hp => ?_) fun n hp => ?_
  · have := hp.length_le
    simp [sessionAt] at this
  · exact absurd (hp.eq_of_length (by simp [sessionAt, lockAt])) (sessionAt_ne_lockAt hdot)

theorem eraseLock (h : Orderly r held s) (hrecord : s.get? (recordAt r name) = none) (hnot : name ∉ held) :
    Orderly r held (s.erase (lockAt r name)) := by
  refine h.erase (by simp [lockAt]) (fun hp => ?_) fun n hp => ?_
  · have := hp.length_le
    simp [lockAt] at this
  · obtain rfl := lockAt_inj.1 (hp.eq_of_length (by simp [lockAt]))
    exact ⟨hnot, hrecord⟩

end Orderly

/-! ## Deleting -/

theorem FileTask.reading_countFiles (fuel : Nat) (p : Path) : (countFiles fuel p).Reading := by
  induction fuel generalizing p with
  | zero => exact reading_pure 0
  | succ fuel ih =>
    refine (reading_status p).bind fun status => ?_
    cases status with
    | error e => exact reading_pure 0
    | ok status =>
      dsimp only
      split
      · exact reading_pure 1
      · refine (reading_list p).bind fun names => ?_
        cases names with
        | error e => exact reading_pure 0
        | ok names => exact (reading_mapM fun name => ih _).bind fun counts => reading_pure _

section Purge

variable {directory p : Path} {b : Address}

theorem run_purgeWithin (wf : s.WellFormed) (hdirectory : LeadsTo directory (sessionAt r name))
    (hdir : s.get? (sessionAt r name) = some .directory) :
    ∃ count, (purgeWithin directory).run.run s = (.ok count, s.erase (sessionAt r name)) := by
  have hremove : (QuarantineTask.ofFiles (FileTask.removeTree directory)).run.run s =
      (.ok (), s.erase (sessionAt r name)) := by
    refine Ensures.run_eq (ensures_ofFiles (ensures_removeTree trivial (fun e he => ?_) fun u hu => ?_))
    · rw [removeTree_eq_ok wf hdirectory hdir] at he
      cases he
    · rw [removeTree_eq_ok wf hdirectory hdir] at hu
      cases hu
      rfl
  refine ⟨((countFiles maxDepth (directory.join filesDirectory)).run s).1, ?_⟩
  rw [purgeWithin, run_run_bind, run_monadLift, reading_countFiles]
  dsimp only
  rw [run_run_bind, hremove]
  rfl

/-- What is left of a session that is deleted: its directory is gone, and the lock file beside it if that was taken. -/
def Purged (r : Address) (name : String) (a : Address) (s : FileTree) : FileTree :=
  if a = lockAt r name then ((s.touch a).erase (sessionAt r name)).erase a
  else (s.touch a).erase (sessionAt r name)

theorem FileTree.erase_withLock_below (h : b <+: a) : (s.withLock a).erase b = s.erase b := by
  have hprefix : (!b.isPrefixOf a) = false := by simpa using h
  simp [FileTree.erase, withLock, hprefix]

theorem FileTree.erase_withLock (h : ¬ b <+: a) : (s.withLock a).erase b = (s.erase b).withLock a := by
  have hprefix : (!b.isPrefixOf a) = true := not_isPrefixOf_iff.2 h
  simp [FileTree.erase, withLock, hprefix]

section

variable (wf : s.WellFormed)
include wf

theorem FileTree.unlock_withLock (hp : LeadsTo p a) (hroom : s.Room a) : (s.withLock a).unlock p = s := by
  rw [unlock_eq (wf.withLock a) hp ⟨hroom.ne_nil, hroom.names, hroom.parent⟩]
  simp [withLock]

theorem FileTree.unlock_of_not_room (hp : LeadsTo p a) (ha : a ≠ []) (h : ¬ s.Room a) : s.unlock p = s := by
  unfold unlock
  split
  · rename_i b hb
    exact absurd (((address_eq_ok_iff wf hp).1 hb).2.resolve_left ha) h
  · rfl

theorem run_removeFile (hp : LeadsTo p a) (hwants : wantsDirectory p = false) {contents : Bytes}
    (hfile : s.get? a = some (.file contents)) : ((FileTask.removeFile p).run s).2 = s.erase a := by
  have h := (removeFile_eq_ok_iff wf hp).2 ⟨⟨contents, hfile⟩, hwants, rfl⟩
  show (FileOp.change s (s.removeFile p)).2 = _
  rw [h]
  rfl

theorem run_removeFile_of_none (hp : LeadsTo p a) (h : s.get? a = none) : ((FileTask.removeFile p).run s).2 = s := by
  show (FileOp.change s (s.removeFile p)).2 = _
  cases hremove : s.removeFile p with
  | error e => rfl
  | ok u =>
    obtain ⟨⟨contents, hfile⟩, -, -⟩ := (removeFile_eq_ok_iff wf hp).1 hremove
    rw [h] at hfile
    cases hfile

theorem run_removeLock_beside (hlead : LeadsTo p (lockAt r name)) (hwants : wantsDirectory p = false)
    (hdot : '.' ∉ name.toList) {lock : Bytes} (hlock : s.get? (lockAt r name) = some (.file lock)) :
    ((FileTask.removeFile p).run (((s.withLock (lockAt r name)).erase (sessionAt r name)).unlock p)).2 =
      (s.erase (sessionAt r name)).erase (lockAt r name) := by
  have hapart : ¬ sessionAt r name <+: lockAt r name := fun hp =>
    sessionAt_ne_lockAt hdot (hp.eq_of_length (by simp [sessionAt, lockAt]))
  have hne : sessionAt r name ≠ [] := by simp [sessionAt]
  have hwf := wf.erase hne
  have hlock' : (s.erase (sessionAt r name)).get? (lockAt r name) = some (.file lock) := by
    rw [get?_erase hne, if_neg hapart, hlock]
  rw [erase_withLock hapart, unlock_withLock hwf hlead (hwf.room (by simp [lockAt]) hlock'),
    run_removeFile hwf hlead hwants hlock']

theorem run_removeLock_within {x : String} (hlead : LeadsTo p (sessionAt r name ++ [x])) :
    ((FileTask.removeFile p).run (((s.withLock (sessionAt r name ++ [x])).erase (sessionAt r name)).unlock p)).2 =
      s.erase (sessionAt r name) := by
  have hne : sessionAt r name ≠ [] := by simp [sessionAt]
  have hwf := wf.erase hne
  have hgone : (s.erase (sessionAt r name)).get? (sessionAt r name) = none := by
    rw [get?_erase hne, if_pos prefix_rfl]
  have hnot : ¬ (s.erase (sessionAt r name)).Room (sessionAt r name ++ [x]) := fun h => by
    have := h.parent
    rw [dropLast_concat, hgone] at this
    cases this
  rw [erase_withLock_below (prefix_append _ _), unlock_of_not_room hwf hlead (by simp) hnot,
    run_removeFile_of_none hwf hlead (hwf.get?_append_eq_none hgone)]

end

/-- **A session is deleted**, or all that may come of it is an empty lock file. -/
theorem Orderly.purge_cases (h : Orderly r held s) (hq : q.At r) (id : String) :
    (∃ e, (q.purge id).run.run s = (.error e, s)) ∨ ∃ name a, Denotes id name ∧
      s.get? (sessionAt r name) = some .directory ∧ LockedAt r name a ∧ s.Room a ∧ s.get? a ≠ some .directory ∧
      ((∃ e, (q.purge id).run.run s = (.error e, s.touch a)) ∨
        a ∉ s.locks ∧ ∃ count, (q.purge id).run.run s = (.ok count, Purged r name a s)) := by
  by_cases hthere : ∃ name, Denotes id name ∧ s.get? (sessionAt r name) = some .directory
  swap
  · exact .inl ⟨_, (run_of_missing h.wf hq fun name hid hdir => hthere ⟨name, hid, hdir⟩).2⟩
  obtain ⟨name, hid, hdir⟩ := hthere
  obtain ⟨a, hlead, hat⟩ := hid.leadsTo_lockFile hq
  have hwants := hid.wantsDirectory_lockFile hq
  rw [run_purge h.wf hq hid hdir]
  rcases run_locked_cases h.wf hlead hwants (purgeWithin (q.directory id)) with
    ⟨e, hrun⟩ | ⟨hroom, hfile, ⟨e, hrun⟩ | ⟨hfree, hrun⟩⟩
  · rw [hrun]
    exact .inl ⟨e, rfl⟩
  · rw [hrun]
    exact .inr ⟨name, a, hid, hdir, hat, hroom, hfile, .inl ⟨e, rfl⟩⟩
  refine .inr ⟨name, a, hid, hdir, hat, hroom, hfile, .inr ⟨hfree, ?_⟩⟩
  have htouch := h.wf.touch hroom
  have hthere : (s.touch a).get? (sessionAt r name) = some .directory := by
    rw [(SameBut.touch hroom.ne_nil).get? _ fun heq => hfile (heq ▸ hdir), hdir]
  obtain ⟨count, hpurge⟩ := run_purgeWithin (htouch.withLock a) (hid.leadsTo_directory hq) hthere
  rw [hrun, hpurge]
  refine ⟨count, congrArg (Prod.mk _) ?_⟩
  dsimp only
  rcases hat with rfl | ⟨x, hx, rfl⟩
  · obtain ⟨lock, hlock⟩ := exists_touch hfile hroom.ne_nil
    rw [run_removeLock_beside htouch hlead hwants (h.names name hdir) hlock, Purged, if_pos rfl]
  · have hother : sessionAt r name ++ [x] ≠ lockAt r name := fun heq => by
      have := congrArg List.length heq
      simp [sessionAt, lockAt] at this
    rw [run_removeLock_within htouch hlead, Purged, if_neg hother]

theorem Orderly.purged (h : Orderly r held s) (hdot : '.' ∉ name.toList) (hat : LockedAt r name a) (hroom : s.Room a)
    (hfile : s.get? a ≠ some .directory) (hfree : a ∉ s.locks) : Orderly r held (Purged r name a s) := by
  have herased := (h.touch hat hroom hfile).eraseSession hdot
  unfold Purged
  split
  · rename_i heq
    subst heq
    refine herased.eraseLock ?_ ?_
    · rw [recordAt_eq, get?_erase (by simp [sessionAt]), if_pos (prefix_append _ _)]
    · rw [← count_eq_zero, ← h.locks name, count_eq_zero]
      exact hfree
  · exact herased

end Purge

/-! ## Other sessions -/

/-- All that belongs to other sessions is as it was. -/
def Spares (r : Address) (name : String) (s u : FileTree) : Prop :=
  ∀ n, n ≠ name → '.' ∉ n.toList → ∀ x, u.get? (sessionAt r n ++ x) = s.get? (sessionAt r n ++ x)

section Spares

section

variable (h : Spares r name s u)
include h

theorem Spares.trans (h' : Spares r name u v) : Spares r name s v :=
  fun n hn hdot x => (h' n hn hdot x).trans (h n hn hdot x)

theorem Spares.get?_record (hn : n ≠ name) (hdot : '.' ∉ n.toList) :
    u.get? (recordAt r n) = s.get? (recordAt r n) := by
  rw [recordAt_eq]
  exact h n hn hdot _

theorem Spares.get?_session (hn : n ≠ name) (hdot : '.' ∉ n.toList) :
    u.get? (sessionAt r n) = s.get? (sessionAt r n) := by
  have hsame := h n hn hdot []
  rwa [append_nil] at hsame

theorem Spares.directory (hdot : '.' ∉ n.toList)
    (hown : s.get? (sessionAt r name) = some .directory → u.get? (sessionAt r name) = some .directory)
    (hdir : s.get? (sessionAt r n) = some .directory) : u.get? (sessionAt r n) = some .directory := by
  by_cases hn : n = name
  · subst hn
    exact hown hdir
  · rw [h.get?_session hn hdot, hdir]

end

theorem WorkedIn.spares (h : WorkedIn r name W s u) : Spares r name s u :=
  fun _ hn _ x => h.same.get? _ (not_workspace_other hn x)

theorem LockedAt.not_prefix (h : LockedAt r name a) (hn : n ≠ name) (hdot : '.' ∉ n.toList)
    (x : List String) : ¬ a <+: sessionAt r n ++ x := by
  rw [sessionAt_append]
  rcases h with rfl | ⟨y, -, rfl⟩
  · rw [lockAt, prefix_append_right_inj]
    simp only [cons_prefix_cons, true_and]
    rintro ⟨rfl, -⟩
    exact hdot (by simp)
  · rw [sessionAt_append, prefix_append_right_inj]
    simp only [cons_prefix_cons, true_and]
    rintro ⟨rfl, -⟩
    exact hn rfl

theorem spares_touch (h : LockedAt r name a) (ha : a ≠ []) : Spares r name s (s.touch a) := fun _ hn hdot x =>
  (SameBut.touch ha).get? _ fun heq => h.not_prefix hn hdot x (heq ▸ prefix_rfl)

theorem spares_purged (h : LockedAt r name a) (ha : a ≠ []) : Spares r name s (Purged r name a s) := by
  intro n hn hdot x
  have hapart : ¬ sessionAt r name <+: sessionAt r n ++ x := by
    rw [sessionAt_append, sessionAt, prefix_append_right_inj]
    simpa using hn.symm
  unfold Purged
  split
  · rw [get?_erase ha, if_neg (h.not_prefix hn hdot x), get?_erase (by simp [sessionAt]), if_neg hapart]
    exact spares_touch h ha n hn hdot x
  · rw [get?_erase (by simp [sessionAt]), if_neg hapart]
    exact spares_touch h ha n hn hdot x

theorem get?_purged (ha : a ≠ []) (x : List String) :
    (Purged r name a s).get? (sessionAt r name ++ x) = none := by
  have hgone : ((s.touch a).erase (sessionAt r name)).get? (sessionAt r name ++ x) = none := by
    rw [get?_erase (by simp [sessionAt]), if_pos (prefix_append _ _)]
  unfold Purged
  split
  · rw [get?_erase ha, hgone, ite_self]
  · exact hgone

end Spares

/-! ## Calls on one session -/

section Calls

theorem SessionRecord.IsTidy.hasRecord_iff (h : record.IsTidy) {contents : Bytes}
    (hfile : s.get? (recordAt r name) = some (.file contents)) (hcontents : contents = record.contents)
    {record' : SessionRecord} : HasRecord r name s record' ↔ record' = record := by
  have hread := SessionRecord.ofContents?_contents h.writable
  rw [← hcontents] at hread
  constructor
  · intro h'
    exact h'.unique ⟨contents, hfile, hread⟩
  · rintro rfl
    exact ⟨contents, hfile, hread⟩

theorem SessionRecord.IsTidy.restored (h : record.IsTidy) :
    ({ record with status := .restored } : SessionRecord).IsTidy :=
  ⟨⟨h.writable.createdAt, h.writable.sizes, h.writable.fileCount, h.writable.totalSize⟩, h.files⟩

theorem Orderly.isTidy (h : Orderly r held s) (hrecord : HasRecord r name s record) : record.IsTidy := by
  obtain ⟨contents, hfile, -⟩ := id hrecord
  obtain ⟨⟨record', htidy, hcontents⟩, -⟩ := h.records name contents hfile
  rwa [(htidy.hasRecord_iff hfile hcontents).1 hrecord]

theorem Orderly.lockFile (h : Orderly r held s) (hrecord : HasRecord r name s record) :
    ∃ lock, s.get? (lockAt r name) = some (.file lock) := by
  obtain ⟨contents, hfile, -⟩ := hrecord
  exact (h.records name contents hfile).2

theorem LockedAt.root (h : LockedAt r name a) (wf : u.WellFormed) {n : Node} (ha : u.get? a = some n) :
    u.get? r = some .directory := by
  rcases h with rfl | ⟨x, -, rfl⟩
  · exact wf.directory_above (by simp) ha
  · rw [sessionAt_append] at ha
    exact wf.directory_above (by simp) ha

theorem HasRecord.directory (h : HasRecord r name s record) (wf : s.WellFormed) :
    s.get? (sessionAt r name) = some .directory := by
  obtain ⟨contents, hfile, -⟩ := h
  rw [recordAt_eq] at hfile
  exact wf.directory_above (by simp) hfile

section

variable (h : Orderly r held s) (hq : q.At r)
include h hq

/-- What a call may make of one session: nothing, or its lock file is touched and work is done in it. -/
theorem Orderly.restore_cases (id : String) :
    ((q.restore id).run.run s).2 = s ∨ ∃ name a, Denotes id name ∧ s.get? (sessionAt r name) = some .directory ∧
      LockedAt r name a ∧ s.Room a ∧ s.get? a ≠ some .directory ∧
      WorkedIn r name (RestoredRecord r name s) (s.touch a) ((q.restore id).run.run s).2 := by
  by_cases hthere : ∃ name, Denotes id name ∧ s.get? (sessionAt r name) = some .directory
  · obtain ⟨name, hid, hdir⟩ := hthere
    have hdot := h.names name hdir
    rcases restore_worked h.wf hq hid hdir hdot fun record hrecord => (h.isTidy hrecord).files with
      hsame | ⟨a, hat, hroom, hfile, hworked⟩
    · exact .inl hsame
    · exact .inr ⟨name, a, hid, hdir, hat, hroom, hfile, hworked⟩
  · refine .inl (congrArg Prod.snd (run_of_missing h.wf hq fun name hid hdir => hthere ⟨name, hid, hdir⟩).1)

theorem Orderly.restore (id : String) : Orderly r held ((q.restore id).run.run s).2 := by
  rcases h.restore_cases hq id with hsame | ⟨name, a, -, hdir, hat, hroom, hfile, hworked⟩
  · rwa [hsame]
  have hdot := h.names name hdir
  have htouch := h.touch hat hroom hfile
  obtain ⟨lock, hlock⟩ := exists_touch hfile hroom.ne_nil
  have hroot := hat.root hworked.wf ((hworked.same.get? a (hat.not_workspace hdot)).trans hlock)
  refine htouch.worked hdot hworked hroot ?_
  rintro contents ⟨record, hrecord, -, hcontents⟩
  refine ⟨⟨_, (h.isTidy hrecord).restored, hcontents⟩, ?_⟩
  obtain ⟨old, hold, -⟩ := hrecord
  rw [← (SameBut.touch hroom.ne_nil).get? _ hat.ne_record.symm] at hold
  exact (htouch.records name old hold).2

theorem Orderly.purge (id : String) : Orderly r held ((q.purge id).run.run s).2 := by
  rcases h.purge_cases hq id with ⟨e, hrun⟩ | ⟨name, a, -, hdir, hat, hroom, hfile, ⟨e, hrun⟩ | ⟨hfree, count, hrun⟩⟩
  · rwa [hrun]
  · rw [hrun]
    exact h.touch hat hroom hfile
  · rw [hrun]
    exact h.purged (h.names name hdir) hat hroom hfile hfree

section

variable (hdot : '.' ∉ name.toList) (hother : Denotes id name → s.get? (sessionAt r name) ≠ some .directory)
  (x : List String)
include hdot hother x

theorem Orderly.get?_restore :
    ((q.restore id).run.run s).2.get? (sessionAt r name ++ x) = s.get? (sessionAt r name ++ x) := by
  rcases h.restore_cases hq id with hsame | ⟨n, a, hid, hdir, hat, hroom, -, hworked⟩
  · rw [hsame]
  · have hn : name ≠ n := fun hn => hother (hn ▸ hid) (hn ▸ hdir)
    exact ((spares_touch hat hroom.ne_nil).trans hworked.spares) name hn hdot x

theorem Orderly.get?_purge :
    ((q.purge id).run.run s).2.get? (sessionAt r name ++ x) = s.get? (sessionAt r name ++ x) := by
  rcases h.purge_cases hq id with ⟨e, hrun⟩ | ⟨n, a, hid, hdir, hat, hroom, -, hrun⟩
  · rw [hrun]
  · have hn : name ≠ n := fun hn => hother (hn ▸ hid) (hn ▸ hdir)
    rcases hrun with ⟨e, hrun⟩ | ⟨-, count, hrun⟩
    · rw [hrun]
      exact spares_touch hat hroom.ne_nil name hn hdot x
    · rw [hrun]
      exact spares_purged hat hroom.ne_nil name hn hdot x

end

theorem Orderly.get?_of_purge (hid : Denotes id name) {count : Nat} (hok : ((q.purge id).run.run s).1 = .ok count) :
    ((q.purge id).run.run s).2.get? (sessionAt r name) = none := by
  rcases h.purge_cases hq id with ⟨e, hrun⟩ | ⟨n, a, hid', -, -, hroom, -, ⟨e, hrun⟩ | ⟨-, _, hrun⟩⟩
  · rw [hrun] at hok
    cases hok
  · rw [hrun] at hok
    cases hok
  · obtain rfl := hid'.unique hid
    have hnone : (Purged r name a s).get? (sessionAt r name ++ []) = none := get?_purged hroom.ne_nil []
    rw [append_nil] at hnone
    rw [hrun, hnone]

end

theorem Orderly.room_inner (h : Orderly r held s) (hdir : s.get? (sessionAt r name) = some .directory) {x : String}
    (hx : InnerLock x) : s.Room (sessionAt r name ++ [x]) := by
  rw [sessionAt_append]
  exact InSession.room_within h.wf hdir (by rcases hx with rfl | rfl <;> decide)

end Calls

/-! ## Opening a session -/

/-- Every session keeps its record, and its directory if it has one. -/
structure KeepsRecords (r : Address) (s u : FileTree) : Prop where
  record : ∀ n, '.' ∉ n.toList → u.get? (recordAt r n) = s.get? (recordAt r n)
  directory : ∀ n, '.' ∉ n.toList → s.get? (sessionAt r n) = some .directory →
    u.get? (sessionAt r n) = some .directory

def Unblocked (r : Address) (t : FileTree) : Prop :=
  ∀ a, a <+: r ++ [".deadfiles", "quarantine"] → ∀ contents, t.get? a ≠ some (.file contents)

def IsFirstFree (r : Address) (stamp : String) (s : FileTree) (id : String) : Prop :=
  ∃ attempt, id = sessionName stamp attempt ∧ TakenBefore r stamp attempt s

/-- A session was not opened: records are as they were, and at most the first name that was free has been taken. -/
structure GivenUp (r : Address) (stamp : String) (s u : FileTree) : Prop extends KeepsRecords r s u where
  taken : ∃ id, IsFirstFree r stamp s id ∧ ∀ n, '.' ∉ n.toList →
    u.get? (sessionAt r n) = s.get? (sessionAt r n) ∨ n = id ∧ s.get? (sessionAt r n) = none
  unblocked : Unblocked r s → Unblocked r u

/-- A name that was free in `s` has been taken for a session, which has no record yet. -/
structure Fresh (r : Address) (s : FileTree) (id : String) (u : FileTree) : Prop where
  free : s.get? (sessionAt r id) = none
  directory : u.get? (sessionAt r id) = some .directory
  record : u.get? (recordAt r id) = s.get? (recordAt r id)
  spares : Spares r id s u

/-- A session was opened under a name that was free, and is held. -/
structure Opened (q : Quarantine) (r : Address) (now : Moment) (held : List String) (s : FileTree)
    (session : OpenSession) (u : FileTree) : Prop where
  quarantine : session.quarantine = q
  record : session.record = { id := session.record.id, createdAt := now }
  free : s.get? (sessionAt r session.record.id) = none
  first : IsFirstFree r now.stamp s session.record.id
  directory : u.get? (sessionAt r session.record.id) = some .directory
  order : Orderly r (session.record.id :: held) u
  spares : Spares r session.record.id s u

section Opening

theorem Spares.keepsRecords (h : Spares r id s u) (hrecord : u.get? (recordAt r id) = s.get? (recordAt r id))
    (hdir : s.get? (sessionAt r id) = some .directory → u.get? (sessionAt r id) = some .directory) :
    KeepsRecords r s u where
  record n hdot := by
    by_cases hn : n = id
    · rw [hn, hrecord]
    · exact h.get?_record hn hdot
  directory _ hdot := h.directory hdot hdir

theorem WorkedIn.of_addsDirectories {x : Address} (h : AddsDirectories x s u) (hx : x <+: filesAt r id) :
    WorkedIn r id W s u :=
  .aboveStored (m := []) (by rw [append_nil]; exact h.mono hx)

theorem SessionRecord.isTidy_new (hnow : now.IsValid) : ({ id, createdAt := now } : SessionRecord).IsTidy :=
  ⟨⟨hnow, by simp, Nat.two_pow_pos 64, Nat.two_pow_pos 64⟩, by simp⟩

theorem ensures_firstRecord_worked (wf : s.WellFormed) (hq : q.At r) (hid : IsName id)
    (record : SessionRecord) : (do
      QuarantineTask.ofFiles (makeDirectories ((q.directory id).join filesDirectory))
      record.save (q.directory id) : QuarantineTask Unit).run.Ends
      (fun result _ u => WorkedIn r id (fun contents => result = .ok () ∧ contents = record.contents) s u) moves s := by
  refine ensures_run_bind (ensures_ofFiles ((ensures_makeDirectories wf (leadsTo_files hq hid)).imp ?_))
  rintro (e | _) _ u ⟨-, hadd, -⟩
  · exact .of_addsDirectories hadd prefix_rfl
  · refine (ensures_save_worked hadd.wf (leadsTo_directory hq hid) record).imp ?_
    exact fun result _ v hv => (WorkedIn.of_addsDirectories hadd prefix_rfl).trans hv.1

theorem Orderly.fill (h : Orderly r held s) (hheld : id ∈ held) (hu : WorkedIn r id W s u)
    (hW : ∀ contents, W contents → ∃ record : SessionRecord, record.IsTidy ∧ contents = record.contents) :
    Orderly r held u := by
  obtain ⟨-, hdot, lock, hlock⟩ := h.holding id hheld
  have hlock' := (hu.same.get? _ (not_workspace_lock hdot)).trans hlock
  exact h.worked hdot hu (hu.wf.directory_above (by simp) hlock') fun contents hc => ⟨hW contents hc, lock, hlock⟩

theorem Orderly.ensures_lock (h : Orderly r held s) (hq : q.At r) (hid : IsName id)
    (hdot : '.' ∉ id.toList) : (q.lock id).run.Ends (fun result _ u =>
      (∀ c, c ≠ lockAt r id → u.get? c = s.get? c) ∧ match result with
        | .ok () => Orderly r (id :: held) u
        | .error _ => Orderly r held u) moves s := by
  refine ensures_run_bind (ensures_ofFiles (FileTask.ensures_lock trivial (fun e _ => ⟨fun _ _ => rfl, h⟩)
    fun free u hu => ?_))
  obtain ⟨hroom, hdir, hfree, rfl⟩ :=
    (lock_eq_ok_iff h.wf (leadsTo_lockFile hq hid) (wantsDirectory_lockFile hq hid)).1 hu
  have hsame (c : Address) (hc : c ≠ lockAt r id) := (SameBut.touch (t := s) hroom.ne_nil).get? c hc
  have htouch := h.touch (.inl rfl) hroom hdir
  cases free with
  | false =>
    rw [if_neg (by decide), withLocks_touch]
    exact ensures_pure.2 ⟨hsame, htouch⟩
  | true =>
    have hnot : lockAt r id ∉ (s.touch (lockAt r id)).locks := by
      rw [locks_touch]
      simpa using hfree.symm
    have hheld := htouch.hold hid hdot (exists_touch hdir hroom.ne_nil) hnot
    rw [withLock, locks_touch] at hheld
    exact ensures_pure.2 ⟨hsame, hheld⟩

theorem spares_of_lock (h : ∀ c, c ≠ lockAt r id → u.get? c = s.get? c) : Spares r id s u := fun _ hn hdot x =>
  h _ fun heq => LockedAt.not_prefix (a := lockAt r id) (.inl rfl) hn hdot x (heq ▸ prefix_rfl)

theorem Orderly.unlock (h : Orderly r (id :: held) s) (hq : q.At r) :
    Orderly r held (s.unlock (q.lockFile id)) := by
  obtain ⟨hid, -, lock, hlock⟩ := h.holding id mem_cons_self
  rw [unlock_eq h.wf (leadsTo_lockFile hq hid) (h.wf.room (by simp [lockAt]) hlock)]
  exact h.release

theorem Unblocked.of_directory (wf : u.WellFormed) (h : u.get? (sessionAt r id) = some .directory) :
    Unblocked r u := by
  rintro a ⟨x, hx⟩ contents hfile
  have hplace : sessionAt r id = a ++ (x ++ [id]) := by
    rw [← append_assoc, hx, sessionAt, append_assoc]
    rfl
  rw [hplace] at h
  rw [wf.directory_above (by simp) h] at hfile
  cases hfile

theorem Unblocked.unlock (h : Unblocked r s) (p : Path) : Unblocked r (s.unlock p) := by
  intro a ha contents
  rw [get?_unlock]
  exact h a ha contents

theorem GivenUp.unlock {stamp : String} (h : GivenUp r stamp s u) (p : Path) : GivenUp r stamp s (u.unlock p) := by
  obtain ⟨id, hfirst, htaken⟩ := h.taken
  refine ⟨⟨fun n hdot => ?_, fun n hdot => ?_⟩, ⟨id, hfirst, fun n hdot => ?_⟩, fun hs => (h.unblocked hs).unlock p⟩
  · rw [get?_unlock, h.record n hdot]
  · rw [get?_unlock]
    exact h.directory n hdot
  · rw [get?_unlock]
    exact htaken n hdot

theorem Fresh.givenUp {stamp : String} (h : Fresh r s id u) (hfirst : IsFirstFree r stamp s id) (wf : u.WellFormed) :
    GivenUp r stamp s u where
  toKeepsRecords := h.spares.keepsRecords h.record fun _ => h.directory
  taken := by
    refine ⟨id, hfirst, fun n hdot => ?_⟩
    by_cases hn : n = id
    · exact .inr ⟨hn, hn ▸ h.free⟩
    · exact .inl (h.spares.get?_session hn hdot)
  unblocked _ := .of_directory wf h.directory

theorem FileTree.AddsDirectories.get?_session (h : AddsDirectories (r ++ [".deadfiles", "quarantine"]) s u)
    (name : String) : u.get? (sessionAt r name) = s.get? (sessionAt r name) := by
  refine h.same.get? _ fun hp => ?_
  have := hp.length_le
  simp [sessionAt] at this

theorem FileTree.AddsDirectories.givenUp (h : AddsDirectories (r ++ [".deadfiles", "quarantine"]) s u)
    (stamp : String) : GivenUp r stamp s u := by
  have hworked : WorkedIn r "" (fun _ => False) s u := .of_addsDirectories h (prefix_place (by simp))
  refine ⟨hworked.spares.keepsRecords (hworked.record.resolve_right (by simp)) hworked.directory,
    ⟨sessionName stamp 0, ⟨0, rfl, takenBefore_zero r stamp s⟩, fun n _ => .inl (h.get?_session n)⟩,
    fun hs a ha contents => ?_⟩
  rcases h.made a with hsame | ⟨-, hdir⟩
  · rw [hsame]
    exact hs a ha contents
  · rw [hdir]
    simp

theorem Fresh.reserve (hbase : AddsDirectories (r ++ [".deadfiles", "quarantine"]) s u)
    (hreserve : AddsDirectories (sessionAt r id) u v) (hnone : u.get? (sessionAt r id) = none)
    (hdir : v.get? (sessionAt r id) = some .directory) : Fresh r s id v := by
  have hworked : WorkedIn r id (fun _ => False) s v :=
    .trans (.of_addsDirectories hbase (prefix_place (by simp))) (.of_addsDirectories hreserve (prefix_place (by simp)))
  refine ⟨?_, hdir, hworked.record.resolve_right (by simp), hworked.spares⟩
  cases hs : s.get? (sessionAt r id) with
  | none => rfl
  | some n =>
    rw [hbase.of_some hs] at hnone
    cases hnone

theorem Fresh.lock (h : Fresh r s id u) (hdot : '.' ∉ id.toList)
    (hlock : ∀ c, c ≠ lockAt r id → v.get? c = u.get? c) : Fresh r s id v :=
  ⟨h.free, (hlock _ (sessionAt_ne_lockAt hdot)).trans h.directory,
    (hlock _ (LockedAt.ne_record (.inl rfl)).symm).trans h.record, h.spares.trans (spares_of_lock hlock)⟩

theorem Fresh.ensures_firstRecord (h : Fresh r s id u) (hfirst : IsFirstFree r now.stamp s id)
    (horder : Orderly r (id :: held) u) (hq : q.At r) (hnow : now.IsValid) : (do
      try
        QuarantineTask.ofFiles (makeDirectories ((q.directory id).join filesDirectory))
        ({ id, createdAt := now } : SessionRecord).save (q.directory id)
      catch e =>
        q.unlock id
        throw e
      return ⟨q, { id, createdAt := now }, []⟩ : QuarantineTask OpenSession).run.Ends
      (fun result _ v => match result with
        | .ok session => Opened q r now held s session v
        | .error _ => Orderly r held v ∧ GivenUp r now.stamp s v) moves u := by
  have hid : IsName id := (horder.holding id mem_cons_self).1
  refine ensures_run_bind (ensures_tryCatch ((ensures_firstRecord_worked horder.wf hq hid _).imp ?_))
  intro result _ v hv
  have horder' : Orderly r (id :: held) v :=
    horder.fill mem_cons_self hv fun contents hc => ⟨_, SessionRecord.isTidy_new hnow, hc.2⟩
  have hspares := h.spares.trans hv.spares
  have hdirectory := hv.directory h.directory
  cases result with
  | error e =>
    have hrecord : v.get? (recordAt r id) = s.get? (recordAt r id) :=
      (hv.record.resolve_right (by simp)).trans h.record
    have hfresh : Fresh r s id v := ⟨h.free, hdirectory, hrecord, hspares⟩
    exact ensures_run_bind (ensures_monadLift (ensures_unlock trivial (ensures_pure.2
      ⟨horder'.unlock hq, (hfresh.givenUp hfirst horder'.wf).unlock _⟩)))
  | ok _ => exact ensures_pure.2 ⟨rfl, rfl, h.free, hfirst, hdirectory, horder', hspares⟩

/-- **Opening a session keeps the store in order**: it gets a name that was free, and no other session changes. -/
theorem Orderly.ensures_openSession (h : Orderly r held s) (hq : q.At r) (hnow : now.IsValid) :
    (q.openSession now).run.Ends (fun result _ u => match result with
      | .ok session => Opened q r now held s session u
      | .error _ => Orderly r held u ∧ GivenUp r now.stamp s u) moves s := by
  refine ensures_run_bind (ensures_ofFiles ((ensures_makeDirectories h.wf (leadsTo_base hq)).imp ?_))
  rintro result _ s₁ ⟨-, hbase, hthere, -⟩
  have hworked : WorkedIn r "" (fun _ => False) s s₁ := .of_addsDirectories hbase (prefix_place (by simp))
  have h₁ : Orderly r held s₁ := h.worked (by decide) hworked (hbase.of_some h.root) (by simp)
  have hgivenUp := hbase.givenUp now.stamp
  cases result with
  | error e => exact ⟨h₁, hgivenUp⟩
  | ok _ =>
  refine ensures_run_bind ((ensures_reserveName now.stamp_spec hbase.wf hq (hthere rfl)).imp ?_)
  rintro (e | id) _ s₂ ⟨-, hs₂⟩
  · obtain ⟨rfl, -⟩ := hs₂
    exact ⟨h₁, hgivenUp⟩
  obtain ⟨⟨attempt, hattempt, hbefore⟩, hroom, hnone, rfl⟩ := hs₂
  have hfirst : IsFirstFree r now.stamp s id := ⟨attempt, hattempt, fun j hj => hbase.get?_session _ ▸ hbefore j hj⟩
  have hid : IsName id := hattempt ▸ isName_sessionName now.stamp_spec attempt
  have hdot : '.' ∉ id.toList := by
    have hc : IsNoNumeral '.' := ⟨by decide, by decide, by decide⟩
    exact hattempt ▸ not_mem_sessionName hc (Moment.not_mem_stamp hc now) attempt
  have hreserve := AddsDirectories.put hbase.wf hroom hnone
  have hfresh : Fresh r s id (s₁.put (sessionAt r id) .directory) :=
    .reserve hbase hreserve hnone (by rw [get?_put hroom.ne_nil, if_pos rfl])
  have h₂ := h₁.worked (W := fun _ => False) hdot (.of_addsDirectories hreserve (prefix_place (by simp)))
    (hreserve.of_some h₁.root) (by simp)
  refine ensures_run_bind ((h₂.ensures_lock hq hid hdot).imp ?_)
  rintro result _ s₃ ⟨hlock, h₃⟩
  have hfresh := hfresh.lock hdot hlock
  cases result with
  | error e => exact ⟨h₃, hfresh.givenUp hfirst h₃.wf⟩
  | ok _ => exact hfresh.ensures_firstRecord hfirst h₃ hq hnow

end Opening

end Deadwood
