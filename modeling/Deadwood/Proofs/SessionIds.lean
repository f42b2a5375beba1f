import Deadwood.Proofs.RestoreSafety

/-!
# Texts that denote a session

A session is asked for by its name, or by the name with slashes and dots behind it. They all lead to the same
directory; but only the name itself leads to the lock file beside the directory.
-/

namespace Deadwood

open List FileTree FileTask Deadwood.Path Quarantine

/-! ## Directories and lock files -/

/-- The text `id` leads to the directory of the session `name`. -/
def Denotes (id name : String) : Prop := (Path.mk id).components = [.normal name]

instance (id name : String) : Decidable (Denotes id name) := inferInstanceAs (Decidable (_ = _))

def InnerLock (x : String) : Prop := x = ".lock" ∨ x = "..lock"

section Denotes

variable {id name : String}

theorem denotes_self (h : IsName name) : Denotes name name := components_of_isName h

section

variable (h : Denotes id name)
include h

theorem Denotes.isRelative : (Path.mk id).IsRelative [name] := by
  rw [Denotes, components_eq, start] at h
  split at h
  · simp at h
  · rename_i habs
    split at h
    · simp at h
    · exact ⟨Bool.eq_false_iff.2 habs, h⟩

theorem Denotes.startsHere : (Path.mk id).startsHere = false := by
  rw [Denotes, components_eq, start] at h
  split at h
  · simp at h
  · split at h
    · simp at h
    · rename_i hstart
      exact Bool.eq_false_iff.2 hstart

theorem Denotes.isName : IsName name :=
  isName_of_mem_named (p := ⟨id⟩) (by simp [h.isRelative.named])

theorem Denotes.unique {n : String} (h' : Denotes id n) : n = name := by
  rw [Denotes, h] at h'
  simpa using h'.symm

end

theorem exists_last_slash {cs : List Char} (h : '/' ∈ cs) : ∃ xs ys, cs = xs ++ '/' :: ys ∧ '/' ∉ ys := by
  induction cs with
  | nil => simp at h
  | cons c cs ih =>
    by_cases hcs : '/' ∈ cs
    · obtain ⟨xs, ys, rfl, hys⟩ := ih hcs
      exact ⟨c :: xs, ys, rfl, hys⟩
    · have hc : c = '/' := by simpa [hcs, eq_comm] using h
      exact ⟨[], cs, by rw [hc]; rfl, hcs⟩

theorem namedIn_piece_ne_nil {piece ys : List Char} {p : Path} (h : p.text.toList = piece ++ '/' :: ys)
    (hpiece : '/' ∉ piece) (habs : p.isAbsolute = false) (hstart : p.startsHere = false) : namedIn piece ≠ [] := by
  rw [namedIn_piece hpiece]
  unfold component?
  split
  · rename_i hidle
    rw [Bool.or_eq_true, beq_iff_eq, beq_iff_eq, ← String.toList_inj, ← String.toList_inj] at hidle
    simp only [String.toList_ofList] at hidle
    rcases hidle with rfl | rfl
    · rw [Bool.eq_false_iff, Ne, isAbsolute_iff, h] at habs
      exact absurd rfl habs
    · rw [Bool.eq_false_iff, Ne, startsHere_iff, h] at hstart
      exact absurd (.inr ⟨ys, rfl⟩) hstart
  · split <;> simp

theorem namedIn_ne_nil {xs ys : List Char} {p : Path} (h : p.text.toList = xs ++ '/' :: ys)
    (habs : p.isAbsolute = false) (hstart : p.startsHere = false) : namedIn xs ≠ [] := by
  by_cases hxs : '/' ∈ xs
  · obtain ⟨piece, rest, rfl, hpiece⟩ := eq_append_cons_of_mem hxs
    have hsplit : p.text.toList = piece ++ '/' :: (rest ++ '/' :: ys) := by
      rw [h]
      simp
    have hne := namedIn_piece_ne_nil hsplit hpiece habs hstart
    rw [namedIn_append]
    exact append_ne_nil_of_left_ne_nil hne _
  · exact namedIn_piece_ne_nil h hxs habs hstart

/-- **A text that denotes a session is its name, or it leads to a lock file within the session.** -/
theorem Denotes.lock (h : Denotes id name) :
    id = name ∨ ∃ x, InnerLock x ∧ (Path.mk (id ++ ".lock")).IsRelative [name, x] := by
  have hrel := h.isRelative
  by_cases hslash : '/' ∈ id.toList
  · right
    obtain ⟨xs, ys, hid, hys⟩ := exists_last_slash hslash
    have hxs := namedIn_ne_nil (p := ⟨id⟩) hid hrel.relative h.startsHere
    have hnamed : namedIn xs ++ namedIn ys = [.normal name] := by
      rw [← namedIn_append, ← hid]
      exact hrel.named
    obtain ⟨hxs, hys'⟩ : namedIn xs = [.normal name] ∧ namedIn ys = [] := by
      rcases append_eq_cons_iff.1 hnamed with ⟨hnil, -⟩ | ⟨rest, hxs', hrest⟩
      · exact absurd hnil hxs
      · obtain ⟨rfl, hnil⟩ := nil_eq_append_iff.1 hrest
        exact ⟨hxs', hnil⟩
    -- what stands behind the last slash is idle, and the ending makes a name of it
    have hidle : ys = [] ∨ ys = ['.'] := by
      rw [namedIn_piece hys] at hys'
      unfold component? at hys'
      split at hys'
      · rename_i hidle
        rw [Bool.or_eq_true, beq_iff_eq, beq_iff_eq, ← String.toList_inj, ← String.toList_inj] at hidle
        simpa using hidle
      · split at hys' <;> simp at hys'
    have htext : (id ++ ".lock").toList = xs ++ '/' :: (ys ++ ".lock".toList) := by
      rw [String.toList_append, hid]
      simp
    have hlast : ∃ x, InnerLock x ∧ namedIn (ys ++ ".lock".toList) = [.normal x] := by
      rcases hidle with rfl | rfl
      · exact ⟨".lock", .inl rfl, by decide⟩
      · exact ⟨"..lock", .inr rfl, by decide⟩
    obtain ⟨x, hx, hlast⟩ := hlast
    refine ⟨x, hx, ?_, ?_⟩
    · have hhead := hrel.relative
      rw [Bool.eq_false_iff, Ne, isAbsolute_iff, hid] at hhead
      rw [Bool.eq_false_iff, Ne, isAbsolute_iff, htext]
      cases xs with
      | nil => exact absurd rfl hhead
      | cons c xs => exact hhead
    · rw [named, htext, namedIn_append, hxs, hlast]
      rfl
  · left
    have hnamed := hrel.named
    rw [named, namedIn_piece hslash, String.ofList_toList] at hnamed
    cases hc : component? id with
    | none => simp [hc] at hnamed
    | some k =>
      rw [hc] at hnamed
      obtain rfl : k = .normal name := by simpa using hnamed
      exact (component?_eq_some_normal.1 hc).1

variable {q : Quarantine} {r : Address}

theorem Denotes.leadsTo_directory (h : Denotes id name) (hq : q.At r) :
    LeadsTo (q.directory id) (sessionAt r name) := by
  have h := (leadsTo_base hq).join h.isRelative
  rwa [append_assoc] at h

/-- The places that a session is locked at, by the ways to denote it. -/
def LockedAt (r : Address) (name : String) (a : Address) : Prop :=
  a = lockAt r name ∨ ∃ x, InnerLock x ∧ a = sessionAt r name ++ [x]

theorem Denotes.leadsTo_innerLock (h : Denotes id name) (hne : id ≠ name) (hq : q.At r) :
    ∃ x, InnerLock x ∧ LeadsTo (q.lockFile id) (sessionAt r name ++ [x]) := by
  obtain ⟨x, hx, hrel⟩ := h.lock.resolve_left hne
  refine ⟨x, hx, ?_⟩
  have hlead := (leadsTo_base hq).join hrel
  rw [sessionAt, append_assoc]
  rwa [append_assoc] at hlead

theorem Denotes.leadsTo_lockFile (h : Denotes id name) (hq : q.At r) :
    ∃ a, LeadsTo (q.lockFile id) a ∧ LockedAt r name a := by
  by_cases hne : id = name
  · subst hne
    exact ⟨_, Deadwood.leadsTo_lockFile hq h.isName, .inl rfl⟩
  · obtain ⟨x, hx, hlead⟩ := h.leadsTo_innerLock hne hq
    exact ⟨_, hlead, .inr ⟨x, hx, rfl⟩⟩

theorem Denotes.wantsDirectory_lockFile (h : Denotes id name) (hq : q.At r) :
    wantsDirectory (q.lockFile id) = false := by
  have hlast : ('/' :: (id ++ ".lock").toList).getLast? = some 'k' := by
    rw [String.toList_append, ← cons_append, getLast?_append]
    rfl
  have hrelative : (Path.mk (id ++ ".lock")).isAbsolute = false := by
    rcases h.lock with rfl | ⟨x, -, hrel⟩
    · exact (isRelative_of_isName (isName_lock h.isName)).relative
    · exact hrel.relative
  rw [lockFile, wantsDirectory_join (leadsTo_base hq).text_ne hrelative, wantsDirectory, Bool.or_eq_false_iff,
    Bool.eq_false_iff, Bool.eq_false_iff, Ne, Ne, Text.endsWith_iff, Text.endsWith_iff]
  refine ⟨?_, ?_⟩ <;>
  · rintro ⟨before, hbefore⟩
    have := congrArg String.toList hbefore
    rw [String.toList_ofList] at this
    rw [this] at hlast
    simp at hlast

end Denotes

/-! ## What is done for a text -/

theorem FileTask.Ensures.run_eq {α : Type} {task : FileTask α} {s : FileTree} {x : α × FileTree}
    (h : task.Ends (fun a _ u => (a, u) = x) [] s) : task.run s = x := by
  obtain ⟨_, h⟩ := h.result
  rw [← h]

theorem FileTask.run_run_bind {α β : Type} (x : QuarantineTask α) (f : α → QuarantineTask β) (s : FileTree) :
    (x >>= f).run.run s =
      match x.run.run s with
      | (.ok a, t) => (f a).run.run t
      | (.error e, t) => (.error e, t) := by
  rw [ExceptT.run_bind, run_bind]
  obtain ⟨result, t⟩ := x.run.run s
  cases result <;> rfl

theorem FileTask.run_monadLift {α : Type} (x : FileTask α) (s : FileTree) : (monadLift x : QuarantineTask α).run.run s =
      (.ok (x.run s).1, (x.run s).2) :=
  run_bind _

section Runs

variable {q : Quarantine} {r : Address} {id name : String} {s : FileTree}

theorem run_existingDirectory (wf : s.WellFormed) (hq : q.At r) (h : Denotes id name) :
    (q.existingDirectory id).run.run s = (if s.get? (sessionAt r name) = some .directory then
      .ok (q.directory id) else .error (.notFound id), s) := by
  refine Ensures.run_eq ?_
  unfold existingDirectory
  rw [show (Path.mk id).components = [.normal name] from h]
  refine ensures_run_bind (ensures_monadLift (ensures_isDirectory wf (h.leadsTo_directory hq) trivial ?_))
  by_cases hdir : s.get? (sessionAt r name) = some .directory
  · rw [decide_eq_true hdir, if_pos hdir]
    exact ensures_pure.2 rfl
  · rw [decide_eq_false hdir, if_neg hdir]
    exact ensures_pure.2 rfl

theorem run_existingDirectory_of_not (h : ∀ name, ¬ Denotes id name) :
    (q.existingDirectory id).run.run s = (.error (.notFound id), s) := by
  unfold existingDirectory
  split
  · rename_i name heq
    exact absurd heq (h name)
  · rw [run_run_bind, run_monadLift, reading_isDirectory]
    rfl

theorem run_lock : (q.lock id).run.run s =
    match s.lock (q.lockFile id) with
    | .error e => (.error (.file e), s)
    | .ok (free, t) => (if free then .ok () else .error (.busy id), t) := by
  refine Ensures.run_eq (ensures_run_bind (ensures_ofFiles (ensures_lock trivial (fun e he => ?_) fun free u hu => ?_)))
  · rw [he]
  · rw [hu]
    cases free <;> exact ensures_pure.2 rfl

theorem run_locked {α : Type} (task : QuarantineTask α) : (q.locked id task).run.run s =
    match s.lock (q.lockFile id) with
    | .error e => (.error (.file e), s)
    | .ok (false, t) => (.error (.busy id), t)
    | .ok (true, t) => ((task.run.run t).1, (task.run.run t).2.unlock (q.lockFile id)) := by
  rw [locked, run_run_bind, run_lock]
  cases h : s.lock (q.lockFile id) with
  | error e => rfl
  | ok x =>
    obtain ⟨free, t⟩ := x
    cases free with
    | false => rfl
    | true =>
      have hlift : (ExceptT.lift task.run : QuarantineTask (Except QuarantineError α)).run.run t =
          (.ok (task.run.run t).1, (task.run.run t).2) := run_bind _
      dsimp only
      rw [if_pos rfl]
      dsimp only
      rw [run_run_bind, hlift]
      rfl

def Quarantine.restoreWithin (q : Quarantine) (id : String) (directory : Path) : QuarantineTask RestoreReport := do
  let record ← SessionRecord.load directory
  if record.status = .restored then throw (.alreadyRestored id)
  let results ← (record.files.mapM (q.restoreFile directory) : FileTask _)
  let report := RestoreReport.ofResults (record.files.zip results)
  if !report.restored.isEmpty || report.failed.isEmpty then
    SessionRecord.save { record with status := .restored } directory
  return report

def Quarantine.purgeWithin (directory : Path) : QuarantineTask Nat := do
  let count ← (countFiles maxDepth (directory.join filesDirectory) : FileTask _)
  QuarantineTask.ofFiles (FileTask.removeTree directory)
  return count

section

variable (wf : s.WellFormed) (hq : q.At r) (h : Denotes id name) (hdir : s.get? (sessionAt r name) = some .directory)
include wf hq h hdir

theorem run_restore : (q.restore id).run.run s = (q.locked id (q.restoreWithin id (q.directory id))).run.run s := by
  have hrun := run_existingDirectory wf hq h
  rw [if_pos hdir] at hrun
  rw [restore, run_run_bind, hrun]
  rfl

theorem run_purge : (q.purge id).run.run s = match (q.locked id (purgeWithin (q.directory id))).run.run s with
      | (.ok count, t) => (.ok count, ((FileTask.removeFile (q.lockFile id)).run t).2)
      | (.error e, t) => (.error e, t) := by
  have hrun := run_existingDirectory wf hq h
  rw [if_pos hdir] at hrun
  rw [purge, run_run_bind, hrun]
  refine (run_run_bind (q.locked id (purgeWithin (q.directory id))) _ s).trans ?_
  obtain ⟨result, t⟩ := (q.locked id (purgeWithin (q.directory id))).run.run s
  cases result <;> rfl

end

theorem run_of_missing (wf : s.WellFormed) (hq : q.At r)
    (h : ∀ name, Denotes id name → s.get? (sessionAt r name) ≠ some .directory) :
    (q.restore id).run.run s = (.error (.notFound id), s) ∧ (q.purge id).run.run s = (.error (.notFound id), s) := by
  have hrun : (q.existingDirectory id).run.run s = (.error (.notFound id), s) := by
    by_cases hname : ∃ name, Denotes id name
    · obtain ⟨name, hname⟩ := hname
      rw [run_existingDirectory wf hq hname, if_neg (h name hname)]
    · exact run_existingDirectory_of_not (not_exists.1 hname)
  constructor
  · rw [restore, run_run_bind, hrun]
  · rw [purge, run_run_bind, hrun]

/-! ## Locked sessions -/

variable {α : Type} {task : QuarantineTask α} {a : Address}

def FileTree.withLock (t : FileTree) (a : Address) : FileTree := { t with locks := a :: t.locks }

theorem FileTree.get?_withLock (t : FileTree) (a c : Address) : (t.withLock a).get? c = t.get? c := rfl

theorem FileTree.WellFormed.withLock (wf : s.WellFormed) (a : Address) : (s.withLock a).WellFormed :=
  WellFormed.locks wf _

theorem FileTree.withLocks_touch : ({ s.touch a with locks := s.locks } : FileTree) = s.touch a := by
  unfold touch
  split <;> rfl

variable (wf : s.WellFormed) (hlead : LeadsTo (q.lockFile id) a) (hwants : wantsDirectory (q.lockFile id) = false)
include wf hlead hwants

/-- **A session that is locked is busy.** -/
theorem run_locked_busy {contents : Bytes} (hfile : s.get? a = some (.file contents)) (hlocked : a ∈ s.locks) :
    (q.locked id task).run.run s = (.error (.busy id), s) := by
  have hne : a ≠ [] := fun hnil => by
    rw [hnil, get?_nil] at hfile
    cases hfile
  have hlock : s.lock (q.lockFile id) = .ok (false, s) := by
    refine (lock_eq_ok_iff wf hlead hwants).2 ⟨wf.room hne hfile, by simp [hfile], by simpa using hlocked, ?_⟩
    rw [if_neg (by decide), withLocks_touch, touch, if_neg (by simp [hfile])]
  rw [run_locked, hlock]

theorem run_locked_free (hroom : s.Room a) (hdir : s.get? a ≠ some .directory) (hfree : a ∉ s.locks) :
    (q.locked id task).run.run s = ((task.run.run ((s.touch a).withLock a)).1,
        (task.run.run ((s.touch a).withLock a)).2.unlock (q.lockFile id)) := by
  have hlock : s.lock (q.lockFile id) = .ok (true, (s.touch a).withLock a) := by
    refine (lock_eq_ok_iff wf hlead hwants).2 ⟨hroom, hdir, by simpa using hfree, ?_⟩
    rw [withLock, if_pos rfl, locks_touch]
  rw [run_locked, hlock]

/-- The task is carried out with the session locked, or all that may come of it is an empty lock file. -/
theorem run_locked_cases (task : QuarantineTask α) : (∃ e, (q.locked id task).run.run s = (.error e, s)) ∨
      s.Room a ∧ s.get? a ≠ some .directory ∧ ((∃ e, (q.locked id task).run.run s = (.error e, s.touch a)) ∨
          a ∉ s.locks ∧ (q.locked id task).run.run s = ((task.run.run ((s.touch a).withLock a)).1,
              (task.run.run ((s.touch a).withLock a)).2.unlock (q.lockFile id))) := by
  rw [run_locked]
  cases hlock : s.lock (q.lockFile id) with
  | error e => exact .inl ⟨_, rfl⟩
  | ok x =>
    obtain ⟨free, t⟩ := x
    obtain ⟨hroom, hdir, hfree, rfl⟩ := (lock_eq_ok_iff wf hlead hwants).1 hlock
    refine .inr ⟨hroom, hdir, ?_⟩
    cases free with
    | false =>
      refine .inl ⟨.busy id, ?_⟩
      rw [if_neg (by decide), withLocks_touch]
    | true =>
      refine .inr ⟨by simpa using hfree.symm, ?_⟩
      rw [withLock, locks_touch]
      rfl

end Runs

end Deadwood
