import Deadwood.Proofs.Interruption
import Deadwood.Proofs.StoreOrder

/-!
# The life of a session

A session is made when files are set aside, may be restored, and is deleted. Calls name it by any text, come in any
order, and meet sessions that are restored or gone.

* `Evolves`, **`Orderly.evolves`**: what an event makes of the record of a session;
* `Lifecycle`, **`session_lifecycle`**: sessions go one way and do not disturb each other.
-/

namespace Deadwood

open FileTree FileTask Deadwood.Path Quarantine SessionRecord

/-! ## Setting files aside -/

/-- Setting files aside has made a session: its name was free, its record is there, and no other session changed. -/
structure Created (r : Address) (now : Moment) (s : FileTree) (record : SessionRecord) (u : FileTree) : Prop where
  name : IsName record.id
  status : record.status = .active
  createdAt : record.createdAt = now
  free : s.get? (sessionAt r record.id) = none
  first : IsFirstFree r now.stamp s record.id
  there : HasRecord r record.id u record
  spares : Spares r record.id s u

variable {q : Quarantine} {r : Address} {id : String} {s u : FileTree} {record : SessionRecord}

section SetAside

variable {held : List String} {t : FileTree} {now : Moment} {session : OpenSession} {paths : List Path}
  {moves : List (Path × Path)}

section

variable (h : Recorded t q r id now session moves s)
include h

theorem Recorded.fillsAt : FillsAt q id session s :=
  ⟨h.tree.kept.wf, h.quarantine, h.fits.id⟩

theorem Recorded.ensures_moveAll_worked (hq : q.At r)
    (hid : IsName id) (hpaths : ∀ p ∈ paths, ∃ m, p.IsRelative m ∧ (m = [] ∨ IsOutside m)) :
    (moveAll session paths).Ends
      (fun result ms u => Recorded t q r id now result.2 ms u ∧ WorkedIn r id (fun _ => True) s u) moves s := by
  induction paths generalizing session moves s with
  | nil => exact ensures_pure.2 ⟨h, .refl h.tree.kept.wf⟩
  | cons p paths ih =>
    obtain ⟨m, hrel, hm⟩ := hpaths p List.mem_cons_self
    refine ((h.moveIn hq hid hrel hm).and (h.fillsAt.ensures_moveIn hq hid hrel hm)).andThen ?_
    rintro ⟨result, session'⟩ ms u ⟨hu, hdone⟩
    have hfirst : WorkedIn r id (fun _ => True) s u := hdone.worked.mono fun _ _ => trivial
    refine (ih hu (List.forall_mem_cons.1 hpaths).2).andThen ?_
    rintro ⟨failed, session''⟩ ms v ⟨hv, hworked'⟩
    cases result <;> exact ensures_pure.2 ⟨hv, hfirst.trans hworked'⟩

theorem Recorded.isTidy (wf : t.WellFormed) (hweight : t.weight < 2 ^ 64)
    (hnow : now.IsValid) : session.record.IsTidy := by
  have hkept : Holding t s r id (session.record.files ++ []) := by
    rw [List.append_nil]
    exact h.tree.kept
  refine ⟨h.fits.writable wf hweight hnow hkept, fun f hf => ?_⟩
  have hfrom := h.tree.kept.origin f hf
  exact ⟨hfrom.home, hfrom.outside, hfrom.stored⟩

end

/-- **Setting files aside keeps the store in order**, and makes one session at most. -/
theorem Orderly.ensures_setAside (h : Orderly r held s) (hq : q.At r) (hnow : now.IsValid)
    (hweight : s.weight < 2 ^ 64) (hpaths : ∀ p ∈ paths, ∃ m, p.IsRelative m ∧ (m = [] ∨ IsOutside m)) :
    (q.setAside now paths).run.Ends (fun result _ u => Orderly r held u ∧ match result with
      | .ok (record, _) => Created r now s record u
      | .error _ => GivenUp r now.stamp s u) [] s := by
  refine ensures_run_bind (((Deadwood.ensures_openSession h.wf hq h.root).and (h.ensures_openSession hq hnow)).imp ?_)
  rintro (e | session) ms u ⟨hrecorded, hopened⟩
  · exact hopened
  obtain ⟨hid, hrecorded⟩ := hrecorded
  refine ensures_run_bind (ensures_monadLift ((hrecorded.ensures_moveAll_worked hq hid hpaths).imp ?_))
  rintro ⟨failed, session'⟩ ms v ⟨hrecorded', hworked⟩
  refine ensures_run_bind (ensures_monadLift (ensures_bind.2 (ensures_unlock trivial (ensures_pure.2
    (ensures_pure.2 ?_)))))
  have htidy := hrecorded'.isTidy h.wf hweight hnow
  have hrecord := hrecorded'.tree.record
  have hfilled : Orderly r (session.record.id :: held) v := by
    refine hopened.order.fill (W := (· = session'.record.contents)) List.mem_cons_self ?_
      fun contents hc => ⟨_, htidy, hc⟩
    exact ⟨hworked.wf, hworked.same, hworked.directory, .inr ⟨_, rfl, hrecord⟩⟩
  have hid' := hrecorded'.fits.id
  dsimp only
  rw [hrecorded'.quarantine, hid']
  refine ⟨hfilled.unlock hq, hid'.symm ▸ hid, hrecorded'.fits.status, hrecorded'.fits.createdAt,
    hid'.symm ▸ hopened.free, hid'.symm ▸ hopened.first, ?_, ?_⟩
  · refine ⟨_, ?_, ofContents?_contents htidy.writable⟩
    rw [get?_unlock, hid', hrecord]
    rfl
  · rw [hid']
    exact fun n hn hdot x => (get?_unlock _ _).trans ((hopened.spares.trans hworked.spares) n hn hdot x)

end SetAside

/-! ## Calls and their effect on a record -/

inductive StoreEvent where
  | setAside (now : Moment) (paths : List Path)
  | restore (id : String)
  | purge (id : String)
  | list
  | edit (tree : FileTree)

namespace StoreEvent

def after (q : Quarantine) (t : FileTree) : StoreEvent → FileTree
  | setAside now paths => ((q.setAside now paths).run.run t).2
  | restore id => ((q.restore id).run.run t).2
  | purge id => ((q.purge id).run.run t).2
  | list => (q.sessions.run.run t).2
  | edit tree => tree

/-- Files are set aside that are not in the store, at a proper moment and from a project whose size can be written
down. Any text may be given for a session. Others change nothing in the store. -/
def Allowed (r : Address) (t : FileTree) : StoreEvent → Prop
  | setAside now paths => now.IsValid ∧ t.weight < 2 ^ 64 ∧ ∀ p ∈ paths, ∃ m, p.IsRelative m ∧ (m = [] ∨ IsOutside m)
  | edit tree => tree.WellFormed ∧ tree.get? r = some .directory ∧ SameBut (fun c => ¬ storeAt r <+: c) t tree
  | restore _ | purge _ | list => True

def Deletes (q : Quarantine) (name : String) (t : FileTree) : StoreEvent → Prop
  | purge id => Denotes id name ∧ ∃ count, ((q.purge id).run.run t).1 = .ok count
  | _ => False

/-- The event takes a name for a new session. -/
def Takes (q : Quarantine) (r : Address) (name : String) (t : FileTree) : StoreEvent → Prop
  | setAside now paths => ((q.setAside now paths).run.run t).2.get? (sessionAt r name) = some .directory
  | _ => False

end StoreEvent

/-- An event that satisfies `P` leads from one tree to another. -/
def StoreStep (q : Quarantine) (r : Address) (P : StoreEvent → FileTree → Prop) (s u : FileTree) : Prop :=
  ∃ e : StoreEvent, e.Allowed r s ∧ P e s ∧ e.after q s = u

theorem StoreStep.setAside {q : Quarantine} {r : Address} {P : StoreEvent → FileTree → Prop} {s : FileTree}
    {now : Moment} {paths : List Path} (h : (StoreEvent.setAside now paths).Allowed r s)
    (hP : P (.setAside now paths) s) : StoreStep q r P s ((q.setAside now paths).run.run s).2 :=
  ⟨.setAside now paths, h, hP, rfl⟩

def Quarantine.recordIn (q : Quarantine) (t : FileTree) (name : String) : Option SessionRecord :=
  (answer t (load (q.directory name)).run).toOption

/-- What an event may make of the record of the session `name`: setting files aside makes it, restoring the session
turns it from active to restored, and deleting the session removes it. -/
inductive Evolves (q : Quarantine) (t : FileTree) (name : String) :
    StoreEvent → Option SessionRecord → Option SessionRecord → Prop where
  | stays (e : StoreEvent) (record : Option SessionRecord) : Evolves q t name e record record
  | created {now : Moment} {paths : List Path} {record : SessionRecord} {failed : List FileFailure}
      (h : ((q.setAside now paths).run.run t).1 = .ok (record, failed)) (hname : record.id = name)
      (hstatus : record.status = .active) : Evolves q t name (.setAside now paths) none (some record)
  | restored {id : String} {record : SessionRecord} (h : Denotes id name) (hstatus : record.status = .active) :
      Evolves q t name (.restore id) (some record) (some { record with status := .restored })
  | deleted {id : String} {record : Option SessionRecord} (h : (StoreEvent.purge id).Deletes q name t) :
      Evolves q t name (.purge id) record none

section Events

variable {name : String} {e : StoreEvent} {P : StoreEvent → FileTree → Prop}

theorem reading_loadRecord (directory : Path) : (load directory).run.Reading := by
  intro t
  rw [load, run_run_bind, run_monadLift, reading_read]
  dsimp only
  split
  · rfl
  · rfl
  · split <;> rfl

theorem reading_recordOf? (directory : Path) : (recordOf? directory).Reading := by
  refine (reading_isDirectory _).bind fun isDirectory => ?_
  cases isDirectory with
  | false => exact reading_pure _
  | true => exact (reading_loadRecord directory).bind fun _ => reading_pure _

theorem reading_sessions (q : Quarantine) : q.sessions.run.Reading := by
  intro t
  rw [sessions, run_run_bind, run_monadLift, reading_list]
  dsimp only
  split
  · rfl
  · rfl
  · rw [run_run_bind, run_monadLift, reading_mapM fun name => reading_recordOf? _]
    rfl

theorem Orderly.after (h : Orderly r [] s) (hq : q.At r) (he : e.Allowed r s) : Orderly r [] (e.after q s) := by
  cases e with
  | setAside now paths =>
    obtain ⟨hnow, hweight, hpaths⟩ := he
    have hdone : (q.setAside now paths).run.Ensures _ _ [] s := h.ensures_setAside hq hnow hweight hpaths
    obtain ⟨_, horder, -⟩ := hdone.result
    exact horder
  | restore id => exact h.restore hq id
  | purge id => exact h.purge hq id
  | list =>
    rw [StoreEvent.after, reading_sessions]
    exact h
  | edit tree =>
    obtain ⟨hwf, hroot, hsame⟩ := he
    have hworked : WorkedIn r "" (fun _ => False) s tree := .of_outside hwf hsame
    exact h.worked (by decide) hworked hroot (by simp)

theorem Orderly.run (h : Orderly r [] s) (hq : q.At r)
    (hrun : Relation.ReflTransGen (StoreStep q r P) s u) : Orderly r [] u := by
  induction hrun with
  | refl => exact h
  | tail _ hstep ih =>
    obtain ⟨e, he, -, rfl⟩ := hstep
    exact ih.after hq he

/-! ## Records -/

theorem recordIn_eq_some_iff (wf : s.WellFormed) (hq : q.At r) (hname : IsName name) :
    q.recordIn s name = some record ↔ HasRecord r name s record := by
  rw [HasRecord, ← load_eq_ok_iff wf hq hname, recordIn, answer]
  cases ((load (q.directory name)).run.run s).1 <;> simp [Except.toOption]

theorem recordIn_congr (wf : s.WellFormed) (wf' : u.WellFormed) (hq : q.At r) (hname : IsName name)
    (h : u.get? (recordAt r name) = s.get? (recordAt r name)) : q.recordIn u name = q.recordIn s name := by
  refine Option.ext fun record => ?_
  rw [recordIn_eq_some_iff wf' hq hname, recordIn_eq_some_iff wf hq hname, HasRecord, HasRecord, h]

theorem recordIn_of_missing (wf : s.WellFormed) (hq : q.At r) (hname : IsName name)
    (h : s.get? (sessionAt r name) ≠ some .directory) : q.recordIn s name = none := by
  refine Option.eq_none_iff_forall_ne_some.2 fun record hrecord => h ?_
  exact ((recordIn_eq_some_iff wf hq hname).1 hrecord).directory wf

/-- **Every event takes the record of a session at most one step on its way.** -/
theorem Orderly.evolves (h : Orderly r [] s) (hq : q.At r) (hname : IsName name) (he : e.Allowed r s) :
    Evolves q s name e (q.recordIn s name) (q.recordIn (e.after q s) name) := by
  have h' := h.after hq he
  by_cases hdot : '.' ∈ name.toList
  · -- there are no sessions of such names
    rw [recordIn_of_missing h.wf hq hname fun hdir => h.names name hdir hdot,
      recordIn_of_missing h'.wf hq hname fun hdir => h'.names name hdir hdot]
    exact .stays _ _
  have hstays (hsame : (e.after q s).get? (recordAt r name) = s.get? (recordAt r name)) :
      Evolves q s name e (q.recordIn s name) (q.recordIn (e.after q s) name) := by
    rw [recordIn_congr h.wf h'.wf hq hname hsame]
    exact .stays _ _
  cases e with
  | setAside now paths =>
    obtain ⟨hnow, hweight, hpaths⟩ := he
    have hdone : (q.setAside now paths).run.Ensures _ _ [] s := h.ensures_setAside hq hnow hweight hpaths
    obtain ⟨_, -, hdone⟩ := hdone.result
    cases hanswer : ((q.setAside now paths).run.run s).1 with
    | error e =>
      rw [hanswer] at hdone
      exact hstays (hdone.record name hdot)
    | ok x =>
      obtain ⟨record, failed⟩ := x
      rw [hanswer] at hdone
      by_cases hn : name = record.id
      · subst hn
        rw [recordIn_of_missing h.wf hq hname (by rw [hdone.free]; simp),
          (recordIn_eq_some_iff h'.wf hq hname).2 hdone.there]
        exact .created hanswer rfl hdone.status
      · exact hstays (hdone.spares.get?_record hn hdot)
  | restore id =>
    rcases h.restore_cases hq id with hsame | ⟨n, a, hid, -, hat, hroom, -, hworked⟩
    · exact hstays (by rw [StoreEvent.after, hsame])
    have htouch : (s.touch a).get? (recordAt r name) = s.get? (recordAt r name) :=
      (SameBut.touch hroom.ne_nil).get? _ hat.ne_record.symm
    by_cases hn : name = n
    · subst hn
      rcases hworked.record with hsame | ⟨contents, ⟨record, hrecord, hstatus, rfl⟩, hnew⟩
      · exact hstays (hsame.trans htouch)
      · have hread := ofContents?_contents (h.isTidy hrecord).restored.writable
        rw [(recordIn_eq_some_iff h.wf hq hname).2 hrecord, (recordIn_eq_some_iff h'.wf hq hname).2 ⟨_, hnew, hread⟩]
        exact .restored hid hstatus
    · exact hstays ((hworked.spares.get?_record hn hdot).trans htouch)
  | purge id =>
    rcases h.purge_cases hq id with ⟨e, hrun⟩ | ⟨n, a, hid, -, hat, hroom, -, ⟨e, hrun⟩ | ⟨-, count, hrun⟩⟩
    · exact hstays (by rw [StoreEvent.after, hrun])
    · refine hstays ?_
      rw [StoreEvent.after, hrun]
      exact (SameBut.touch hroom.ne_nil).get? _ hat.ne_record.symm
    · by_cases hn : name = n
      · subst hn
        have hgone : ((StoreEvent.purge id).after q s).get? (sessionAt r name) ≠ some .directory := by
          rw [StoreEvent.after, h.get?_of_purge hq hid (by rw [hrun])]
          simp
        rw [recordIn_of_missing h'.wf hq hname hgone]
        exact .deleted ⟨hid, count, by rw [hrun]⟩
      · refine hstays ?_
        rw [StoreEvent.after, hrun]
        exact (spares_purged hat hroom.ne_nil).get?_record hn hdot
  | list => exact hstays (by rw [StoreEvent.after, reading_sessions])
  | edit tree => exact hstays (he.2.2.get? _ (not_not.2 (prefix_place (by simp))))

theorem Evolves.oneWay {next : Option SessionRecord} (h : Evolves q s name e (some record) next)
    (hkept : ¬ e.Deletes q name s) :
    next = some record ∨ record.status = .active ∧ next = some { record with status := .restored } := by
  cases h with
  | stays => exact .inl rfl
  | restored _ hstatus => exact .inr ⟨hstatus, rfl⟩
  | deleted hdeletes => exact absurd hdeletes hkept

variable (h : Orderly r [] s) (hq : q.At r)
include h hq

theorem Orderly.run_oneWay (hname : IsName name) (hrecord : q.recordIn s name = some record)
    (hrun : Relation.ReflTransGen (StoreStep q r fun e t => ¬ e.Deletes q name t) s u) :
    q.recordIn u name = some record ∨
      record.status = .active ∧ q.recordIn u name = some { record with status := .restored } := by
  induction hrun with
  | refl => exact .inl hrecord
  | @tail v w hrun hstep ih =>
    obtain ⟨e, he, hkept, rfl⟩ := hstep
    have hstep := (h.run hq hrun).evolves hq hname he
    rcases ih with hv | ⟨hstatus, hv⟩
    · rw [hv] at hstep
      exact hstep.oneWay hkept
    · rw [hv] at hstep
      refine .inr ⟨hstatus, (hstep.oneWay hkept).resolve_right ?_⟩
      rintro ⟨hactive, -⟩
      cases hactive

/-- **A session is restored once**: all that a second call does is to touch a lock file. -/
theorem Orderly.restore_restored (hid : Denotes id name) (hrecord : HasRecord r name s record)
    (hstatus : record.status = .restored) :
    ∃ a, LeadsTo (q.lockFile id) a ∧ (q.restore id).run.run s = (.error (.alreadyRestored id), s.touch a) := by
  obtain ⟨a, hlead, hat⟩ := hid.leadsTo_lockFile hq
  have hdir := hrecord.directory h.wf
  obtain ⟨hroom, hfile, hfree⟩ : s.Room a ∧ s.get? a ≠ some .directory ∧ a ∉ s.locks := by
    rcases hat with rfl | ⟨x, hx, rfl⟩
    · obtain ⟨lock, hlock⟩ := h.lockFile hrecord
      exact ⟨h.wf.room (by simp [lockAt]) hlock, by simp [hlock], List.count_eq_zero.1 (h.locks name)⟩
    · exact ⟨h.room_inner hdir hx, h.inner name x hx⟩
  have htouch := h.touch hat hroom hfile
  obtain ⟨lock, hlock⟩ := exists_touch hfile hroom.ne_nil
  have hrecord' : HasRecord r name ((s.touch a).withLock a) record := by
    rwa [HasRecord, get?_withLock, (SameBut.touch hroom.ne_nil).get? _ hat.ne_record.symm]
  refine ⟨a, hlead, ?_⟩
  rw [run_restore h.wf hq hid hdir, run_locked_free h.wf hlead (hid.wantsDirectory_lockFile hq) hroom hfile hfree,
    run_restoreWithin_restored (htouch.wf.withLock a) (hid.leadsTo_directory hq) hrecord' hstatus]
  exact congrArg (Prod.mk _) (unlock_withLock htouch.wf hlead (htouch.wf.room hroom.ne_nil hlock))

theorem Orderly.missing_after (he : e.Allowed r s) (htakes : ¬ e.Takes q r name s)
    (hmissing : s.get? (sessionAt r name) ≠ some .directory) :
    (e.after q s).get? (sessionAt r name) ≠ some .directory := by
  by_cases hdot : '.' ∈ name.toList
  · exact fun hdir => (h.after hq he).names name hdir hdot
  cases e with
  | setAside now paths => exact htakes
  | restore id =>
    have hsame : ((q.restore id).run.run s).2.get? (sessionAt r name ++ []) = _ :=
      h.get?_restore hq hdot (fun _ => hmissing) []
    rw [List.append_nil] at hsame
    rwa [StoreEvent.after, hsame]
  | purge id =>
    have hsame : ((q.purge id).run.run s).2.get? (sessionAt r name ++ []) = _ :=
      h.get?_purge hq hdot (fun _ => hmissing) []
    rw [List.append_nil] at hsame
    rwa [StoreEvent.after, hsame]
  | list => rwa [StoreEvent.after, reading_sessions]
  | edit tree =>
    have hsame : tree.get? (sessionAt r name) = s.get? (sessionAt r name) :=
      he.2.2.get? _ (not_not.2 (prefix_place (by simp)))
    rwa [StoreEvent.after, hsame]

theorem Orderly.run_missing (hmissing : s.get? (sessionAt r name) ≠ some .directory)
    (hrun : Relation.ReflTransGen (StoreStep q r fun e t => ¬ e.Takes q r name t) s u) :
    u.get? (sessionAt r name) ≠ some .directory := by
  induction hrun with
  | refl => exact hmissing
  | tail hrun hstep ih =>
    obtain ⟨e, he, htakes, rfl⟩ := hstep
    exact (h.run hq hrun).missing_after hq he htakes ih

end Events

/-! ## The life of a session -/

/-- What is known of the sessions in the store of the tree `s`, and of the one called `name`. -/
structure Lifecycle (q : Quarantine) (r : Address) (s : FileTree) (name : String) : Prop where
  /-- Setting files aside makes an active session under a name that was free. -/
  created : ∀ now paths record failed, (StoreEvent.setAside now paths).Allowed r s →
    ((q.setAside now paths).run.run s).1 = .ok (record, failed) →
    record.status = .active ∧ s.get? (sessionAt r record.id) = none ∧
      q.recordIn ((q.setAside now paths).run.run s).2 record.id = some record
  /-- Every event takes the record at most one step on its way. -/
  step : ∀ e : StoreEvent, e.Allowed r s → Evolves q s name e (q.recordIn s name) (q.recordIn (e.after q s) name)
  /-- As long as the session is not deleted, its record is the same, or it was active and has been restored. -/
  oneWay : ∀ record u, q.recordIn s name = some record →
    Relation.ReflTransGen (StoreStep q r fun e t => ¬ e.Deletes q name t) s u →
    q.recordIn u name = some record ∨
      record.status = .active ∧ q.recordIn u name = some { record with status := .restored }
  /-- A restored session is not restored again, whatever text denotes it: a lock file is touched. -/
  restored : ∀ record id, q.recordIn s name = some record → record.status = .restored → Denotes id name →
    ∃ a, LeadsTo (q.lockFile id) a ∧ (q.restore id).run.run s = (.error (.alreadyRestored id), s.touch a)
  /-- Nothing is done for a text that is not one name, or not the name of a session that is there. -/
  missing : ∀ id, (∀ n, Denotes id n → s.get? (sessionAt r n) ≠ some .directory) →
    (q.restore id).run.run s = (.error (.notFound id), s) ∧ (q.purge id).run.run s = (.error (.notFound id), s)
  /-- A session that was deleted is not found until its name is taken again. -/
  purged : ∀ id count u, Denotes id name → ((q.purge id).run.run s).1 = .ok count →
    Relation.ReflTransGen (StoreStep q r fun e t => ¬ e.Takes q r name t) ((q.purge id).run.run s).2 u →
    ∀ id', Denotes id' name → (q.restore id').run.run u = (.error (.notFound id'), u)
  /-- The session does not change when others are restored or deleted. -/
  apart : ∀ id, ¬ Denotes id name → s.get? (sessionAt r name) = some .directory → ∀ x,
    ((q.restore id).run.run s).2.get? (sessionAt r name ++ x) = s.get? (sessionAt r name ++ x) ∧
      ((q.purge id).run.run s).2.get? (sessionAt r name ++ x) = s.get? (sessionAt r name ++ x)

/-- **Sessions go one way and do not disturb each other.** Start with a project that has no store, and let files be
set aside, and sessions be restored, deleted and listed, in any order and with any texts, while others change the
project. Then every session is created active, may be restored once, and is gone when it is deleted; other calls for
it change nothing but lock files; and calls for one session leave all others alone. -/
theorem session_lifecycle {t s : FileTree} {q : Quarantine} {r : Address} {name : String} (wf : t.WellFormed)
    (hq : LeadsTo q.root r) (hroot : t.get? r = some .directory) (hstore : t.get? (storeAt r) = none)
    (hlocks : ∀ c ∈ t.locks, ¬ storeAt r <+: c) (hname : IsName name)
    (hrun : Relation.ReflTransGen (StoreStep q r fun _ _ => True) t s) : Lifecycle q r s name := by
  have h : Orderly r [] s := (Orderly.start wf hroot hstore hlocks).run hq hrun
  refine ⟨fun now paths record failed he hok => ?_, fun e he => h.evolves hq hname he,
    fun record u hrecord hrun' => h.run_oneWay hq hname hrecord hrun', fun record id hrecord hstatus hid => ?_,
    fun id hid => run_of_missing h.wf hq hid, fun id count u hid hok hrun' id' hid' => ?_,
    fun id hid hdir x => ⟨?_, ?_⟩⟩
  · have hdone : (q.setAside now paths).run.Ensures _ _ [] s := h.ensures_setAside hq he.1 he.2.1 he.2.2
    obtain ⟨_, horder, hdone⟩ := hdone.result
    rw [hok] at hdone
    exact ⟨hdone.status, hdone.free, (recordIn_eq_some_iff horder.wf hq hdone.name).2 hdone.there⟩
  · exact h.restore_restored hq hid ((recordIn_eq_some_iff h.wf hq hname).1 hrecord) hstatus
  · have horder := h.purge hq id
    have hgone : ((q.purge id).run.run s).2.get? (sessionAt r name) ≠ some .directory := by
      rw [h.get?_of_purge hq hid hok]
      simp
    have hmissing := horder.run_missing hq hgone hrun'
    exact (run_of_missing (horder.run hq hrun').wf hq fun n hn => hid'.unique hn ▸ hmissing).1
  · exact h.get?_restore hq (h.names name hdir) (fun hid' => absurd hid' hid) x
  · exact h.get?_purge hq (h.names name hdir) (fun hid' => absurd hid' hid) x

theorem answer_loneScript : ∃ record failed,
    (((Quarantine.mk ⟨"/p"⟩).setAside ⟨20000, 0, 0⟩ [⟨"a.py"⟩]).run.run loneScript).1 = .ok (record, failed) ∧
      record.id = "20241004-000000-000" := by
  have hid : (((Quarantine.mk ⟨"/p"⟩).setAside ⟨20000, 0, 0⟩ [⟨"a.py"⟩]).run.run loneScript).1.toOption.map (·.1.id) =
      some "20241004-000000-000" := by decide +kernel
  generalize (((Quarantine.mk ⟨"/p"⟩).setAside ⟨20000, 0, 0⟩ [⟨"a.py"⟩]).run.run loneScript).1 = result at hid
  obtain ⟨⟨record, failed⟩, hok, hname⟩ := Option.map_eq_some_iff.1 hid
  cases result with
  | error e => cases hok
  | ok x =>
    cases hok
    exact ⟨record, failed, rfl, hname⟩

theorem session_lifecycle_loneScript :
    let q : Quarantine := ⟨⟨"/p"⟩⟩
    let s := ((q.setAside ⟨20000, 0, 0⟩ [⟨"a.py"⟩]).run.run loneScript).2
    (∃ record, q.recordIn s "20241004-000000-000" = some record ∧ record.status = .active) ∧
      Lifecycle q ["p"] s "20241004-000000-000" := by
  intro q s
  have hallowed : (StoreEvent.setAside ⟨20000, 0, 0⟩ [⟨"a.py"⟩]).Allowed ["p"] loneScript :=
    ⟨⟨by decide, by decide, by decide⟩, by decide, loneScript_spec.2⟩
  have hlife {u : FileTree} (hrun : Relation.ReflTransGen (StoreStep q ["p"] fun _ _ => True) loneScript u) :
      Lifecycle q ["p"] u "20241004-000000-000" :=
    session_lifecycle (by decide) loneScript_spec.1 (by decide) (by decide) (by decide) (by decide) hrun
  refine ⟨?_, hlife (.single (.setAside hallowed trivial))⟩
  obtain ⟨record, failed, hok, hid⟩ := answer_loneScript
  obtain ⟨hstatus, -, hrecord⟩ := (hlife .refl).created _ _ record failed hallowed hok
  rw [hid] at hrecord
  exact ⟨record, hrecord, hstatus⟩

end Deadwood
