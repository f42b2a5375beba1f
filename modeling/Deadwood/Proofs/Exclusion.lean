import Deadwood.Proofs.Interruption
import Deadwood.Proofs.StoreOrder

/-!
# Sessions that are held

A client that fills a session holds the lock file beside its directory. Others are kept out as long as they ask for
the session by its name; for other texts that lead to the directory another lock file is taken.

* **`Orderly.busy`**: a session that is held is busy for all who call it by its name;
* **`Orderly.not_excluded`**: another text gets past the holder;
* **`held_session_excludes`**: a session is used by its holder only, if it is called by its name.
-/

namespace Deadwood

open List FileTree FileTask Deadwood.Path Quarantine OpenSession

/-! ## Calls for a session that is held -/

section Held

variable {q : Quarantine} {r : Address} {held : List String} {id name : String} {s : FileTree}

/-- **A session that is held is busy** for all who call it by its name. -/
theorem Orderly.busy (h : Orderly r held s) (hq : q.At r) (hheld : name ∈ held)
    (hdir : s.get? (sessionAt r name) = some .directory) :
    (q.restore name).run.run s = (.error (.busy name), s) ∧ (q.purge name).run.run s = (.error (.busy name), s) := by
  obtain ⟨hname, -, lock, hlock⟩ := h.holding name hheld
  have hself := denotes_self hname
  have hlocked : lockAt r name ∈ s.locks := by
    rw [← count_pos_iff, h.locks name]
    exact count_pos_iff.2 hheld
  have hbusy {α : Type} (task : QuarantineTask α) : (q.locked name task).run.run s = (.error (.busy name), s) :=
    run_locked_busy h.wf (leadsTo_lockFile hq hname) (wantsDirectory_lockFile hq hname) hlock hlocked
  constructor
  · rw [run_restore h.wf hq hself hdir, hbusy]
  · rw [run_purge h.wf hq hself hdir, hbusy]

/-- The result does not say that a session is busy. -/
def NotBusy {α : Type} (result : Except QuarantineError α) : Prop := ∀ id, result ≠ .error (.busy id)

theorem notBusy_ok {α : Type} (a : α) : NotBusy (.ok a) := fun _ h => by cases h

theorem notBusy_bind {α β : Type} {x : QuarantineTask α} {f : α → QuarantineTask β} (hx : NotBusy (x.run.run s).1)
    (hf : ∀ a t, NotBusy ((f a).run.run t).1) :
    NotBusy ((x >>= f).run.run s).1 := by
  rw [run_run_bind]
  generalize x.run.run s = y at hx
  obtain ⟨result, t⟩ := y
  cases result with
  | ok a => exact hf a t
  | error e => exact fun id h => hx id (congrArg Except.error (Except.error.inj h))

theorem notBusy_ofFiles {α : Type} (task : FileTask (Except FileError α)) (s : FileTree) :
    NotBusy ((QuarantineTask.ofFiles task).run.run s).1 := by
  have hrun : (QuarantineTask.ofFiles task).run.run s = _ := run_bind _
  rw [hrun]
  cases (task.run s).1 with
  | ok a => exact notBusy_ok a
  | error e => exact fun _ h => by cases h

theorem notBusy_save (record : SessionRecord) (directory : Path) (s : FileTree) :
    NotBusy ((record.save directory).run.run s).1 :=
  notBusy_bind (notBusy_ofFiles _ s) fun _ t => notBusy_ofFiles _ t

theorem notBusy_load (directory : Path) (s : FileTree) : NotBusy ((SessionRecord.load directory).run.run s).1 := by
  rw [SessionRecord.load, run_run_bind, run_monadLift]
  dsimp only
  split
  · exact fun _ h => by cases h
  · exact fun _ h => by cases h
  · split
    · exact notBusy_ok _
    · exact fun _ h => by cases h

theorem notBusy_restoreWithin (q : Quarantine) (id : String) (directory : Path) (s : FileTree) :
    NotBusy ((q.restoreWithin id directory).run.run s).1 := by
  refine notBusy_bind (notBusy_load directory s) fun record t => ?_
  dsimp only
  split
  · exact fun _ h => by cases h
  · refine notBusy_bind (by rw [run_monadLift]; exact notBusy_ok _) fun results t => ?_
    split
    · exact notBusy_bind (notBusy_save _ _ t) fun _ _ => notBusy_ok _
    · exact notBusy_ok _

variable (h : Orderly r held s) (hq : q.At r)
include h hq

/-- **Another text for the session takes another lock**, whether the session is held or not: it can be restored, and is
deleted. -/
theorem Orderly.not_excluded (hid : Denotes id name) (hne : id ≠ name)
    (hdir : s.get? (sessionAt r name) = some .directory) :
    ((q.restore id).run.run s).1 ≠ .error (.busy id) ∧ ∃ count, ((q.purge id).run.run s).1 = .ok count ∧
      ((q.purge id).run.run s).2.get? (sessionAt r name) = none := by
  obtain ⟨x, hx, hlead⟩ := hid.leadsTo_innerLock hne hq
  have hroom := h.room_inner hdir hx
  obtain ⟨hfile, hfree⟩ := h.inner name x hx
  have htouch := h.touch (.inr ⟨x, hx, rfl⟩) hroom hfile
  have hdir' : (s.touch (sessionAt r name ++ [x])).get? (sessionAt r name) = some .directory := by
    rw [(SameBut.touch hroom.ne_nil).get? _ (by simp), hdir]
  obtain ⟨count, hpurge⟩ := run_purgeWithin (htouch.wf.withLock _) (hid.leadsTo_directory hq) hdir'
  have hok : ((q.purge id).run.run s).1 = .ok count := by
    rw [run_purge h.wf hq hid hdir,
      run_locked_free h.wf hlead (hid.wantsDirectory_lockFile hq) hroom hfile hfree, hpurge]
  refine ⟨?_, count, hok, h.get?_of_purge hq hid hok⟩
  rw [run_restore h.wf hq hid hdir, run_locked_free h.wf hlead (hid.wantsDirectory_lockFile hq) hroom hfile hfree]
  dsimp only
  exact notBusy_restoreWithin q id (q.directory id) _ id

theorem Orderly.directory_restore (hdir : s.get? (sessionAt r name) = some .directory) (id : String) :
    ((q.restore id).run.run s).2.get? (sessionAt r name) = some .directory := by
  rcases h.restore_cases hq id with hsame | ⟨n, a, -, -, hat, hroom, hfile, hworked⟩
  · rw [hsame]
    exact hdir
  · refine hworked.spares.directory (h.names name hdir) hworked.directory ?_
    rw [(SameBut.touch hroom.ne_nil).get? _ fun heq => hfile (heq ▸ hdir), hdir]

/-- A session that is held keeps its directory if it is called by its name. -/
theorem Orderly.directory_purge (hheld : name ∈ held)
    (hdir : s.get? (sessionAt r name) = some .directory) (hid : Denotes id name → id = name) :
    ((q.purge id).run.run s).2.get? (sessionAt r name) = some .directory := by
  by_cases hdenotes : Denotes id name
  · rw [hid hdenotes, (h.busy hq hheld hdir).2]
    exact hdir
  · have hsame := h.get?_purge hq (h.names name hdir) (fun h => absurd h hdenotes) []
    rw [append_nil] at hsame
    rw [hsame, hdir]

end Held

/-! ## Clients -/

structure Clients where
  tree : FileTree
  held : List OpenSession

/-- One client does something. A session may be opened at a proper moment; an open session is filled with files that
are outside the store, as long as its numbers can be written down, and is finished; a session is restored, or
deleted for a text that satisfies `P`; others change the project. -/
inductive Clients.Step (q : Quarantine) (r : Address) (P : String → Prop) (c : Clients) : Clients → Prop
  | opens {now : Moment} {session : OpenSession} (hnow : now.IsValid)
      (h : ((q.openSession now).run.run c.tree).1 = .ok session) :
      Step q r P c ⟨((q.openSession now).run.run c.tree).2, session :: c.held⟩
  | fails {now : Moment} {e : QuarantineError} (hnow : now.IsValid)
      (h : ((q.openSession now).run.run c.tree).1 = .error e) :
      Step q r P c ⟨((q.openSession now).run.run c.tree).2, c.held⟩
  | moveIn {session : OpenSession} {rest : List OpenSession} {p : Path} {m : List String}
      (hheld : c.held.Perm (session :: rest)) (hp : p.IsRelative m) (hm : IsOutside m)
      (hw : ((session.fill (moveIn p)).run c.tree).1.2.record.Writable) :
      Step q r P c ⟨((session.fill (moveIn p)).run c.tree).2, ((session.fill (moveIn p)).run c.tree).1.2 :: rest⟩
  | backUp {session : OpenSession} {rest : List OpenSession} {p : Path} {m : List String} (replacement : Bytes)
      (hheld : c.held.Perm (session :: rest)) (hp : p.IsRelative m) (hm : IsOutside m)
      (hw : ((session.fill (backUp p replacement)).run c.tree).1.2.record.Writable) :
      Step q r P c ⟨((session.fill (backUp p replacement)).run c.tree).2,
        ((session.fill (backUp p replacement)).run c.tree).1.2 :: rest⟩
  | finish {session : OpenSession} {rest : List OpenSession} (hheld : c.held.Perm (session :: rest)) :
      Step q r P c ⟨(session.finish.run c.tree).2, rest⟩
  | restore (id : String) : Step q r P c ⟨((q.restore id).run.run c.tree).2, c.held⟩
  | purge (id : String) (hP : P id) : Step q r P c ⟨((q.purge id).run.run c.tree).2, c.held⟩
  | edit {tree : FileTree} (wf : tree.WellFormed) (hroot : tree.get? r = some .directory)
      (hsame : SameBut (fun a => ¬ storeAt r <+: a) c.tree tree) : Step q r P c ⟨tree, c.held⟩

/-- An open session is in the quarantine, its record is tidy, and its directory is there if it can be deleted by its
name only. -/
structure OpenSession.Sound (q : Quarantine) (r : Address) (P : String → Prop) (t : FileTree) (session : OpenSession) :
    Prop where
  quarantine : session.quarantine = q
  files : ∀ f ∈ session.record.files, f.IsTidy
  directory : (∀ id, P id → Denotes id session.record.id → id = session.record.id) →
    t.get? (sessionAt r session.record.id) = some .directory

structure Clients.Sound (q : Quarantine) (r : Address) (P : String → Prop) (c : Clients) : Prop where
  order : Orderly r (c.held.map (·.record.id)) c.tree
  sessions : ∀ session ∈ c.held, session.Sound q r P c.tree

section Steps

variable {q : Quarantine} {r : Address} {P : String → Prop} {c c' : Clients} {t u : FileTree}
  {session session' : OpenSession} {rest : List OpenSession} {m : List String} {files files' : List StoredFile}

theorem Orderly.perm {held held' : List String} (h : Orderly r held t) (hperm : held.Perm held') : Orderly r held' t :=
  ⟨h.wf, h.root, h.names, h.inner, h.records, fun n => (h.locks n).trans (hperm.count_eq n),
    fun n hn => h.holding n (hperm.mem_iff.2 hn), hperm.nodup_iff.1 h.nodup⟩

theorem StoredFile.isTidy_withoutHash {f : StoredFile} : f.withoutHash.IsTidy ↔ f.IsTidy :=
  ⟨fun h => ⟨h.home, h.outside, h.stored⟩, fun h => ⟨h.home, h.outside, h.stored⟩⟩

theorem Filling.Outcome.isTidy {id : String} (h : Filling.Outcome r id m files t files' u)
    (hfiles : ∀ f ∈ files, f.IsTidy) : ∀ f ∈ files', f.IsTidy := by
  cases h with
  | kept hsame _ =>
    intro f hf
    have hmem : f.withoutHash ∈ files.map StoredFile.withoutHash := hsame ▸ mem_map_of_mem hf
    obtain ⟨g, hg, heq⟩ := mem_map.1 hmem
    rw [← StoredFile.isTidy_withoutHash, ← heq, StoredFile.isTidy_withoutHash]
    exact hfiles g hg
  | added g hadd hg _ _ =>
    rw [hadd]
    exact forall_mem_append.2 ⟨hfiles, forall_mem_singleton.2 hg.isTidy⟩

theorem OpenSession.Sound.mono (h : session.Sound q r P t)
    (hdir : t.get? (sessionAt r session.record.id) = some .directory →
      u.get? (sessionAt r session.record.id) = some .directory) : session.Sound q r P u :=
  ⟨h.quarantine, h.files, fun hP => hdir (h.directory hP)⟩

namespace Clients.Sound

variable (h : c.Sound q r P)
include h

theorem dotless (hheld : session ∈ c.held) : '.' ∉ session.record.id.toList :=
  (h.order.holding _ (mem_map_of_mem hheld)).2.1

theorem changed (horder : Orderly r (c.held.map (·.record.id)) u)
    (hdir : ∀ session ∈ c.held, (∀ id, P id → Denotes id session.record.id → id = session.record.id) →
      c.tree.get? (sessionAt r session.record.id) = some .directory →
      u.get? (sessionAt r session.record.id) = some .directory) : Clients.Sound q r P ⟨u, c.held⟩ :=
  ⟨horder, fun session hs => ⟨(h.sessions session hs).quarantine, (h.sessions session hs).files,
    fun hP => hdir session hs hP ((h.sessions session hs).directory hP)⟩⟩

theorem filled (hheld : c.held.Perm (session :: rest))
    (hdone : Filling.Done q r session.record.id m session c.tree session' u) (hw : session'.record.Writable) :
    Clients.Sound q r P ⟨u, session' :: rest⟩ := by
  obtain ⟨hat, hout, hworked⟩ := hdone
  have hsession := h.sessions session (hheld.mem_iff.2 mem_cons_self)
  have hfiles := hout.isTidy hsession.files
  have horder := (h.order.perm (hheld.map (·.record.id))).fill mem_cons_self hworked
    fun contents hc => ⟨_, ⟨hw, hfiles⟩, hc⟩
  refine ⟨?_, ?_⟩
  · rwa [map_cons, hat.named]
  · rintro other (_ | ⟨_, hother⟩)
    · refine ⟨hat.quarantine, hfiles, fun hP => ?_⟩
      rw [hat.named] at hP ⊢
      exact hworked.directory (hsession.directory hP)
    · have hmem : other ∈ c.held := hheld.mem_iff.2 (mem_cons_of_mem _ hother)
      exact (h.sessions other hmem).mono (hworked.spares.directory (h.dotless hmem) hworked.directory)

theorem opened {now : Moment} (hopened : Opened q r now (c.held.map (·.record.id)) c.tree session u) :
    Clients.Sound q r P ⟨u, session :: c.held⟩ := by
  refine ⟨hopened.order, ?_⟩
  rintro other (_ | ⟨_, hother⟩)
  · refine ⟨hopened.quarantine, ?_, fun _ => hopened.directory⟩
    rw [hopened.record]
    simp
  · refine (h.sessions other hother).mono (hopened.spares.directory (h.dotless hother) fun hdir => ?_)
    rw [hopened.free] at hdir
    cases hdir

theorem fillsAt (hheld : c.held.Perm (session :: rest)) :
    IsName session.record.id ∧ FillsAt q session.record.id session c.tree := by
  have hmem : session ∈ c.held := hheld.mem_iff.2 mem_cons_self
  exact ⟨(h.order.holding _ (mem_map_of_mem hmem)).1, h.order.wf, (h.sessions session hmem).quarantine, rfl⟩

theorem step (hq : q.At r) (hstep : Clients.Step q r P c c') : c'.Sound q r P := by
  cases hstep with
  | @opens now session hnow hok =>
    have hdone : (q.openSession now).run.Ensures _ _ [] c.tree := h.order.ensures_openSession hq hnow
    obtain ⟨_, hdone⟩ := hdone.result
    rw [hok] at hdone
    exact h.opened hdone
  | @fails now e hnow herror =>
    have hdone : (q.openSession now).run.Ensures _ _ [] c.tree := h.order.ensures_openSession hq hnow
    obtain ⟨_, hdone⟩ := hdone.result
    rw [herror] at hdone
    exact h.changed hdone.1 fun session hs _ => hdone.2.directory _ (h.dotless hs)
  | moveIn hheld hp hm hw =>
    obtain ⟨hid, hat⟩ := h.fillsAt hheld
    have hdone : ((_ : OpenSession).fill (moveIn _)).Ensures _ _ [] c.tree :=
      hat.ensures_moveIn hq hid hp (.inr hm)
    exact h.filled hheld hdone.result.choose_spec hw
  | backUp replacement hheld hp hm hw =>
    obtain ⟨hid, hat⟩ := h.fillsAt hheld
    have hdone : ((_ : OpenSession).fill (backUp _ replacement)).Ensures _ _ [] c.tree :=
      hat.ensures_backUp hq hid hp hm replacement
    exact h.filled hheld hdone.result.choose_spec hw
  | @finish session rest hheld =>
    have hsession := h.sessions session (hheld.mem_iff.2 mem_cons_self)
    have hrun : (session.finish.run c.tree).2 = c.tree.unlock (q.lockFile session.record.id) := by
      rw [← hsession.quarantine]
      rfl
    rw [hrun]
    refine ⟨(h.order.perm (hheld.map (·.record.id))).unlock hq, fun other hother => ?_⟩
    have hmem : other ∈ c.held := hheld.mem_iff.2 (mem_cons_of_mem _ hother)
    exact (h.sessions other hmem).mono fun hdir => (get?_unlock _ _).trans hdir
  | restore id => exact h.changed (h.order.restore hq id) fun session hs _ hdir => h.order.directory_restore hq hdir id
  | purge id hP =>
    refine h.changed (h.order.purge hq id) fun session hs hplain hdir => ?_
    exact h.order.directory_purge hq (mem_map_of_mem hs) hdir (hplain id hP)
  | edit wf hroot hsame =>
    have hworked : WorkedIn r "" (fun _ => False) c.tree _ := .of_outside wf hsame
    refine h.changed (h.order.worked (by decide) hworked hroot (by simp)) fun session hs _ hdir => ?_
    exact hworked.spares.directory (h.dotless hs) hworked.directory hdir

theorem run (hq : q.At r) (hrun : Relation.ReflTransGen (Clients.Step q r P) c c') : c'.Sound q r P := by
  induction hrun with
  | refl => exact h
  | tail _ hstep ih => exact ih.step hq hstep

end Clients.Sound

end Steps

/-! ## Exclusion -/

/-- **A session that is held is used by its holder only, if it is called by its name.** Start with a project that has
no store, and let clients open, fill, finish, restore and delete sessions, while others change the project. Then no
session is held twice, and restoring or deleting one that is held by its name is refused with no change at all:
because the session is busy, unless its directory has been deleted. That comes by a text that denotes the session and
is not its name: calls with it get past the holder. -/
theorem held_session_excludes {t : FileTree} {q : Quarantine} {r : Address} {P : String → Prop} {c : Clients}
    {session : OpenSession} (wf : t.WellFormed) (hq : LeadsTo q.root r) (hroot : t.get? r = some .directory)
    (hstore : t.get? (storeAt r) = none) (hlocks : ∀ a ∈ t.locks, ¬ storeAt r <+: a)
    (hrun : Relation.ReflTransGen (Clients.Step q r P) ⟨t, []⟩ c) (hheld : session ∈ c.held) :
    let name := session.record.id
    let there := c.tree.get? (sessionAt r name) = some .directory
    (c.held.map (·.record.id)).Nodup ∧
    (there → (q.restore name).run.run c.tree = (.error (.busy name), c.tree) ∧
      (q.purge name).run.run c.tree = (.error (.busy name), c.tree)) ∧
    (¬ there → (q.restore name).run.run c.tree = (.error (.notFound name), c.tree) ∧
      (q.purge name).run.run c.tree = (.error (.notFound name), c.tree)) ∧
    ((∀ id, P id → Denotes id name → id = name) → there) ∧
    ∀ id, Denotes id name → id ≠ name →
      (∃ x, InnerLock x ∧ LeadsTo (q.lockFile id) (sessionAt r name ++ [x])) ∧
      (there → ((q.restore id).run.run c.tree).1 ≠ .error (.busy id) ∧
        ∃ count, ((q.purge id).run.run c.tree).1 = .ok count ∧
          ((q.purge id).run.run c.tree).2.get? (sessionAt r name) = none) := by
  intro name there
  have hstart : Clients.Sound q r P ⟨t, []⟩ := ⟨.start wf hroot hstore hlocks, by simp⟩
  have h := hstart.run hq hrun
  have hname : name ∈ c.held.map (·.record.id) := List.mem_map_of_mem hheld
  have hself : Denotes name name := denotes_self (h.order.holding name hname).1
  refine ⟨h.order.nodup, fun hdir => h.order.busy hq hname hdir, fun hgone => ?_, (h.sessions session hheld).directory,
    fun id hid hne => ⟨hid.leadsTo_innerLock hne hq, fun hdir => h.order.not_excluded hq hid hne hdir⟩⟩
  exact run_of_missing h.order.wf hq fun n hn => hself.unique hn ▸ hgone

theorem openSession_loneScript : ∃ session,
    (((Quarantine.mk ⟨"/p"⟩).openSession ⟨20000, 0, 0⟩).run.run loneScript).1 = .ok session ∧
      session.record.id = "20241004-000000-000" := by
  have hid : (((Quarantine.mk ⟨"/p"⟩).openSession ⟨20000, 0, 0⟩).run.run loneScript).1.toOption.map (·.record.id) =
      some "20241004-000000-000" := by decide +kernel
  generalize (((Quarantine.mk ⟨"/p"⟩).openSession ⟨20000, 0, 0⟩).run.run loneScript).1 = result at hid
  obtain ⟨session, hok, hname⟩ := Option.map_eq_some_iff.1 hid
  cases result with
  | error e => cases hok
  | ok session' =>
    cases hok
    exact ⟨session, rfl, hname⟩

theorem run_openSession_loneScript (P : String → Prop) : ∃ c session,
    Relation.ReflTransGen (Clients.Step ⟨⟨"/p"⟩⟩ ["p"] P) ⟨loneScript, []⟩ c ∧ session ∈ c.held ∧
      session.record.id = "20241004-000000-000" := by
  obtain ⟨session, hok, hid⟩ := openSession_loneScript
  exact ⟨_, session, .single (.opens ⟨by decide, by decide, by decide⟩ hok), mem_cons_self, hid⟩

theorem held_session_excludes_loneScript : ∃ c session,
    Relation.ReflTransGen (Clients.Step ⟨⟨"/p"⟩⟩ ["p"] (· = "20241004-000000-000")) ⟨loneScript, []⟩ c ∧
      session ∈ c.held ∧ session.record.id = "20241004-000000-000" ∧
      ((Quarantine.mk ⟨"/p"⟩).restore "20241004-000000-000").run.run c.tree =
        (.error (.busy "20241004-000000-000"), c.tree) := by
  obtain ⟨c, session, hrun, hheld, hid⟩ := run_openSession_loneScript (· = "20241004-000000-000")
  have hmain := held_session_excludes (by decide) loneScript_spec.1 (by decide) (by decide) (by decide) hrun hheld
  rw [hid] at hmain
  obtain ⟨-, hbusy, -, hthere, -⟩ := hmain
  exact ⟨c, session, hrun, hheld, hid, (hbusy (hthere fun id hP _ => hP)).1⟩

/-- **A session that is held is deleted by a text with a slash.** A client has opened a session, another one asks to
delete it by its name with a slash behind it, and the directory of the session is gone. -/
theorem held_session_deleted : ∃ c session,
    Relation.ReflTransGen (Clients.Step ⟨⟨"/p"⟩⟩ ["p"] (· = "20241004-000000-000")) ⟨loneScript, []⟩ c ∧
      session ∈ c.held ∧ session.record.id = "20241004-000000-000" ∧
      Denotes "20241004-000000-000/" "20241004-000000-000" ∧
      c.tree.get? (sessionAt ["p"] "20241004-000000-000") = some .directory ∧
      ∃ count, (((Quarantine.mk ⟨"/p"⟩).purge "20241004-000000-000/").run.run c.tree).1 = .ok count ∧
        (((Quarantine.mk ⟨"/p"⟩).purge "20241004-000000-000/").run.run c.tree).2.get?
          (sessionAt ["p"] "20241004-000000-000") = none := by
  obtain ⟨c, session, hrun, hheld, hid⟩ := run_openSession_loneScript (· = "20241004-000000-000")
  have hstart : Clients.Sound ⟨⟨"/p"⟩⟩ ["p"] (· = "20241004-000000-000") ⟨loneScript, []⟩ :=
    ⟨.start (by decide) (by decide) (by decide) (by decide), by simp⟩
  have h := hstart.run loneScript_spec.1 hrun
  have hdenotes : Denotes "20241004-000000-000/" "20241004-000000-000" := by decide
  have hthere := (h.sessions session hheld).directory (by rw [hid]; exact fun id hP _ => hP)
  rw [hid] at hthere
  exact ⟨c, session, hrun, hheld, hid, hdenotes, hthere,
    (h.order.not_excluded loneScript_spec.1 hdenotes (by decide) hthere).2⟩

end Deadwood
