import Deadwood.Proofs.Discovery
import Deadwood.Proofs.Opening

/-!
# What a session stores while it is filled

A session is filled by moving files in and by backing files up, and meanwhile others may change the project. A file is
stored under its own names; so a path that is recorded a second time takes the place of its older copy.

* **`stored_is_last_recorded`**: what a path held when it was recorded last is stored.
-/

namespace Deadwood

open List FileTree FileTask Deadwood.Path OpenSession StoredFile

/-! ## Stored files that stay -/

/-- The stored files whose names satisfy `P` stay as they are. -/
def KeepsStored (r : Address) (id : String) (P : List String → Prop) (s u : FileTree) : Prop :=
  ∀ m contents, P m → s.get? (filesAt r id ++ m) = some (.file contents) →
    u.get? (filesAt r id ++ m) = some (.file contents)

variable {r : Address} {id name : String} {s u v : FileTree} {q : Quarantine} {moves : List (Path × Path)}
  {m : List String} {p : Path}

section KeepsStored

variable {P : List String → Prop} {n : List String} {fuel : Nat}

theorem KeepsStored.refl : KeepsStored r id P s s := fun _ _ _ h => h

theorem KeepsStored.trans (h : KeepsStored r id P s u) (h' : KeepsStored r id P u v) : KeepsStored r id P s v :=
  fun m contents hm hs => h' m contents hm (h m contents hm hs)

theorem KeepsStored.of_same (h : ∀ m, P m → u.get? (filesAt r id ++ m) = s.get? (filesAt r id ++ m)) :
    KeepsStored r id P s u :=
  fun m _ hm hs => (h m hm).trans hs

theorem FileTree.AddsDirectories.keepsStored {a : Address} (h : AddsDirectories a s u) : KeepsStored r id P s u :=
  fun _ _ _ => h.of_some

theorem not_prefix_filesAt {x : List String} (h : ¬ x <+: ".deadfiles" :: "quarantine" :: id :: "files" :: m) :
    ¬ r ++ x <+: filesAt r id ++ m := by
  rw [filesAt, append_assoc]
  exact not_prefix_place h

theorem ensures_removeEmptyBelow_files (wf : s.WellFormed) (hq : q.At r)
    (hn : IsOutside n) (hp : LeadsTo p (r ++ m)) (hmn : m <+: n) :
    (removeEmptyBelow q.root fuel (some p)).Ends
      (fun _ _ u => (u.WellFormed ∧ SameBut (fun c => ¬ storeAt r <+: c) s u) ∧
        ∀ c contents, s.get? c = some (.file contents) → u.get? c = some (.file contents)) moves s := by
  refine (ensures_removeEmptyBelow (P := fun u => (u.WellFormed ∧ SameBut (fun c => ¬ storeAt r <+: c) s u) ∧
    ∀ c contents, s.get? c = some (.file contents) → u.get? c = some (.file contents)) (fun _ h => h.1.1) ?_
    ⟨⟨wf, .refl _ _⟩, fun _ _ h => h⟩ hq hn hp hmn).mono (fun _ _ _ => trivial) fun _ _ _ h => h.2
  rintro u x ⟨⟨hu, hsame⟩, hfiles⟩ hx - hdir hempty
  have hne : r ++ x ≠ [] := by simp [hx.1]
  refine ⟨⟨hu.erase hne, hsame.trans ((SameBut.erase hne).mono fun c => hx.not_storeAt_prefix_of_prefix)⟩,
    fun c contents hc => ?_⟩
  rw [get?_erase hne, if_neg, hfiles c contents hc]
  rintro ⟨y, rfl⟩
  have hc := hfiles _ _ hc
  by_cases hy : y = []
  · rw [hy, append_nil, hdir] at hc
    cases hc
  · rw [hu.get?_below_empty hempty hy] at hc
    cases hc

theorem KeepsStored.of_outside (h : SameBut (fun c => ¬ storeAt r <+: c) s u) : KeepsStored r id P s u :=
  .of_same fun m _ => h.get? _ (not_not.2 (store_prefix_files m))

end KeepsStored

/-! ## Work in a session -/

/-- What work in a session may change: what is outside the store, the way to the stored files and all below it, the
record and its draft. -/
def Workspace (r : Address) (name : String) (c : Address) : Prop :=
  ¬ storeAt r <+: c ∨ c <+: filesAt r name ∨ filesAt r name <+: c ∨ draftAt r name <+: c ∨
    recordAt r name <+: c

section Workspace

variable {c : Address}

theorem workspace_aboveStored (h : c <+: filesAt r name ++ m) : Workspace r name c := by
  rcases prefix_or_prefix_of_prefix h (prefix_append (filesAt r name) m) with hup | hdown
  · exact .inr (.inl hup)
  · exact .inr (.inr (.inl hdown))

end Workspace

/-- The tree `u` comes from `s` by work in a session: elsewhere nothing has changed, the directory of the session is
still there, and the record is the old one or has contents that satisfy `W`. -/
structure WorkedIn (r : Address) (name : String) (W : Bytes → Prop) (s u : FileTree) : Prop where
  wf : u.WellFormed
  same : SameBut (Workspace r name) s u
  directory : s.get? (sessionAt r name) = some .directory → u.get? (sessionAt r name) = some .directory
  record : u.get? (recordAt r name) = s.get? (recordAt r name) ∨
    ∃ contents, W contents ∧ u.get? (recordAt r name) = some (.file contents)

namespace WorkedIn

variable {W : Bytes → Prop}

theorem refl (wf : s.WellFormed) : WorkedIn r name W s s := ⟨wf, .refl _ _, id, .inl rfl⟩

theorem trans (h : WorkedIn r name W s u) (h' : WorkedIn r name W u v) : WorkedIn r name W s v where
  wf := h'.wf
  same := h.same.trans h'.same
  directory hs := h'.directory (h.directory hs)
  record := by
    rcases h'.record with heq | hnew
    · rw [heq]
      exact h.record
    · exact .inr hnew

theorem mono {W' : Bytes → Prop} (h : WorkedIn r name W s u) (hW : ∀ contents, W contents → W' contents) :
    WorkedIn r name W' s u :=
  ⟨h.wf, h.same, h.directory, h.record.imp_right fun ⟨contents, hc, hrec⟩ => ⟨contents, hW contents hc, hrec⟩⟩

theorem of_sameBut (wf : u.WellFormed) (hm : IsOutside m)
    (h : SameBut (fun c => r ++ m <+: c ∨ filesAt r name ++ m <+: c) s u) : WorkedIn r name W s u := by
  have hsession : ¬ (r ++ m <+: sessionAt r name ∨ filesAt r name ++ m <+: sessionAt r name) := by
    refine not_or.2 ⟨hm.not_above_store (prefix_place (by simp)), not_prefix_files (by simp)⟩
  have hrecord : ¬ (r ++ m <+: recordAt r name ∨ filesAt r name ++ m <+: recordAt r name) :=
    not_or.2 ⟨hm.not_above_store (prefix_place (by simp)), not_prefix_files (by simp)⟩
  refine ⟨wf, h.mono fun c hc => ?_, fun hdir => (h.get? _ hsession).trans hdir, .inl (h.get? _ hrecord)⟩
  exact hc.elim (fun hc => .inl (hm.not_storeAt_prefix_of_prefix hc)) fun hc =>
    .inr (.inr (.inl ((prefix_append _ _).trans hc)))

theorem aboveStored (h : AddsDirectories (filesAt r name ++ m) s u) : WorkedIn r name W s u := by
  refine ⟨h.wf, h.same.mono fun c => workspace_aboveStored, h.of_some, .inl (h.same.get? _ fun hp => ?_)⟩
  rw [recordAt, filesAt, append_assoc, prefix_append_right_inj] at hp
  simp at hp

theorem aboveHome (hm : IsOutside m) (h : AddsDirectories (r ++ m).dropLast s u) : WorkedIn r name W s u :=
  ⟨h.wf, h.same.mono fun c hc => .inl fun hstore => hm.not_prefix_above hstore hc, h.of_some,
    .inl (h.same.get? _ (hm.not_prefix_above (prefix_place (by simp))))⟩

theorem of_outside (wf : u.WellFormed) (h : SameBut (fun c => ¬ storeAt r <+: c) s u) : WorkedIn r name W s u :=
  ⟨wf, h.mono fun _ => .inl, fun hdir => (h.get? _ (not_not.2 (prefix_place (by simp)))).trans hdir,
    .inl (h.get? _ (not_not.2 (prefix_place (by simp))))⟩

end WorkedIn

/-- **Saving a record is work in the session**, and the stored files stay. -/
theorem ensures_save_worked {r : Address} {name : String} {s : FileTree} {directory : Path}
    {moves : List (Path × Path)} (wf : s.WellFormed) (hdirectory : LeadsTo directory (sessionAt r name))
    (record : SessionRecord) : (record.save directory).run.Ends
      (fun result _ u => WorkedIn r name (fun contents => result = .ok () ∧ contents = record.contents) s u ∧
        KeepsStored r name (fun _ => True) s u) moves s := by
  refine (ensures_save_sameBut wf hdirectory record).imp ?_
  rintro result _ u ⟨hwf, hsame, hrecord⟩
  have hsession : ¬ (draftAt r name <+: sessionAt r name ∨ recordAt r name <+: sessionAt r name) :=
    not_or.2 ⟨not_prefix_place (by simp), not_prefix_place (by simp)⟩
  refine ⟨⟨hwf, hsame.mono fun c hc => .inr (.inr (.inr hc)), fun hdir => (hsame.get? _ hsession).trans hdir, ?_⟩,
    .of_same fun m _ => hsame.get? _ (not_or.2 ⟨not_prefix_filesAt (by simp), not_prefix_filesAt (by simp)⟩)⟩
  split at hrecord
  · rename_i hok
    exact .inr ⟨_, ⟨hok, rfl⟩, hrecord⟩
  · exact .inl hrecord

/-! ## Fillings -/

/-- A session that is being filled, the tree, and for every file in the record its names, with what was there when
it was recorded. -/
structure Filling where
  session : OpenSession
  tree : FileTree
  log : List (List String × Option Node) := []

namespace Filling

/-- Carries out a task that fills the session. For files that it adds to the record, what was at their homes before
is logged. -/
def perform (r : Address) (f : Filling) (task : FillingTask Unit) : Filling :=
  let done := (f.session.fill task).run f.tree
  let added := done.1.2.record.files.drop f.session.record.files.length
  ⟨done.1.2, done.2, f.log ++ added.map fun g => (g.names, f.tree.get? (r ++ g.names))⟩

/-- What may happen while a session is filled: a file is moved in or backed up, or anything outside the store is
changed by others. -/
inductive Step (r : Address) : Filling → Filling → Prop
  | moveIn (f : Filling) {p : Path} {m : List String} (hp : p.IsRelative m) (hm : IsOutside m) :
      Step r f (f.perform r (moveIn p))
  | backUp (f : Filling) {p : Path} {m : List String} (hp : p.IsRelative m) (hm : IsOutside m) (replacement : Bytes) :
      Step r f (f.perform r (backUp p replacement))
  | edit (f : Filling) {t : FileTree} (wf : t.WellFormed)
      (hstore : ∀ c, storeAt r <+: c → t.get? c = f.tree.get? c) : Step r f { f with tree := t }

end Filling

/-- A file in a record belongs to an entry of the log. -/
structure StoredFile.Logged (g : StoredFile) (x : List String × Option Node) : Prop where
  names : g.names = x.1
  home : g.home.IsRelative g.names
  outside : IsOutside g.names
  stored : g.stored = filesDirectory.join g.home
  plain : x.2 ≠ some .directory → wantsDirectory ⟨String.ofList ('/' :: g.home.text.toList)⟩ = false

def StoredFile.withoutHash (g : StoredFile) : StoredFile := { g with writtenHash := none }

theorem StoredFile.logged_withoutHash {g : StoredFile} {x : List String × Option Node} :
    g.withoutHash.Logged x ↔ g.Logged x :=
  ⟨fun h => ⟨h.names, h.home, h.outside, h.stored, h.plain⟩, fun h => ⟨h.names, h.home, h.outside, h.stored, h.plain⟩⟩

theorem OpenSession.withHash_files (record : SessionRecord) (relative : Path) (hash : String) :
    (withHash record relative hash).files.map withoutHash = record.files.map withoutHash := by
  have hupdate (files : List StoredFile) : (withHash.update relative hash files).map withoutHash =
        files.map withoutHash := by
    induction files with
    | nil => rfl
    | cons g files ih =>
      rw [withHash.update]
      split
      · rfl
      · rw [map_cons, map_cons, ih]
  exact hupdate record.files

/-- What a call for a file `m` did: it kept the files in the record and the stored ones, or it recorded `m` and
stored what was there. -/
inductive Filling.Outcome (r : Address) (id : String) (m : List String) (files : List StoredFile) (s : FileTree)
    (files' : List StoredFile) (u : FileTree) : Prop
  | kept (h : files'.map withoutHash = files.map withoutHash)
      (hstored : KeepsStored r id (fun _ => True) s u)
  | added (g : StoredFile) (h : files' = files ++ [g])
      (hg : g.Logged (m, s.get? (r ++ m))) (hstored : KeepsStored r id (· ≠ m) s u)
      (hnew : ∀ contents, s.get? (r ++ m) = some (.file contents) →
        u.get? (filesAt r id ++ m) = some (.file contents))

/-- The session is the named one of a quarantine, and the tree is well formed. -/
structure FillsAt (q : Quarantine) (id : String) (session : OpenSession) (s : FileTree) : Prop where
  wf : s.WellFormed
  quarantine : session.quarantine = q
  named : session.record.id = id

/-- A call for a file `m` has been carried out in a session, by work in that session. -/
structure Filling.Done (q : Quarantine) (r : Address) (id : String) (m : List String) (session : OpenSession)
    (s : FileTree) (session' : OpenSession) (u : FileTree) : Prop extends FillsAt q id session' u where
  outcome : Filling.Outcome r id m session.record.files s session'.record.files u
  worked : WorkedIn r id (· = session'.record.contents) s u

namespace FillsAt

variable {session : OpenSession}

theorem directory (h : FillsAt q id session s) : session.directory = q.directory id := by
  rw [OpenSession.directory, h.quarantine, h.named]

theorem ensures_add (h : FillsAt q id session u) (hq : q.At r) (hid : IsName id) {g : StoredFile}
    (hg : g.Logged (m, s.get? (r ++ m))) (hstored : KeepsStored r id (· ≠ m) s u)
    (hnew : ∀ contents, s.get? (r ++ m) = some (.file contents) →
      u.get? (filesAt r id ++ m) = some (.file contents)) (hworked : ∀ W, WorkedIn r id W s u) :
    (session.fill (add g)).Ends (fun result _ v => Filling.Done q r id m session s result.2 v) moves u := by
  refine FileTask.ensures_add ?_
  rw [h.directory]
  refine (ensures_save_worked h.wf (leadsTo_directory hq hid) _).imp ?_
  rintro result _ v ⟨hv, hkeep⟩
  refine ⟨⟨hv.wf, h.quarantine, (SessionRecord.id_add _ _).trans h.named⟩, .added g (SessionRecord.files_add _ _) hg
    ?_ ?_, (hworked _).trans (hv.mono fun _ => And.right)⟩
  · exact hstored.trans fun x contents _ => hkeep x contents trivial
  · exact fun contents hc => hkeep m contents trivial (hnew contents hc)

theorem done_of_addsDirectories (h : FillsAt q id session s) {backedUp : List Path}
    (hadd : AddsDirectories (filesAt r id ++ m).dropLast s u) :
    Filling.Done q r id m session s { session with backedUp := backedUp } u :=
  ⟨⟨hadd.wf, h.quarantine, h.named⟩, .kept rfl hadd.keepsStored, .aboveStored (hadd.mono (List.dropLast_prefix _))⟩

variable (h : FillsAt q id session s) (hq : q.At r) (hid : IsName id) (hp : p.IsRelative m)
include h hq hid hp

theorem ensures_moveIn (hm : m = [] ∨ IsOutside m) :
    (session.fill (moveIn p)).Ends (fun result _ u => Filling.Done q r id m session s result.2 u) moves s := by
  have hrel : session.relative p = p := relative_eq (h.quarantine ▸ hq) hp
  have hhome : LeadsTo (q.root.join p) (r ++ m) := hq.join hp
  have hstored := leadsTo_storedPath hq hid hp
  refine ensures_get_bind ?_
  simp only [hrel, h.quarantine, h.directory]
  refine ensures_files_bind (ensures_status trivial ?_)
  cases hfind : s.find (q.root.join p) with
  | error e => exact ⟨h, .kept rfl .refl, .refl h.wf⟩
  | ok x =>
    obtain ⟨-, hx, hwants⟩ := (find_eq_ok_iff h.wf hhome).1 hfind
    refine ensures_files_bind ((ensures_makeDirectoriesAbove h.wf hstored (by simp [filesAt])).imp ?_)
    rintro (e | _) _ u ⟨-, hadd, -⟩
    · exact h.done_of_addsDirectories hadd
    have hne : r ++ m ≠ filesAt r id ++ m := ne_filesAt m
    refine ensures_files_bind (ensures_moveFile hadd.wf hhome hstored hne trivial
      (fun e _ => h.done_of_addsDirectories hadd) fun v hv => ?_)
    obtain ⟨hmov, -, -, rfl⟩ := (move_eq_ok_iff hadd.wf hhome hstored hne).1 hv
    have hm : IsOutside m := hmov.isOutside hm
    have hwf := hadd.wf.transfer hmov
    let g : StoredFile := { home := p, stored := filesDirectory.join p, size := x.2.size }
    have hnames : g.names = m := hp.names_eq
    have hg : g.Logged (m, s.get? (r ++ m)) := by
      refine ⟨hnames, hnames ▸ hp, hnames ▸ hm, rfl, fun hfile => Bool.eq_false_iff.2 fun hw => hfile ?_⟩
      rw [← wantsDirectory_join hq.text_ne hp.relative] at hw
      exact hx.trans (congrArg some (hwants hw))
    -- nothing is stored below the place that the file is moved to
    have hkeep : KeepsStored r id (· ≠ m) s (u.transfer (r ++ m) (filesAt r id ++ m)) := by
      refine hadd.keepsStored.trans fun n contents hn hfile => ?_
      have hbelow : ¬ filesAt r id ++ m <+: filesAt r id ++ n := fun hpre =>
        hn (append_cancel_left (hmov.eq_of_prefix (by rw [hfile]; rfl) hpre))
      rw [get?_transfer_rest hadd.wf hmov (hm.not_above_store (store_prefix_files n)) hbelow, hfile]
    have hnew : ∀ contents, s.get? (r ++ m) = some (.file contents) →
        (u.transfer (r ++ m) (filesAt r id ++ m)).get? (filesAt r id ++ m) = some (.file contents) := by
      intro contents hfile
      rw [get?_transfer_at_target hadd.wf hmov, hadd.of_some hfile]
    have hworked (W : Bytes → Prop) : WorkedIn r id W s (u.transfer (r ++ m) (filesAt r id ++ m)) :=
      (WorkedIn.aboveStored (hadd.mono (List.dropLast_prefix _))).trans (.of_sameBut hwf hm (.transfer hadd.wf hmov))
    refine ensures_fill_bind ((ensures_add ⟨hwf, h.quarantine, h.named⟩ hq hid hg hkeep hnew hworked).imp ?_)
    rintro ⟨result, session'⟩ _ w hw
    cases result with
    | error e => exact hw
    | ok _ =>
      obtain ⟨above, habove, hlead⟩ := hhome.parent_below hm.1
      dsimp only
      rw [habove]
      refine ensures_fill_lift (ensures_monadLift ((ensures_removeEmptyBelow_files hw.wf hq hm hlead
        (List.dropLast_prefix m)).imp ?_))
      rintro _ _ z ⟨⟨hz, hsame⟩, -⟩
      have hkeep' : KeepsStored r id (fun _ => True) w z := .of_outside hsame
      refine ⟨⟨hz, hw.quarantine, hw.named⟩, ?_, hw.worked.trans (.of_outside hz hsame)⟩
      cases hw.outcome with
      | kept h hstored => exact .kept h (hstored.trans hkeep')
      | added g h hg hstored hnew =>
        exact .added g h hg (hstored.trans fun n c _ => hkeep' n c trivial)
          fun contents hc => hkeep' m contents trivial (hnew contents hc)

theorem ensures_backUp (hm : IsOutside m) (replacement : Bytes) :
    (session.fill (OpenSession.backUp p replacement)).Ends
      (fun result _ u => Filling.Done q r id m session s result.2 u) moves s := by
  obtain rfl := h.quarantine
  have hhome : LeadsTo (session.quarantine.root.join p) (r ++ m) := hq.join hp
  have hstored := leadsTo_storedPath hq hid hp
  refine ensures_get_bind ?_
  simp only [OpenSession.relative_eq hq hp, h.directory]
  split
  · -- the file has been backed up before, so only its fingerprint changes
    refine ensures_fill_bind (ensures_pure.2 (ensures_get_bind (ensures_fill_lift ?_)))
    have hdir : OpenSession.directory { session with
        record := OpenSession.withHash session.record p (fingerprint replacement) } = session.quarantine.directory id :=
      h.directory
    rw [hdir]
    refine (ensures_save_worked h.wf (leadsTo_directory hq hid) _).imp ?_
    rintro result _ u ⟨hu, hkeep⟩
    exact ⟨⟨hu.wf, rfl, h.named⟩, .kept (OpenSession.withHash_files _ _ _) hkeep, hu.mono fun _ => And.right⟩
  · refine ensures_fill_bind (ensures_pure.2 ?_)
    refine ensures_files_bind ((ensures_makeDirectoriesAbove h.wf hstored (by simp [filesAt])).imp ?_)
    rintro (e | _) _ u ⟨-, hadd, -⟩
    · exact h.done_of_addsDirectories hadd
    refine ensures_files_bind (ensures_copy trivial (fun e _ => h.done_of_addsDirectories hadd) fun size v hv => ?_)
    obtain ⟨contents, hfile, hwants, rfl, hwrite⟩ := (copy_eq_ok_iff hadd.wf hhome hstored (ne_filesAt _)).1 hv
    obtain ⟨hroom, hdir, -, rfl⟩ := (write_eq_ok_iff hadd.wf hstored).1 hwrite
    have hwf := hroom.put (n := .file contents) hadd.wf (.inr hdir)
    have hput : SameBut (· = filesAt r id ++ m) u (u.put (filesAt r id ++ m) (.file contents)) :=
      .put hroom.ne_nil
    have hthere : s.get? (r ++ m) = some (.file contents) := by
      rcases hadd.made (r ++ m) with hsame | ⟨-, hmade⟩
      · rw [← hsame, hfile]
      · rw [hfile] at hmade
        cases hmade
    let g : StoredFile := { home := p, stored := filesDirectory.join p, size := contents.length, edited := true,
                            writtenHash := some (fingerprint replacement) }
    have hnames : g.names = m := hp.names_eq
    have hg : g.Logged (m, s.get? (r ++ m)) := by
      refine ⟨hnames, hnames ▸ hp, hnames ▸ hm, rfl, fun _ => ?_⟩
      rw [← wantsDirectory_join hq.text_ne hp.relative, hwants]
    have hkeep : KeepsStored r id (· ≠ m) s (u.put (filesAt r id ++ m) (.file contents)) :=
      hadd.keepsStored.trans (.of_same fun n hn => hput.get? _ fun heq => hn (append_cancel_left heq))
    have hnew : ∀ c, s.get? (r ++ m) = some (.file c) →
        (u.put (filesAt r id ++ m) (.file contents)).get? (filesAt r id ++ m) = some (.file c) := by
      intro c hc
      rw [get?_put hroom.ne_nil, if_pos rfl, ← hthere, hc]
    have hworked (W : Bytes → Prop) : WorkedIn r id W s (u.put (filesAt r id ++ m) (.file contents)) :=
      (WorkedIn.aboveStored (hadd.mono (List.dropLast_prefix _))).trans
        (.of_sameBut hwf hm (hput.mono fun c hc => .inr (hc ▸ prefix_rfl)))
    have hafter : FillsAt session.quarantine id { session with backedUp := p :: session.backedUp }
        (u.put (filesAt r id ++ m) (.file contents)) := ⟨hwf, rfl, h.named⟩
    exact (hafter.ensures_add hq hid hg hkeep hnew hworked).imp fun _ _ _ hdone =>
      ⟨hdone.toFillsAt, hdone.outcome, hdone.worked⟩

end FillsAt

/-! ## Runs -/

/-- The record and the log belong together, and what a path held when it was recorded last is stored. -/
structure Filling.Sound (q : Quarantine) (r : Address) (id : String) (f : Filling) : Prop extends
    FillsAt q id f.session f.tree where
  logged : Forall₂ StoredFile.Logged f.session.record.files f.log
  /-- Every file in the log whose names do not come again is stored. -/
  stored : ∀ (i : Nat) m contents, f.log[i]? = some (m, some (.file contents)) →
    (∀ (j : Nat) x, i < j → f.log[j]? = some x → x.1 ≠ m) → f.tree.get? (filesAt r id ++ m) = some (.file contents)

namespace Filling.Sound

variable {f f' : Filling} {g : StoredFile}

section

variable (h : f.Sound q r id)
include h

theorem perform {task : FillingTask Unit}
    (hdone : Filling.Done q r id m f.session f.tree ((f.session.fill task).run f.tree).1.2
      ((f.session.fill task).run f.tree).2) : (f.perform r task).Sound q r id := by
  obtain ⟨hat, hout, -⟩ := hdone
  cases hout with
  | kept hfiles hstored =>
    have hlog : (f.perform r task).log = f.log := by
      have hlen := congrArg List.length hfiles
      rw [length_map, length_map] at hlen
      simp only [Filling.perform, ← hlen, drop_length, map_nil, append_nil]
    -- the files are the same but for their fingerprints
    have hiff (files : List StoredFile) : Forall₂ StoredFile.Logged (files.map withoutHash) f.log ↔
        Forall₂ StoredFile.Logged files f.log := by
      rw [forall₂_map_left_iff]
      simp only [logged_withoutHash]
    refine ⟨hat, ?_, ?_⟩
    · rw [hlog, ← hiff]
      exact (congrArg (Forall₂ StoredFile.Logged · f.log) hfiles).mpr ((hiff _).2 h.logged)
    · rw [hlog]
      exact fun i m contents hi hlast => hstored m contents trivial (h.stored i m contents hi hlast)
  | added g hfiles hg hstored hnew =>
    have hlog : (f.perform r task).log = f.log ++ [(m, f.tree.get? (r ++ m))] := by
      simp only [Filling.perform, hfiles, drop_left, map_cons, map_nil, hg.names]
    refine ⟨hat, ?_, ?_⟩
    · rw [hlog]
      exact (congrArg (Forall₂ StoredFile.Logged · _) hfiles).mpr (rel_append h.logged (.cons hg .nil))
    · rw [hlog]
      intro i n contents hi hlast
      by_cases hold : i < f.log.length
      · rw [getElem?_append_left hold] at hi
        have hne : m ≠ n := hlast f.log.length _ hold getElem?_concat_length
        refine hstored n contents hne.symm (h.stored i n contents hi fun j x hij hj => hlast j x hij ?_)
        rwa [getElem?_append_left (List.getElem?_eq_some_iff.1 hj).1]
      · rw [getElem?_append_right (Nat.not_lt.1 hold), getElem?_singleton] at hi
        split at hi
        · obtain ⟨rfl, hthere⟩ := Prod.mk.injEq _ _ _ _ ▸ Option.some.inj hi
          exact hnew contents hthere
        · cases hi

theorem step (hq : q.At r) (hid : IsName id) (hstep : Filling.Step r f f') : f'.Sound q r id := by
  cases hstep with
  | moveIn hp hm =>
    have hdone : (f.session.fill (moveIn _)).Ensures _ _ [] f.tree :=
      h.toFillsAt.ensures_moveIn hq hid hp (.inr hm)
    exact h.perform hdone.result.choose_spec
  | backUp hp hm replacement =>
    have hdone : (f.session.fill (backUp _ replacement)).Ensures _ _ [] f.tree :=
      h.toFillsAt.ensures_backUp hq hid hp hm replacement
    exact h.perform hdone.result.choose_spec
  | edit wf hstore =>
    refine ⟨⟨wf, h.quarantine, h.named⟩, h.logged, fun i m contents hi hlast => ?_⟩
    exact (hstore _ (store_prefix_files m)).trans (h.stored i m contents hi hlast)

theorem run (hq : q.At r) (hid : IsName id) (hrun : Relation.ReflTransGen (Filling.Step r) f f') : f'.Sound q r id := by
  induction hrun with
  | refl => exact h
  | tail _ hstep ih => exact ih.step hq hid hstep

theorem logged_getElem? {i : Nat} {x : List String × Option Node} (hg : f.session.record.files[i]? = some g)
    (hx : f.log[i]? = some x) : g.Logged x := by
  obtain ⟨hi, rfl⟩ := List.getElem?_eq_some_iff.1 hg
  obtain ⟨hi', rfl⟩ := List.getElem?_eq_some_iff.1 hx
  exact (forall₂_iff_get.1 h.logged).2 i hi hi'

theorem exists_logged (hg : g ∈ f.session.record.files) : ∃ x ∈ f.log, g.Logged x := by
  obtain ⟨i, hi⟩ := mem_iff_getElem?.1 hg
  have hlen : i < f.log.length := h.logged.length_eq ▸ (List.getElem?_eq_some_iff.1 hi).1
  exact ⟨_, getElem_mem hlen, h.logged_getElem? hi (getElem?_eq_getElem hlen)⟩

theorem map_names : f.log.map Prod.fst = f.session.record.files.map StoredFile.names := by
  have hlen := h.logged.length_eq
  refine ext_getElem (by rw [length_map, length_map, hlen]) fun i hi hi' => ?_
  rw [length_map] at hi hi'
  rw [getElem_map, getElem_map]
  exact (h.logged_getElem? (getElem?_eq_getElem hi') (getElem?_eq_getElem hi)).names.symm

end

theorem start {t : FileTree} (wf : t.WellFormed) {record : SessionRecord} (hempty : record.files = []) :
    (Filling.mk ⟨q, record, []⟩ t []).Sound q r record.id :=
  ⟨⟨wf, rfl, rfl⟩, by rw [hempty]; exact .nil, by simp⟩

end Filling.Sound

/-- **What a path held when it was recorded last is stored.** Start with an empty session and fill it, while others
change the project. Then every file in the record has an entry in the log, under the same names. If that shows a file,
and the record has no later file of the same names, its bytes are stored. -/
theorem stored_is_last_recorded {t : FileTree} (wf : t.WellFormed) {q : Quarantine} {r : Address}
    (hq : LeadsTo q.root r) {record : SessionRecord} (hid : IsName record.id) (hempty : record.files = [])
    {f : Filling} (hrun : Relation.ReflTransGen (Filling.Step r) ⟨⟨q, record, []⟩, t, []⟩ f) :
    f.log.map Prod.fst = f.session.record.files.map StoredFile.names ∧
    ∀ (i : Nat) (g : StoredFile) contents, f.session.record.files[i]? = some g →
      f.log[i]? = some (g.names, some (.file contents)) →
      (∀ (j : Nat) (g' : StoredFile), i < j → f.session.record.files[j]? = some g' → g'.names ≠ g.names) →
      f.tree.read (f.session.directory.join g.stored) = .ok contents := by
  have h : f.Sound q r record.id := (Filling.Sound.start wf hempty).run hq hid hrun
  refine ⟨h.map_names, fun i g contents hg hlog hlast => ?_⟩
  have hlogged := h.logged_getElem? hg hlog
  have hlead := leadsTo_storedPath hq hid hlogged.home
  have hwants := (wantsDirectory_storedPath hq hid hlogged.home).trans (hlogged.plain nofun)
  rw [h.directory, hlogged.stored]
  refine (read_eq_ok_iff h.wf hlead).2 ⟨h.stored i _ contents hlog fun j x hij hj => ?_, hwants⟩
  have hlen : j < f.session.record.files.length := h.logged.length_eq ▸ (List.getElem?_eq_some_iff.1 hj).1
  have hg' := List.getElem?_eq_getElem hlen
  rw [← (h.logged_getElem? hg' hj).names]
  exact hlast j _ hij hg'

/-- A session that is open and has no files yet, in a project with one script. -/
def emptyFilling : Filling where
  session := ⟨⟨⟨"/p"⟩⟩, { id := "S", createdAt := ⟨0, 0, 0⟩ }, []⟩
  tree :=
    { nodes := [(["p"], .directory), (["p", "a.js"], .file [111]), (["p", ".deadfiles"], .directory),
        (["p", ".deadfiles", "quarantine"], .directory), (["p", ".deadfiles", "quarantine", "S"], .directory),
        (["p", ".deadfiles", "quarantine", "S", "files"], .directory),
        (["p", ".deadfiles", "quarantine", "S", "manifest.json"],
          .file (SessionRecord.contents { id := "S", createdAt := ⟨0, 0, 0⟩ })),
        (["p", ".deadfiles", "quarantine", "S.lock"], .file [])]
      locks := [["p", ".deadfiles", "quarantine", "S.lock"]] }

def onceMoved : Filling := emptyFilling.perform ["p"] (moveIn ⟨"a.js"⟩)

def rewritten : Filling := { onceMoved with tree := onceMoved.tree.put ["p", "a.js"] (.file [110]) }

def twiceMoved : Filling := rewritten.perform ["p"] (moveIn ⟨"a.js"⟩)

theorem twiceMoved_spec : onceMoved.log = [(["a.js"], some (.file [111]))] ∧ rewritten.tree.WellFormed ∧
    twiceMoved.session.record.files.length = 2 ∧
    twiceMoved.log = [(["a.js"], some (.file [111])), (["a.js"], some (.file [110]))] ∧
    twiceMoved.tree.get? (filesAt ["p"] "S" ++ ["a.js"]) = some (.file [110]) := by
  decide +kernel

theorem run_onceMoved : Relation.ReflTransGen (Filling.Step ["p"]) emptyFilling onceMoved :=
  .single (.moveIn _ (isRelative_of_isName (by decide)) (by decide : IsOutside ["a.js"]))

theorem run_twiceMoved : Relation.ReflTransGen (Filling.Step ["p"]) emptyFilling twiceMoved := by
  have hedit : Filling.Step ["p"] onceMoved rewritten := by
    refine .edit _ twiceMoved_spec.2.1 fun c hc => ?_
    rw [get?_put (by decide), if_neg]
    rintro rfl
    exact absurd hc (by decide)
  exact .tail (run_onceMoved.tail hedit) (.moveIn _ (isRelative_of_isName (by decide)) (by decide : IsOutside ["a.js"]))

theorem stored_is_last_recorded_twiceMoved : emptyFilling.tree.WellFormed ∧
    ∃ g, twiceMoved.session.record.files[1]? = some g ∧
      twiceMoved.tree.read (twiceMoved.session.directory.join g.stored) = .ok [110] := by
  have hroot : pathOf ["p"] = ⟨"/p"⟩ := congrArg Path.mk (by decide)
  have hq : LeadsTo ⟨"/p"⟩ ["p"] := hroot ▸ leadsTo_pathOf (by decide)
  have hwf : emptyFilling.tree.WellFormed := by decide
  obtain ⟨hnames, hstored⟩ := stored_is_last_recorded hwf hq (by decide) rfl run_twiceMoved
  obtain ⟨-, -, hlen, hlog, -⟩ := twiceMoved_spec
  obtain ⟨g₀, g, hfiles⟩ := List.length_eq_two.1 hlen
  rw [hfiles, hlog] at hnames hstored
  simp only [List.map_cons, List.map_nil, List.cons.injEq] at hnames
  refine ⟨hwf, g, by rw [hfiles]; rfl, hstored 1 g [110] rfl (by rw [← hnames.2.1]; rfl) fun j g' hj hg' => ?_⟩
  rw [List.getElem?_eq_none (Nat.succ_le_of_lt hj)] at hg'
  cases hg'

/-- **A file that is moved in a second time takes the place of its older copy.** The record has two files of the same
names. The older one was recorded with the byte 111, and 110 is stored. -/
theorem stored_overwritten : Relation.ReflTransGen (Filling.Step ["p"]) emptyFilling twiceMoved ∧
    twiceMoved.session.record.files.length = 2 ∧
    twiceMoved.log = [(["a.js"], some (.file [111])), (["a.js"], some (.file [110]))] ∧
    twiceMoved.tree.get? (filesAt ["p"] "S" ++ ["a.js"]) = some (.file [110]) :=
  ⟨run_twiceMoved, twiceMoved_spec.2.2⟩

end Deadwood
