import Deadwood.Proofs.Holding
import Mathlib.Algebra.Ring.Nat

/-!
# Setting files aside, step by step

* `InSession`: the tree while a session is open, or after it was;
* **`InSession.ensures_save`**: the record of a session can always be replaced, and is in one step;
* **`Recorded.moveIn`**: a file is moved into a session, and this may be stopped at any time.
-/

namespace Deadwood

open List FileTree FileTask Deadwood.Path OpenSession

variable {s t u : FileTree} {id : String} {moves : List (Path × Path)} {q : Quarantine} {r : Address} {f : StoredFile}
  {m : List String} {path : Path} {record : Option SessionRecord} {held : List StoredFile} {k : Nat}

@[simp]
theorem SessionRecord.id_add (r : SessionRecord) (f : StoredFile) : (r.add f).id = r.id := by
  unfold SessionRecord.add
  split <;> rfl

/-! ## Tasks that may fail -/

namespace FileTask

variable {α β : Type} {I : Invariant} {task : FileTask (Except FileError α)}

theorem ensures_run_bind {x : QuarantineTask α} {f : α → QuarantineTask β} {Q : Post (Except QuarantineError β)}
    (h : x.run.Ensures I (fun result moves t =>
      match result with
      | .ok a => (f a).run.Ensures I Q moves t
      | .error e => Q (.error e) moves t) moves t) :
    (x >>= f).run.Ensures I Q moves t := by
  rw [ExceptT.run_bind]
  refine h.bind (fun _ _ h => h) fun result moves t hQ => ?_
  cases result with
  | ok a => exact hQ
  | error e => exact ensures_pure.2 hQ

theorem ensures_ofFiles {Q : Post (Except QuarantineError α)} (h : task.Ensures I (fun result moves t =>
      match result with
      | .ok a => Q (.ok a) moves t
      | .error e => Q (.error (.file e)) moves t) moves t) :
    (QuarantineTask.ofFiles task).run.Ensures I Q moves t := by
  refine h.bind (fun _ _ h => h) fun result moves t hQ => ?_
  cases result with
  | ok a => exact ensures_pure.2 hQ
  | error e => exact ensures_pure.2 hQ

theorem ensures_monadLift {task : FileTask α} {Q : Post (Except QuarantineError α)}
    (h : task.Ensures I (fun a => Q (.ok a)) moves t) :
    (monadLift task : QuarantineTask α).run.Ensures I Q moves t :=
  h.bind (fun _ _ h => h) fun _ _ _ hQ => ensures_pure.2 hQ

/-! ## Tasks that fill a session -/

variable {s : OpenSession} {f : α → FillingTask β} {Q : Post (Except QuarantineError β × OpenSession)}

theorem fill_bind (x : FillingTask α) (f : α → FillingTask β) : s.fill (x >>= f) = s.fill x >>= fun result =>
    match result.1 with
    | .ok a => result.2.fill (f a)
    | .error e => pure (.error e, result.2) := by
  simp only [fill, ExceptT.run_bind, StateT.run_bind]
  refine congrArg _ (funext fun result => ?_)
  cases result.1 <;> rfl

theorem ensures_fill_bind {x : FillingTask α} (h : (s.fill x).Ensures I (fun result moves t =>
      match result.1 with
      | .ok a => (result.2.fill (f a)).Ensures I Q moves t
      | .error e => Q (.error e, result.2) moves t) moves t) :
    (s.fill (x >>= f)).Ensures I Q moves t := by
  rw [fill_bind]
  refine h.bind (fun _ _ h => h) fun result moves t hQ => ?_
  cases hr : result.1 with
  | ok a =>
    rw [hr] at hQ
    exact hQ
  | error e =>
    rw [hr] at hQ
    exact ensures_pure.2 hQ

theorem ensures_get_bind {f : OpenSession → FillingTask β} (h : (s.fill (f s)).Ensures I Q moves t) :
    (s.fill (get >>= f)).Ensures I Q moves t :=
  ensures_fill_bind (ensures_pure.2 h)

theorem ensures_fill_lift {task : QuarantineTask β} (h : task.run.Ensures I (fun result => Q (result, s)) moves t) :
    (s.fill (lift task)).Ensures I Q moves t :=
  h.bind (fun _ _ h => h) fun _ _ _ hQ => ensures_pure.2 hQ

theorem ensures_files_bind (h : task.Ensures I (fun result moves t =>
      match result with
      | .ok a => (s.fill (f a)).Ensures I Q moves t
      | .error e => Q (.error (.file e), s) moves t) moves t) :
    (s.fill (files task >>= f)).Ensures I Q moves t := by
  refine ensures_fill_bind (ensures_fill_lift (ensures_ofFiles (h.mono (fun _ _ h => h) ?_)))
  intro result moves t hQ
  cases result with
  | ok a => exact hQ
  | error e => exact hQ

theorem ensures_add {f : StoredFile} {Q : Post (Except QuarantineError Unit × OpenSession)}
    (h : ((s.record.add f).save s.directory).run.Ensures I
      (fun result => Q (result, { s with record := s.record.add f })) moves t) :
    (s.fill (add f)).Ensures I Q moves t := by
  have hdir : directory { s with record := s.record.add f } = s.directory := by
    rw [directory, directory, SessionRecord.id_add]
  refine ensures_fill_bind (ensures_pure.2 (ensures_get_bind (ensures_fill_lift ?_)))
  rw [hdir]
  exact h

end FileTask

/-! ## The places of a session -/

def recordAt (r : Address) (id : String) : Address := r ++ [".deadfiles", "quarantine", id, "manifest.json"]

def draftAt (r : Address) (id : String) : Address := r ++ [".deadfiles", "quarantine", id, "manifest.json.tmp"]

def lockAt (r : Address) (id : String) : Address := r ++ [".deadfiles", "quarantine", id ++ ".lock"]

theorem isName_lock (h : IsName id) : IsName (id ++ ".lock") := by
  have hlen : (id ++ ".lock").toList.length = id.toList.length + 5 := by simp
  have hne {w : String} (hw : w.toList.length < 5) : id ++ ".lock" ≠ w := fun heq => by
    rw [heq] at hlen
    omega
  refine ⟨hne (by decide), hne (by decide), hne (by decide), ?_⟩
  rw [String.toList_append, mem_append, not_or]
  exact ⟨h.2.2.2, by decide⟩

section Leads

variable {p : Path} {name : String}

/-- A quarantine is in the project at `r`. -/
abbrev Quarantine.At (q : Quarantine) (r : Address) : Prop := LeadsTo q.root r

theorem leadsTo_base (hq : q.At r) : LeadsTo q.base (r ++ [".deadfiles", "quarantine"]) := by
  have h := (hq.join_name (show IsName ".deadfiles" by decide)).join_name (show IsName "quarantine" by decide)
  rwa [append_assoc] at h

theorem leadsTo_directory (hq : q.At r) (hid : IsName id) : LeadsTo (q.directory id) (sessionAt r id) := by
  have h := (leadsTo_base hq).join_name hid
  rwa [append_assoc] at h

theorem leadsTo_lockFile (hq : q.At r) (hid : IsName id) : LeadsTo (q.lockFile id) (lockAt r id) := by
  have h := (leadsTo_base hq).join_name (isName_lock hid)
  rwa [append_assoc] at h

theorem leadsTo_within (hp : LeadsTo p (sessionAt r id)) (h : IsName name) :
    LeadsTo (p.join ⟨name⟩) (r ++ [".deadfiles", "quarantine", id, name]) := by
  have h := hp.join_name h
  rwa [sessionAt, append_assoc] at h

theorem leadsTo_files (hq : q.At r) (hid : IsName id) :
    LeadsTo ((q.directory id).join filesDirectory) (filesAt r id) :=
  leadsTo_within (leadsTo_directory hq hid) (by decide)

theorem leadsTo_home (hq : q.At r) (hf : f.From t r) : LeadsTo (q.root.join f.home) (r ++ f.names) :=
  hq.join hf.home

theorem isRelative_filesDirectory : filesDirectory.IsRelative ["files"] := isRelative_of_isName (by decide)

theorem leadsTo_storedIn (hp : LeadsTo p (sessionAt r id))
    (hpath : path.IsRelative m) : LeadsTo (p.join (filesDirectory.join path)) (filesAt r id ++ m) := by
  have h := hp.join (isRelative_filesDirectory.join hpath)
  rw [sessionAt, append_assoc] at h
  rwa [filesAt, append_assoc]

variable (hq : q.At r)
include hq

theorem leadsTo_storedPath (hid : IsName id) (hpath : path.IsRelative m) :
    LeadsTo ((q.directory id).join (filesDirectory.join path)) (filesAt r id ++ m) :=
  leadsTo_storedIn (leadsTo_directory hq hid) hpath

theorem leadsTo_stored (hid : IsName id) (hf : f.From t r) :
    LeadsTo ((q.directory id).join f.stored) (filesAt r id ++ f.names) := by
  rw [hf.stored]
  exact leadsTo_storedPath hq hid hf.home

theorem wantsDirectory_home (hf : f.From t r) :
    wantsDirectory (q.root.join f.home) = wantsDirectory ⟨String.ofList ('/' :: f.home.text.toList)⟩ :=
  wantsDirectory_join hq.text_ne hf.home.relative

theorem wantsDirectory_storedPath (hid : IsName id) (hpath : path.IsRelative m) :
    wantsDirectory ((q.directory id).join (filesDirectory.join path)) =
      wantsDirectory ⟨String.ofList ('/' :: path.text.toList)⟩ := by
  rw [wantsDirectory_join (leadsTo_directory hq hid).text_ne (isRelative_filesDirectory.join hpath).relative]
  rcases toList_join (p := filesDirectory) hpath.relative with ⟨hnil, -⟩ | ⟨-, before, -, hjoin⟩
  · exact absurd hnil (by decide)
  · refine wantsDirectory_of_toList (show _ = ('/' :: before) ++ '/' :: _ from ?_)
    rw [String.toList_ofList, hjoin, cons_append]

theorem wantsDirectory_stored (hid : IsName id) (hf : f.From t r) : wantsDirectory ((q.directory id).join f.stored) =
      wantsDirectory ⟨String.ofList ('/' :: f.home.text.toList)⟩ := by
  rw [hf.stored]
  exact wantsDirectory_storedPath hq hid hf.home

end Leads

def recordMove (q : Quarantine) (id : String) : Path × Path :=
  ((q.directory id).join recordDraft, (q.directory id).join recordFile)

/-! ## Saving -/

section Save

variable {directory : Path} {a : Address}

/-- A record can be kept in a directory: the directory is there, and neither the record nor its draft is
a directory itself. -/
structure KeepsRecord (directory : Path) (a : Address) (t : FileTree) : Prop where
  wf : t.WellFormed
  leads : LeadsTo directory a
  there : t.get? a = some .directory
  record : t.get? (a ++ ["manifest.json"]) ≠ some .directory
  draft : t.get? (a ++ ["manifest.json.tmp"]) ≠ some .directory

namespace KeepsRecord

variable {name : String} (h : KeepsRecord directory a t)
include h

theorem room (hname : IsFileName name) : t.Room (a ++ [name]) := by
  refine ⟨by simp, fun x hx => ?_, by rw [dropLast_concat]; exact h.there⟩
  rcases mem_append.1 hx with hx | hx
  · exact h.wf.isFileName h.there x hx
  · rwa [mem_singleton.1 hx]

theorem leadsTo_draft : LeadsTo (directory.join recordDraft) (a ++ ["manifest.json.tmp"]) :=
  h.leads.join_name (by decide)

theorem leadsTo_record : LeadsTo (directory.join recordFile) (a ++ ["manifest.json"]) :=
  h.leads.join_name (by decide)

theorem wantsDirectory_draft : wantsDirectory (directory.join recordDraft) = false :=
  wantsDirectory_join_name h.leads.text_ne (by decide)

theorem wantsDirectory_record : wantsDirectory (directory.join recordFile) = false :=
  wantsDirectory_join_name h.leads.text_ne (by decide)

theorem writeDraft (contents : Bytes) :
    KeepsRecord directory a (t.put (a ++ ["manifest.json.tmp"]) (.file contents)) := by
  have hroom := h.room (by decide : IsFileName "manifest.json.tmp")
  refine ⟨hroom.put h.wf (.inr h.draft), h.leads, ?_, ?_, ?_⟩
  · rw [get?_put hroom.ne_nil, if_neg (by simp), h.there]
  · rw [get?_put hroom.ne_nil, if_neg (by simp)]
    exact h.record
  · rw [get?_put hroom.ne_nil, if_pos rfl]
    simp

theorem movable_draft {contents : Bytes} (hdraft : t.get? (a ++ ["manifest.json.tmp"]) = some (.file contents)) :
    t.Movable (a ++ ["manifest.json.tmp"]) (a ++ ["manifest.json"]) := by
  have hroom := h.room (by decide : IsFileName "manifest.json")
  refine ⟨by rw [hdraft]; rfl, by simp, fun x hx => ?_, hroom.parent, hroom.names⟩
  cases hrecord : t.get? (a ++ ["manifest.json"]) with
  | none => exact h.wf.get?_append_eq_none hrecord
  | some n =>
    cases n with
    | directory => exact absurd hrecord h.record
    | file contents => exact h.wf.get?_below_file hx hrecord

theorem moveDraft {contents : Bytes} (hdraft : t.get? (a ++ ["manifest.json.tmp"]) = some (.file contents)) :
    t.move (directory.join recordDraft) (directory.join recordFile) =
      .ok (t.transfer (a ++ ["manifest.json.tmp"]) (a ++ ["manifest.json"])) := by
  refine (move_eq_ok_iff h.wf h.leadsTo_draft h.leadsTo_record (by simp)).2
    ⟨h.movable_draft hdraft, ?_, by simp [h.wantsDirectory_draft, h.wantsDirectory_record], rfl⟩
  cases hrecord : t.get? (a ++ ["manifest.json"]) with
  | none => exact .of_none hrecord
  | some n =>
    cases n with
    | directory => exact absurd hrecord h.record
    | file contents' => exact .of_files hdraft hrecord

end KeepsRecord

/-- A draft of a record may have been written in the directory at `a`. -/
structure Drafted (a : Address) (t u : FileTree) : Prop where
  wf : u.WellFormed
  same : SameBut (· = a ++ ["manifest.json.tmp"]) t u
  draft : t.get? (a ++ ["manifest.json.tmp"]) ≠ some .directory → u.get? (a ++ ["manifest.json.tmp"]) ≠ some .directory

/-- A record has been saved in the directory at `a`, and all else is as before. -/
structure Saved (record : SessionRecord) (a : Address) (t u : FileTree) : Prop where
  wf : u.WellFormed
  same : SameBut (fun c => a ++ ["manifest.json.tmp"] <+: c ∨ a ++ ["manifest.json"] <+: c) t u
  draft : u.get? (a ++ ["manifest.json.tmp"]) = none
  record : u.get? (a ++ ["manifest.json"]) = some (.file record.contents)

theorem Drafted.same_prefixes (h : Drafted a t u) :
    SameBut (fun c => a ++ ["manifest.json.tmp"] <+: c ∨ a ++ ["manifest.json"] <+: c) t u :=
  h.same.mono fun _ hc => .inl (hc ▸ prefix_rfl)

/-- **A record is replaced in one step**, and this fails only in a directory that cannot keep it. -/
theorem ensures_save (wf : t.WellFormed) (hd : LeadsTo directory a) (record : SessionRecord) :
    (record.save directory).run.Ensures (fun ms u => ms = moves ∧ Drafted a t u)
      (fun result ms u => match result with
        | .ok _ => ms = moves ++ [(directory.join recordDraft, directory.join recordFile)] ∧ Saved record a t u
        | .error _ => ms = moves ∧ Drafted a t u ∧ ¬ KeepsRecord directory a t) moves t := by
  have hdraft : LeadsTo (directory.join recordDraft) (a ++ ["manifest.json.tmp"]) := hd.join_name (by decide)
  have hrecord : LeadsTo (directory.join recordFile) (a ++ ["manifest.json"]) := hd.join_name (by decide)
  have ht : Drafted a t t := ⟨wf, .refl _ _, id⟩
  refine ensures_run_bind (ensures_ofFiles (ensures_write ⟨rfl, ht⟩ (fun e he => ⟨rfl, ht, fun h => ?_⟩) fun u hu => ?_))
  · rw [(write_eq_ok_iff wf hdraft).2 ⟨h.room (by decide), h.draft, h.wantsDirectory_draft, rfl⟩] at he
    cases he
  obtain ⟨hroom, hdir, -, rfl⟩ := (write_eq_ok_iff wf hdraft).1 hu
  have hget : (t.put (a ++ ["manifest.json.tmp"]) (.file record.contents)).get? (a ++ ["manifest.json.tmp"]) =
      some (.file record.contents) := by
    rw [get?_put hroom.ne_nil, if_pos rfl]
  have hu : Drafted a t (t.put (a ++ ["manifest.json.tmp"]) (.file record.contents)) :=
    ⟨hroom.put wf (.inr hdir), .put hroom.ne_nil, fun _ => by simp [hget]⟩
  refine ensures_ofFiles (ensures_move ⟨rfl, hu⟩ (fun e he => ⟨rfl, hu, fun h => ?_⟩) fun v hv => ?_)
  · rw [(h.writeDraft record.contents).moveDraft hget] at he
    cases he
  · obtain ⟨hmov, -, -, rfl⟩ := (move_eq_ok_iff hu.wf hdraft hrecord (by simp)).1 hv
    exact ⟨rfl, hu.wf.transfer hmov, hu.same_prefixes.trans (.transfer hu.wf hmov),
      get?_transfer_at_source hu.wf hmov, (get?_transfer_at_target hu.wf hmov).trans hget⟩

theorem KeepsRecord.ensures_save (h : KeepsRecord directory a t) (record : SessionRecord) :
    (record.save directory).run.Ends (fun result _ u => result = .ok () ∧ KeepsRecord directory a u ∧
        u.read (directory.join recordFile) = .ok record.contents ∧ Saved record a t u) moves t := by
  refine (Deadwood.ensures_save h.wf h.leads record).mono (fun _ _ _ => trivial) ?_
  rintro (e | _) ms u ⟨-, hu⟩
  · exact absurd h hu.2
  have hbelow (name : String) : ¬ a ++ [name] <+: a := fun hp => absurd hp.length_le (by simp)
  refine ⟨rfl, ⟨hu.wf, h.leads, ?_, by simp [hu.record], by simp [hu.draft]⟩, ?_, hu⟩
  · rw [hu.same.get? _ (not_or.2 ⟨hbelow _, hbelow _⟩), h.there]
  · exact (read_eq_ok_iff hu.wf h.leadsTo_record).2 ⟨hu.record, h.wantsDirectory_record⟩

theorem ensures_save_sameBut (wf : s.WellFormed) (hdirectory : LeadsTo directory (sessionAt r id))
    (record : SessionRecord) : (record.save directory).run.Ends (fun result _ u =>
      u.WellFormed ∧ SameBut (fun c => draftAt r id <+: c ∨ recordAt r id <+: c) s u ∧ u.get? (recordAt r id) =
          if result = .ok () then some (.file record.contents) else s.get? (recordAt r id)) moves s := by
  refine (ensures_save wf hdirectory record).mono (fun _ _ _ => trivial) ?_
  rw [draftAt, recordAt, ← sessionAt_append r id ["manifest.json.tmp"], ← sessionAt_append r id ["manifest.json"]]
  rintro (e | _) ms u ⟨-, hu⟩
  · exact ⟨hu.1.wf, hu.1.same_prefixes, hu.1.same.get? _ (by simp)⟩
  · exact ⟨hu.wf, hu.same, hu.record⟩

end Save

/-! ## The tree of a session -/

/-- An address is not one of those that make up a session: it is outside the store, or among the stored
files. -/
def Aside (r : Address) (id : String) (c : Address) : Prop :=
  ¬ storeAt r <+: c ∨ ∃ x, x ≠ [] ∧ c = filesAt r id ++ x

/-- The tree `s` is that of a session: the session holds the files `held`, `record` is on disk if there is one
yet, and the session is locked `k` times. -/
structure InSession (t : FileTree) (r : Address) (id : String) (record : Option SessionRecord)
    (held : List StoredFile) (k : Nat) (s : FileTree) : Prop where
  kept : Holding t s r id held
  directory : s.get? (sessionAt r id) = some .directory
  files : s.get? (filesAt r id) = some .directory
  record : s.get? (recordAt r id) = record.map fun record => .file record.contents
  draft : s.get? (draftAt r id) ≠ some .directory
  lock : ∃ contents, s.get? (lockAt r id) = some (.file contents)
  locks : s.locks.count (lockAt r id) = k

section Compare

variable {x y : List String}

theorem prefix_place (h : x <+: y) : r ++ x <+: r ++ y := (prefix_append_right_inj r).2 h

theorem not_prefix_place (h : ¬ x <+: y) : ¬ r ++ x <+: r ++ y := mt (prefix_append_right_inj r).1 h

theorem not_prefix_files (h : ¬ [".deadfiles", "quarantine", id, "files"] <+: x) :
    ¬ filesAt r id ++ m <+: r ++ x := fun hp =>
  not_prefix_place h ((prefix_append _ m).trans hp)

end Compare

namespace InSession

variable {held' : List StoredFile} {k' : Nat}

theorem not_aside {x : List String} (h : ∀ y, y ≠ [] → x ≠ "quarantine" :: id :: "files" :: y) :
    ¬ Aside r id (r ++ ".deadfiles" :: x) := by
  rintro (hstore | ⟨y, hy, heq⟩)
  · exact hstore ⟨x, by rw [storeAt, append_assoc]; rfl⟩
  · rw [filesAt, append_assoc, append_cancel_left_eq] at heq
    exact h y hy (tail_eq_of_cons_eq heq)

theorem get?_of_aside (h : ∀ c, u.get? c = s.get? c ∨ Aside r id c) {x : List String}
    (hx : ∀ y, y ≠ [] → x ≠ "quarantine" :: id :: "files" :: y) :
    u.get? (r ++ ".deadfiles" :: x) = s.get? (r ++ ".deadfiles" :: x) :=
  (h _).resolve_right (not_aside hx)

theorem not_aside_lock : ¬ Aside r id (lockAt r id) := not_aside (by simp)

theorem congr (h : InSession t r id record held k s) (hkept : Holding t u r id held')
    (hsame : ∀ c, u.get? c = s.get? c ∨ Aside r id c) (hlocks : u.locks.count (lockAt r id) = k') :
    InSession t r id record held' k' u := by
  have hget {x : List String} := get?_of_aside hsame (x := x)
  refine ⟨hkept, ?_, ?_, ?_, ?_, ?_, hlocks⟩
  · exact (hget (by simp)).trans h.directory
  · exact (hget (by simp [eq_comm])).trans h.files
  · exact (hget (by simp)).trans h.record
  · exact (hget (x := ["quarantine", id, "manifest.json.tmp"]) (by simp)) ▸ h.draft
  · obtain ⟨contents, hlock⟩ := h.lock
    exact ⟨contents, (hget (by simp)).trans hlock⟩

/-! ## Writing the record -/

theorem room_within (wf : s.WellFormed) (hdir : s.get? (sessionAt r id) = some .directory) {name : String}
    (hname : IsFileName name) : s.Room (r ++ [".deadfiles", "quarantine", id, name]) := by
  have hsplit : r ++ [".deadfiles", "quarantine", id, name] = sessionAt r id ++ [name] := by
    rw [sessionAt, append_assoc]
    rfl
  rw [hsplit]
  exact ⟨by simp, forall_mem_append.2 ⟨wf.isFileName hdir, forall_mem_singleton.2 hname⟩, by rwa [dropLast_concat]⟩

/-- A record, or a draft of one, is written in a session. -/
theorem resave {record' : Option SessionRecord} (h : InSession t r id record held k s) (wf : u.WellFormed)
    (hsame : SameBut (fun c => draftAt r id <+: c ∨ recordAt r id <+: c) s u)
    (hrecord : u.get? (recordAt r id) = record'.map fun record => .file record.contents)
    (hdraft : u.get? (draftAt r id) ≠ some .directory) : InSession t r id record' held k u := by
  have hget {x : List String} (hx : ¬ [".deadfiles", "quarantine", id, "manifest.json.tmp"] <+: x)
      (hx' : ¬ [".deadfiles", "quarantine", id, "manifest.json"] <+: x) :
      ¬ (draftAt r id <+: r ++ x ∨ recordAt r id <+: r ++ x) :=
    not_or.2 ⟨not_prefix_place hx, not_prefix_place hx'⟩
  have hkept := h.kept.congr wf fun c => by
    refine (hsame.get?_or c).imp_right fun hc => ⟨?_, fun f _ => ?_⟩
    · exact hc.elim (prefix_place (by simp)).trans (prefix_place (by simp)).trans
    · rcases hc with ⟨x, rfl⟩ | ⟨x, rfl⟩
      · rw [draftAt, append_assoc]
        exact not_prefix_files (by simp)
      · rw [recordAt, append_assoc]
        exact not_prefix_files (by simp)
  obtain ⟨c, hc⟩ := h.lock
  refine ⟨hkept, ?_, ?_, hrecord, hdraft, ⟨c, ?_⟩, ?_⟩
  · exact (hsame.get? _ (hget (by simp) (by simp))).trans h.directory
  · exact (hsame.get? _ (hget (by simp) (by simp))).trans h.files
  · exact (hsame.get? _ (hget (by simp) (by simp))).trans hc
  · exact (hsame.locks _ (hget (by simp) (by simp))).trans h.locks

theorem keepsRecord (h : InSession t r id record held k s) (hq : q.At r) (hid : IsName id) :
    KeepsRecord (q.directory id) (sessionAt r id) s := by
  refine ⟨h.kept.wf, leadsTo_directory hq hid, h.directory, ?_, ?_⟩
  · rw [sessionAt_append]
    change s.get? (recordAt r id) ≠ _
    rw [h.record]
    cases record <;> simp
  · rw [sessionAt_append]
    exact h.draft

/-- **A record is replaced in one step**, and can always be. -/
theorem ensures_save (h : InSession t r id record held k s) (hq : q.At r) (hid : IsName id)
    (record' : SessionRecord) : (record'.save (q.directory id)).run.Ensures
      (fun ms u => ms = moves ∧ InSession t r id record held k u)
      (fun result ms u => result = .ok () ∧ ms = moves ++ [recordMove q id] ∧
        InSession t r id (some record') held k u) moves s := by
  refine (Deadwood.ensures_save h.kept.wf (leadsTo_directory hq hid) record').mono ?_ ?_
  · rintro ms u ⟨rfl, hu⟩
    have hsame := hu.same_prefixes
    have hdraft := hu.draft
    have hrest := hu.same.get? (sessionAt r id ++ ["manifest.json"]) (by simp)
    simp only [sessionAt_append] at hsame hdraft hrest
    exact ⟨rfl, h.resave hu.wf hsame (hrest.trans h.record) (hdraft h.draft)⟩
  · rintro (e | _) ms u ⟨rfl, hu⟩
    · exact absurd (h.keepsRecord hq hid) hu.2
    obtain ⟨hwf, hsame, hdraft, hrecord⟩ := hu
    simp only [sessionAt_append] at hsame hdraft hrecord
    exact ⟨rfl, rfl, h.resave hwf hsame hrecord (hdraft ▸ nofun)⟩

end InSession

/-! ## Moving and pruning -/

theorem ensures_moveFile {I : Invariant} {moves : List (Path × Path)}
    {p p' : Path} {a b : Address} {Q : Post (Except FileError Unit)}
    (wf : s.WellFormed) (hp : LeadsTo p a) (hp' : LeadsTo p' b) (hab : a ≠ b) (hI : I moves s)
    (herror : ∀ e, s.move p p' = .error e → Q (.error e) moves s)
    (hok : ∀ u, s.move p p' = .ok u → Q (.ok ()) (moves ++ [(p, p')]) u) :
    (moveFile p p').Ensures I Q moves s := by
  refine ensures_bind.2 (ensures_move hI (fun e he => ?_) fun u hu => ?_)
  · obtain ⟨e', he'⟩ := copy_eq_error wf hp hp' hab he
    refine ensures_bind.2 (ensures_copy hI (fun _ _ => ensures_pure.2 (herror e he)) fun size u hu => ?_)
    rw [he'] at hu
    cases hu
  · exact ensures_pure.2 (hok u hu)

/-- Removing empty directories keeps what removing one of them keeps. -/
theorem ensures_removeEmptyBelow {P : FileTree → Prop} {n : List String} {fuel : Nat} {p : Path}
    (hwf : ∀ s, P s → s.WellFormed) (hstep : ∀ s x, P s → IsOutside x → x <+: n →
      s.get? (r ++ x) = some .directory → (∀ name, s.get? (r ++ x ++ [name]) = none) → P (s.erase (r ++ x)))
    (hs : P s) (hq : q.At r) (hn : IsOutside n) (hp : LeadsTo p (r ++ m)) (hmn : m <+: n) :
    (removeEmptyBelow q.root fuel (some p)).Ensures (fun ms u => ms = moves ∧ P u)
      (fun _ ms u => ms = moves ∧ P u) moves s := by
  induction fuel generalizing s p m with
  | zero => exact ensures_pure.2 ⟨rfl, hs⟩
  | succ fuel ih =>
    rw [removeEmptyBelow]
    split
    · exact ensures_pure.2 ⟨rfl, hs⟩
    · rename_i hgo
      rw [Bool.or_eq_true, not_or, hp.beq_iff hq] at hgo
      have hm : m ≠ [] := fun hnil => hgo.1 (by rw [hnil, append_nil])
      refine ensures_bind.2 (ensures_removeDirectory ⟨rfl, hs⟩ (fun _ _ => ensures_pure.2 ⟨rfl, hs⟩) fun u hu => ?_)
      obtain ⟨hdir, hempty, rfl⟩ := (removeDirectory_eq_ok_iff (hwf s hs) hp).1 hu
      obtain ⟨above, habove, hlead⟩ := hp.parent_below hm
      rw [habove]
      exact ih (hstep s m hs (hn.of_prefix hmn hm) hmn hdir hempty) hlead ((List.dropLast_prefix m).trans hmn)

theorem FileTree.AddsDirectories.new_below {u : FileTree} {r : Address} {m : List String}
    (hadd : AddsDirectories (filesAt r id ++ m).dropLast s u) (wf : s.WellFormed)
    (hfiles : s.get? (filesAt r id) = some .directory) (c : Address) : u.get? c = s.get? c ∨
      u.get? c = some .directory ∧ ∃ x, x ≠ [] ∧ c = filesAt r id ++ x ∧ x <+: m ∧ x ≠ m := by
  by_cases hc : c <+: (filesAt r id ++ m).dropLast
  · rcases hadd.made c with hsame | ⟨hnone, hdir⟩
    · exact .inl hsame
    · have hcm : c <+: filesAt r id ++ m := hc.trans (List.dropLast_prefix _)
      rcases prefix_or_prefix_of_prefix hcm (prefix_append (filesAt r id) m) with hup | ⟨x, rfl⟩
      · have hgone := wf.get?_eq_none_of_isPrefix hup hnone
        rw [hfiles] at hgone
        cases hgone
      · refine .inr ⟨hdir, x, fun hx => ?_, rfl, (prefix_append_right_inj _).1 hcm, ?_⟩
        · rw [hx, append_nil, hfiles] at hnone
          cases hnone
        · rintro rfl
          have hlen := hc.length_le
          rw [length_dropLast, length_append, filesAt, length_append, length_cons] at hlen
          omega
  · exact .inl (hadd.same.get? c hc)

namespace InSession

section

variable (h : InSession t r id record held k s)
include h

theorem prune (hm : IsOutside m) (hf : f ∈ held) (hmf : m <+: f.names)
    (hdir : s.get? (r ++ m) = some .directory) (hempty : ∀ name, s.get? (r ++ m ++ [name]) = none)
    : InSession t r id record held k (s.erase (r ++ m)) := by
  have hne : r ++ m ≠ [] := by simp [hm.1]
  have hsame := SameBut.erase (t := s) hne
  have hstore {c : Address} (hc : r ++ m <+: c) : Aside r id c := .inl (hm.not_storeAt_prefix_of_prefix hc)
  refine h.congr (h.kept.prune rfl hm hdir hempty hf (prefix_place hmf))
    (fun c => (hsame.get?_or c).imp_right hstore) ?_
  rw [hsame.locks _ fun hc => not_aside_lock (hstore hc), h.locks]

theorem addDirectories (hadd : AddsDirectories (filesAt r id ++ m).dropLast s u) (hm : (s.get? (r ++ m)).isSome) :
    InSession t r id record held k u := by
  have hnew := hadd.new_below h.kept.wf h.files
  refine h.congr (h.kept.congr hadd.wf fun c => ?_) (fun c => ?_) ?_
  · refine (hnew c).imp_right ?_
    rintro ⟨-, x, -, rfl, hxm, hne⟩
    refine ⟨store_prefix_files x, fun g hg hp => ?_⟩
    have hgx : g.names <+: x := (prefix_append_right_inj _).1 hp
    cases he : g.edited with
    | false => exact h.kept.not_prefix_of_isSome hg he hm (hgx.trans hxm)
    | true =>
      obtain ⟨-, new, -, -, hhome, -⟩ := h.kept.edited g hg he
      obtain ⟨y, rfl⟩ := hgx.trans hxm
      have hy : y ≠ [] := by
        rintro rfl
        rw [append_nil] at hxm hne
        exact hne (hxm.eq_of_length_le hgx.length_le)
      rw [← append_assoc, h.kept.wf.get?_below_file hy hhome] at hm
      cases hm
  · refine (hnew c).imp_right ?_
    rintro ⟨-, x, hx, rfl, -⟩
    exact .inr ⟨x, hx, rfl⟩
  · rw [hadd.same.locks, h.locks]
    intro hc
    have hc := hc.trans (List.dropLast_prefix _)
    rw [lockAt, filesAt, append_assoc, prefix_append_right_inj] at hc
    simp at hc

end

theorem aside_of_isPrefix (hm : IsOutside m) {c : Address}
    (hc : r ++ m <+: c ∨ filesAt r id ++ m <+: c) : Aside r id c := by
  rcases hc with hc | ⟨x, rfl⟩
  · exact .inl (hm.not_storeAt_prefix_of_prefix hc)
  · exact .inr ⟨m ++ x, by simp [hm.1], by rw [append_assoc]⟩

theorem take (h : InSession t r id record held k s) (hall : ∀ g ∈ held, g.edited = false) (hf : f.From t r)
    (he : f.edited = false) (hmov : s.Movable (r ++ f.names) (filesAt r id ++ f.names)) :
    InSession t r id record (held ++ [f]) k (s.transfer (r ++ f.names) (filesAt r id ++ f.names)) := by
  have hsame := SameBut.transfer h.kept.wf hmov
  refine h.congr (h.kept.take hall hf he hmov)
    (fun c => (hsame.get?_or c).imp_right (aside_of_isPrefix hf.outside)) ?_
  rw [hsame.locks _ fun hc => not_aside_lock (aside_of_isPrefix hf.outside hc), h.locks]

end InSession

/-! ## Moving files into a session -/

/-- A record is that of a session opened at a moment on a tree, and its numbers are right. -/
structure SessionRecord.Fits (record : SessionRecord) (t : FileTree) (r : Address) (id : String) (now : Moment) :
    Prop where
  id : record.id = id
  createdAt : record.createdAt = now
  status : record.status = .active
  sizes : ∀ f ∈ record.files, ∀ n, t.get? (r ++ f.names) = some n → f.size = n.size
  fileCount : record.fileCount = record.removedFiles.length
  totalSize : record.totalSize = (record.removedFiles.map (·.size)).sum

theorem SessionRecord.files_add (record : SessionRecord) (f : StoredFile) :
    (record.add f).files = record.files ++ [f] := by
  unfold SessionRecord.add
  split <;> rfl

theorem SessionRecord.Fits.add {record : SessionRecord} {t : FileTree} {r : Address} {now : Moment} {f : StoredFile}
    (h : record.Fits t r id now) (hf : ∀ n, t.get? (r ++ f.names) = some n → f.size = n.size)
    : (record.add f).Fits t r id now := by
  have hsizes : ∀ g ∈ record.files ++ [f], ∀ n, t.get? (r ++ g.names) = some n → g.size = n.size :=
    forall_mem_append.2 ⟨h.sizes, forall_mem_singleton.2 hf⟩
  unfold SessionRecord.add
  cases he : f.edited <;> refine ⟨h.id, h.createdAt, h.status, hsizes, ?_, ?_⟩ <;>
    simp [h.fileCount, h.totalSize, removedFiles, he]

/-- The file that was moved last but is not in the record yet: none after the record was replaced, and
one after the file was moved. -/
def Pending (q : Quarantine) (id : String) (moves : List (Path × Path)) (pending : List StoredFile) : Prop :=
  (pending = [] ∧ moves.getLast? = some (recordMove q id)) ∨
    ∃ f p, pending = [f] ∧ moves.getLast? = some (q.root.join f.home, p)

/-- A session may be stopped here: what it holds is recorded, but for a file that was moved last. -/
def Stoppable (t : FileTree) (q : Quarantine) (r : Address) (id : String) (now : Moment)
    (moves : List (Path × Path)) (s : FileTree) : Prop :=
  ∃ record pending, InSession t r id (some record) (record.files ++ pending) 1 s ∧ record.Fits t r id now ∧
    (∀ f ∈ record.files, f.edited = false) ∧ Pending q id moves pending

/-- A session is open and all that it holds is recorded. -/
structure Recorded (t : FileTree) (q : Quarantine) (r : Address) (id : String) (now : Moment)
    (session : OpenSession) (moves : List (Path × Path)) (s : FileTree) : Prop where
  quarantine : session.quarantine = q
  tree : InSession t r id (some session.record) session.record.files 1 s
  fits : session.record.Fits t r id now
  unedited : ∀ f ∈ session.record.files, f.edited = false
  backedUp : session.backedUp = []
  last : moves.getLast? = some (recordMove q id)

section MoveIn

variable {now : Moment} {session : OpenSession}

theorem Recorded.stoppable (h : Recorded t q r id now session moves s) : Stoppable t q r id now moves s :=
  ⟨session.record, [], by rw [append_nil]; exact h.tree, h.fits, h.unedited, .inl ⟨rfl, h.last⟩⟩

theorem Recorded.directory (h : Recorded t q r id now session moves s) : session.directory = q.directory id := by
  rw [OpenSession.directory, h.quarantine, h.fits.id]

theorem OpenSession.relative_eq (hroot : session.quarantine.At r) (hpath : path.IsRelative m) :
    session.relative path = path := by
  have hno : Component.root ∉ path.components := by
    rw [components_eq, start, hpath.relative, hpath.named]
    intro hmem
    rcases mem_append.1 hmem with hmem | hmem
    · revert hmem
      cases path.startsHere <;> simp
    · simp at hmem
  have hbelow : path.startsWith session.quarantine.root = false := by
    rw [← Bool.not_eq_true, Path.startsWith, afterComponents?_isSome_iff, hroot.components]
    exact fun hp => hno (hp.subset mem_cons_self)
  rw [relative, Path.below?, hbelow]
  rfl

theorem ensures_recordTaken {f : StoredFile} {p : Path} {fuel : Nat} (hsq : session.quarantine = q)
    (hq : q.At r) (hid : IsName id)
    (h : InSession t r id (some session.record) (session.record.files ++ [f]) 1 s)
    (hfits : session.record.Fits t r id now) (hall : ∀ g ∈ session.record.files, g.edited = false)
    (hnone : session.backedUp = []) (he : f.edited = false)
    (hsize : ∀ n, t.get? (r ++ f.names) = some n → f.size = n.size)
    (hlast : moves.getLast? = some (q.root.join f.home, p)) :
    (session.fill (add f >>= fun _ =>
      lift (monadLift (removeEmptyBelow q.root fuel (q.root.join f.home).parent?)))).Ensures
      (Stoppable t q r id now) (fun result => Recorded t q r id now result.2) moves s := by
  have hfiles := session.record.files_add f
  have hsteady {ms : List (Path × Path)} {u : FileTree} (hms : ms.getLast? = some (recordMove q id))
      (hu : InSession t r id (some (session.record.add f)) (session.record.files ++ [f]) 1 u) :
      Recorded t q r id now { session with record := session.record.add f } ms u := by
    refine ⟨hsq, by rwa [hfiles], hfits.add hsize, ?_, hnone, hms⟩
    rw [hfiles]
    exact forall_mem_append.2 ⟨hall, forall_mem_singleton.2 he⟩
  have hdir : session.directory = q.directory id := by rw [directory, hsq, hfits.id]
  refine ensures_fill_bind (ensures_add ?_)
  rw [hdir]
  refine (h.ensures_save hq hid (session.record.add f)).mono ?_ ?_
  · rintro _ u ⟨rfl, hu⟩
    exact ⟨session.record, [f], hu, hfits, hall, .inr ⟨f, p, rfl, hlast⟩⟩
  · rintro result ms u ⟨rfl, rfl, hu⟩
    have hf : f ∈ session.record.files ++ [f] := by simp
    have hhome := leadsTo_home hq (hu.kept.origin f hf)
    obtain ⟨above, habove, hlead⟩ := hhome.parent_below (hu.kept.origin f hf).outside.1
    rw [habove]
    refine ensures_fill_lift ?_
    refine (ensures_removeEmptyBelow (P := InSession t r id (some (session.record.add f)) (session.record.files ++ [f]) 1)
      (fun _ h => h.kept.wf) (fun _ _ h hm => h.prune hm hf) hu hq (hu.kept.origin f hf).outside hlead
      (List.dropLast_prefix f.names)).bind ?_ ?_
    · rintro _ v ⟨rfl, hv⟩
      exact (hsteady getLast?_concat hv).stoppable
    · rintro - _ v ⟨rfl, hv⟩
      exact ensures_pure.2 (hsteady getLast?_concat hv)

theorem FileTree.Movable.isOutside (h : Movable s (r ++ m) (filesAt r id ++ m)) (hm : m = [] ∨ IsOutside m) :
    IsOutside m := by
  refine hm.resolve_left fun hnil => h.apart ?_
  rw [hnil, append_nil, filesAt, append_nil]
  exact prefix_append _ _

/-- **A file is moved into a session:** whenever this is stopped, only a file that was moved last is not
recorded. -/
theorem Recorded.moveIn (h : Recorded t q r id now session moves s) (hq : q.At r) (hid : IsName id)
    (hpath : path.IsRelative m) (hm : m = [] ∨ IsOutside m) :
    (session.fill (moveIn path)).Ensures (Stoppable t q r id now)
      (fun result => Recorded t q r id now result.2) moves s := by
  have hrel : session.relative path = path := relative_eq (h.quarantine ▸ hq) hpath
  have hdir := h.directory
  have wf := h.tree.kept.wf
  refine ensures_get_bind ?_
  simp only [hrel, h.quarantine, hdir]
  have hhome : LeadsTo (q.root.join path) (r ++ m) := hq.join hpath
  refine ensures_files_bind (ensures_status h.stoppable ?_)
  cases hfind : s.find (q.root.join path) with
  | error e => exact h
  | ok x =>
    have hn : s.get? (r ++ m) = some x.2 := ((find_eq_ok_iff wf hhome).1 hfind).2.1
    have hstored := leadsTo_storedPath hq hid hpath
    have hadded {u : FileTree} (hu : AddsDirectories (filesAt r id ++ m).dropLast s u) :
        Recorded t q r id now session moves u :=
      ⟨h.quarantine, h.tree.addDirectories hu (by rw [hn]; rfl), h.fits, h.unedited, h.backedUp, h.last⟩
    refine ensures_files_bind ((ensures_makeDirectoriesAbove wf hstored (by simp [filesAt])).mono ?_ ?_)
    · rintro _ u ⟨rfl, hu⟩
      exact (hadded hu).stoppable
    · rintro result _ u ⟨rfl, hu, -⟩
      have h' := hadded hu
      cases result with
      | error e => exact h'
      | ok _ =>
        have hne : r ++ m ≠ filesAt r id ++ m := ne_filesAt m
        refine ensures_files_bind (ensures_moveFile h'.tree.kept.wf hhome hstored hne h'.stoppable
          (fun e _ => h') fun v hv => ?_)
        obtain ⟨hmov, -, hwants, rfl⟩ := (move_eq_ok_iff h'.tree.kept.wf hhome hstored hne).1 hv
        have hout : IsOutside m := hmov.isOutside hm
        -- the file as it was in the tree before the session
        have hthere : t.get? (r ++ m) = some x.2 := by
          have := h'.tree.kept.get?_of_apart hout (h'.tree.kept.apart_of_movable h.unedited hmov) []
          rw [append_nil] at this
          rw [← this, hu.of_some hn]
        let f : StoredFile := { home := path, stored := filesDirectory.join path, size := x.2.size }
        have hnames : f.names = m := hpath.names_eq
        have hf : f.From t r := by
          refine ⟨hnames ▸ hpath, rfl, hnames ▸ hout, by rw [hnames, hthere]; rfl, fun hw => ?_⟩
          have := hwants (.inl ((wantsDirectory_join hq.text_ne hpath.relative).trans hw))
          rw [hu.of_some hn] at this
          rw [hnames, hthere, this]
        have htaken : InSession t r id (some session.record) (session.record.files ++ [f]) 1 _ :=
          h'.tree.take h.unedited hf rfl (hnames ▸ hmov)
        rw [hnames] at htaken
        refine ensures_recordTaken h.quarantine hq hid htaken h.fits h.unedited h.backedUp rfl ?_ getLast?_concat
        intro n hn'
        rw [hnames, hthere] at hn'
        cases hn'
        rfl

end MoveIn

end Deadwood
