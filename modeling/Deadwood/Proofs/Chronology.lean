import Deadwood.Proofs.Exclusion
import Deadwood.Proofs.Lifecycle
import Deadwood.Proofs.StampOrder

/-!
# The order of sessions

Sessions are opened and deleted while the clock does not go back, and those that are left are listed.

* `Timeline.Sound`, `Timeline.Numbered`, **`Timeline.Sound.step`**: what every call keeps;
* **`sessions_chronology`**: sessions are listed in the order of opening, to the millisecond.
-/

namespace Deadwood

open List FileTree FileTask Deadwood.Path Quarantine

/-! ## Listing -/

variable {q : Quarantine} {r : Address} {held : List String} {s : FileTree} {P : Timeline → Moment → Prop}
  {c c' : Timeline} {now : Moment}

section Listing

theorem list_base (wf : s.WellFormed) (hq : q.At r) (hroot : s.get? r = some .directory)
    (hclear : Unblocked r s) : s.list q.base = .ok (s.children (r ++ [".deadfiles", "quarantine"])) ∨
      s.list q.base = .error .missing ∧ s.children (r ++ [".deadfiles", "quarantine"]) = [] := by
  have hlead := leadsTo_base hq
  cases hbase : s.get? (r ++ [".deadfiles", "quarantine"]) with
  | some n =>
    cases n with
    | file contents => exact absurd hbase (hclear _ prefix_rfl contents)
    | directory =>
      refine .inl ?_
      rw [FileTree.list, exists_find wf hlead hbase fun _ => rfl]
      rfl
  | none =>
    refine .inr ⟨?_, ?_⟩
    · have hnames : ∀ name ∈ r ++ [".deadfiles", "quarantine"], IsFileName name := by
        intro name hname
        rcases mem_append.1 hname with hname | hname
        · exact wf.isFileName hroot name hname
        · simp only [mem_cons, not_mem_nil, or_false] at hname
          rcases hname with rfl | rfl <;> decide
      have hfree (y z : Address) (hyz : r ++ [".deadfiles", "quarantine"] = y ++ z) (_ : z ≠ []) :
          s.get? y = none ∨ s.get? y = some .directory := by
        cases hy : s.get? y with
        | none => exact .inl rfl
        | some n =>
          cases n with
          | file contents => exact absurd hy (hclear y ⟨z, hyz.symm⟩ contents)
          | directory => exact .inr rfl
      have hfind : s.find q.base = .error .missing := by
        cases hb : s.address q.base with
        | error e =>
          rw [address_eq_error hlead hnames hfree hb] at hb
          rw [FileTree.find, hb]
          rfl
        | ok b =>
          obtain ⟨rfl, -⟩ := (address_eq_ok_iff wf hlead).1 hb
          simp only [FileTree.find, hb, Bind.bind, Except.bind, hbase]
      rw [FileTree.list, hfind]
      rfl
    · rw [← List.isEmpty_iff, children_isEmpty_iff wf]
      exact fun name => wf.get?_append_eq_none hbase

theorem answer_recordOf? (wf : s.WellFormed) (hq : q.At r) {name : String} (hname : IsName name) :
    answer s (recordOf? (q.directory name)) = q.recordIn s name := by
  rw [recordOf?, (reading_isDirectory _).answer_bind]
  by_cases hdir : s.get? (sessionAt r name) = some .directory
  · have hthere : answer s (isDirectory (q.directory name)) = true := by
      rw [isDirectory, (reading_status _).answer_bind, answer_status,
        exists_find wf (leadsTo_directory hq hname) hdir fun _ => rfl]
      rfl
    rw [hthere, if_pos rfl, (reading_loadRecord _).answer_bind, answer_pure, recordIn]
  · have hmissing : answer s (isDirectory (q.directory name)) = false := by
      rw [isDirectory, (reading_status _).answer_bind, answer_status]
      cases hfind : s.find (q.directory name) with
      | error e => rfl
      | ok x =>
        obtain ⟨-, hx, -⟩ := (find_eq_ok_iff wf (leadsTo_directory hq hname)).1 hfind
        cases hnode : x.2 with
        | file contents => simp [Except.map, hnode, Node.isDirectory, answer_pure]
        | directory => exact absurd (hnode ▸ hx) hdir
    rw [hmissing, recordIn_of_missing wf hq hname hdir, if_neg (by decide), answer_pure]

/-- **The sessions are the records of the store, in the order of their names.** -/
theorem run_sessions (wf : s.WellFormed) (hq : q.At r) (hroot : s.get? r = some .directory)
    (hclear : Unblocked r s) : q.sessions.run.run s =
      (.ok (((s.children (r ++ [".deadfiles", "quarantine"])).filterMap (q.recordIn s)).mergeSort
        fun a b => decide (a.id ≤ b.id)), s) := by
  refine Prod.ext ?_ (reading_sessions q s)
  rw [sessions, run_run_bind, run_monadLift, reading_list]
  dsimp only
  have hlist : ((FileTask.list q.base).run s).1 = s.list q.base := rfl
  rcases list_base wf hq hroot hclear with hnames | ⟨hmissing, hnone⟩
  · have hrecords : answer s ((s.children (r ++ [".deadfiles", "quarantine"])).mapM fun name =>
        recordOf? (q.base.join ⟨name⟩)) = (s.children (r ++ [".deadfiles", "quarantine"])).map (q.recordIn s) := by
      rw [answer_mapM fun name => reading_recordOf? _]
      refine map_congr_left fun name hname => ?_
      obtain ⟨n, hn⟩ := Option.isSome_iff_exists.1 ((mem_children wf).1 hname)
      exact answer_recordOf? wf hq (wf.isFileName hn name (by simp)).1
    rw [hlist, hnames]
    dsimp only
    rw [run_run_bind, run_monadLift]
    change Except.ok ((List.filterMap id (answer s _)).mergeSort _) = _
    rw [hrecords, filterMap_map, Function.id_comp]
  · rw [hlist, hmissing, hnone, filterMap_nil, mergeSort_nil]
    rfl

theorem pairwise_byName (records : List SessionRecord) :
    (records.mergeSort fun a b => decide (a.id ≤ b.id)).Pairwise fun a b => a.id ≤ b.id := by
  refine (pairwise_mergeSort (fun a b c hab hbc => ?_) (fun a b => ?_) records).imp of_decide_eq_true
  · exact decide_eq_true (le_trans (of_decide_eq_true hab) (of_decide_eq_true hbc))
  · simpa using le_total a.id b.id

end Listing

/-! ## Calls on a store -/

structure Timeline where
  tree : FileTree
  held : List String := []
  sessions : List SessionRecord := []
  /-- What the clock has shown, the last reading first. -/
  readings : List Moment := []
  deleted : List String := []

inductive StoreCall where
  | opens (now : Moment)
  | setsAside (now : Moment) (paths : List Path)
  | finishes (name : String)
  | purges (id : String)

def StoreCall.moment? : StoreCall → Option Moment
  | opens now | setsAside now _ => some now
  | finishes _ | purges _ => none

namespace Timeline

def opening (c : Timeline) (now : Moment) (held : List String) (tree : FileTree) (record : Option SessionRecord) :
    Timeline :=
  { tree, held, sessions := c.sessions ++ record.toList, readings := now :: c.readings, deleted := c.deleted }

def deleting (c : Timeline) (id : String) (tree : FileTree) : Bool → Timeline
  | true =>
    { c with
      tree
      sessions := c.sessions.filter fun record => ¬ Denotes id record.id
      deleted := id :: c.deleted }
  | false => { c with tree }

def after (q : Quarantine) (c : Timeline) : StoreCall → Timeline
  | .opens now =>
    let (result, tree) := (q.openSession now).run.run c.tree
    let record := result.toOption.map (·.record)
    c.opening now ((record.map (·.id)).toList ++ c.held) tree record
  | .setsAside now paths =>
    let (result, tree) := (q.setAside now paths).run.run c.tree
    c.opening now c.held tree (result.toOption.map (·.1))
  | .finishes name =>
    if name ∈ c.held then { c with tree := c.tree.unlock (q.lockFile name), held := c.held.erase name } else c
  | .purges id =>
    let (result, tree) := (q.purge id).run.run c.tree
    c.deleting id tree result.isOk

/-- The clock may show a moment: it has not shown a later one. -/
structure Shows (c : Timeline) (now : Moment) : Prop where
  plain : now.IsPlain
  latest : ∀ m ∈ c.readings, m.ticks ≤ now.ticks

end Timeline

/-- Sessions are opened when the clock shows it. Files are set aside that are not in the store, from a project whose
size can be written down. -/
def StoreCall.Allowed (c : Timeline) : StoreCall → Prop
  | opens now => c.Shows now
  | setsAside now paths =>
    c.Shows now ∧ c.tree.weight < 2 ^ 64 ∧ ∀ p ∈ paths, ∃ m, p.IsRelative m ∧ (m = [] ∨ IsOutside m)
  | finishes _ | purges _ => True

namespace Timeline

/-- A call leads from one state to the next, where sessions are opened under the condition `P`. -/
def Step (q : Quarantine) (P : Timeline → Moment → Prop) (c c' : Timeline) : Prop :=
  ∃ call : StoreCall, call.Allowed c ∧ (∀ now, call.moment? = some now → P c now) ∧ c.after q call = c'

/-- What a call may change. -/
inductive Change (r : Address) (P : Timeline → Moment → Prop) (c : Timeline) : Timeline → Prop where
  | created {now : Moment} {held : List String} {tree : FileTree} {record : SessionRecord} (hnow : c.Shows now)
      (hP : P c now) (horder : Orderly r held tree) (h : Created r now c.tree record tree) :
      Change r P c (c.opening now held tree (some record))
  | givenUp {now : Moment} {held : List String} {tree : FileTree} (hnow : c.Shows now) (hP : P c now)
      (horder : Orderly r held tree) (h : GivenUp r now.stamp c.tree tree) :
      Change r P c (c.opening now held tree none)
  | idle {held : List String} {tree : FileTree} (horder : Orderly r held tree)
      (hsession : ∀ n, '.' ∉ n.toList → tree.get? (sessionAt r n) = c.tree.get? (sessionAt r n))
      (hrecord : ∀ n, '.' ∉ n.toList → tree.get? (recordAt r n) = c.tree.get? (recordAt r n))
      (hclear : Unblocked r c.tree → Unblocked r tree) : Change r P c { c with tree, held }
  | purged {id : String} {tree : FileTree} (horder : Orderly r c.held tree)
      (hgone : ∀ n, Denotes id n → tree.get? (sessionAt r n) = none)
      (hothers : ∀ n, ¬ Denotes id n → '.' ∉ n.toList → ∀ x,
        tree.get? (sessionAt r n ++ x) = c.tree.get? (sessionAt r n ++ x))
      (hclear : Unblocked r c.tree → Unblocked r tree) :
      Change r P c (c.deleting id tree true)

section Changes

variable {a b : Address} {name : String}

theorem created_of_opened {held : List String} {t u : FileTree} {session : OpenSession} {moves : List (Path × Path)}
    (h : Opened q r now held s session u) (hnow : now.IsValid) (hid : IsName session.record.id)
    (hrecorded : Recorded t q r session.record.id now session moves u) : Created r now s session.record u := by
  have htidy : session.record.IsTidy := by
    rw [h.record]
    exact SessionRecord.isTidy_new hnow
  exact ⟨hid, hrecorded.fits.status, hrecorded.fits.createdAt, h.free, h.first,
    ⟨_, hrecorded.tree.record, SessionRecord.ofContents?_contents htidy.writable⟩, h.spares⟩

section

variable (horder : Orderly r c.held c.tree) (hq : q.At r)
include horder hq

theorem change_opens (hnow : c.Shows now) (hP : P c now) : Change r P c (c.after q (.opens now)) := by
  have hdone : (q.openSession now).run.Ensures _ _ [] c.tree :=
    (Deadwood.ensures_openSession horder.wf hq horder.root).and (horder.ensures_openSession hq hnow.plain.toIsValid)
  obtain ⟨_, hrecorded, hopened⟩ := hdone.result
  rw [after]
  generalize (q.openSession now).run.run c.tree = outcome at hrecorded hopened
  obtain ⟨result, tree⟩ := outcome
  cases result with
  | error e => exact .givenUp hnow hP hopened.1 hopened.2
  | ok session =>
    exact .created hnow hP hopened.order (created_of_opened hopened hnow.plain.toIsValid hrecorded.1 hrecorded.2)

theorem change_setsAside {paths : List Path} (h : (StoreCall.setsAside now paths).Allowed c) (hP : P c now) :
    Change r P c (c.after q (.setsAside now paths)) := by
  obtain ⟨hnow, hweight, hpaths⟩ := h
  have hdone : (q.setAside now paths).run.Ensures _ _ [] c.tree :=
    horder.ensures_setAside hq hnow.plain.toIsValid hweight hpaths
  obtain ⟨_, horder', hdone⟩ := hdone.result
  rw [after]
  generalize (q.setAside now paths).run.run c.tree = outcome at horder' hdone
  obtain ⟨result, tree⟩ := outcome
  cases result with
  | error e => exact .givenUp hnow hP horder' hdone
  | ok x => exact .created hnow hP horder' hdone

theorem change_finishes (name : String) : Change r P c (c.after q (.finishes name)) := by
  rw [after]
  split
  · rename_i hheld
    refine .idle ((horder.perm (perm_cons_erase hheld)).unlock hq) ?_ ?_ fun h => h.unlock _
    · exact fun n _ => get?_unlock _ _
    · exact fun n _ => get?_unlock _ _
  · exact .idle horder (fun _ _ => rfl) (fun _ _ => rfl) fun h => h

end

section

variable (hat : LockedAt r name a) (ha : a ≠ []) (hb : b <+: r ++ [".deadfiles", "quarantine"])
include hat ha hb

theorem get?_touch_above : (s.touch a).get? b = s.get? b := by
  refine (SameBut.touch ha).get? _ fun heq => ?_
  have := hb.length_le
  rcases hat with rfl | ⟨x, -, rfl⟩ <;> simp [heq, lockAt, sessionAt] at this

theorem get?_purged_above : (Purged r name a s).get? b = s.get? b := by
  have hlen := hb.length_le
  have hsession : ¬ sessionAt r name <+: b := fun hp => by
    have := hp.length_le
    simp [sessionAt] at this hlen
    omega
  have herased : ((s.touch a).erase (sessionAt r name)).get? b = s.get? b := by
    rw [get?_erase (by simp [sessionAt]), if_neg hsession, get?_touch_above hat ha hb]
  unfold Purged
  split
  · rename_i heq
    have hlock : ¬ a <+: b := fun hp => by
      have := hp.length_le
      simp [heq, lockAt] at this hlen
      omega
    rw [get?_erase ha, if_neg hlock, herased]
  · exact herased

end

theorem get?_touch_session {n : String} (hat : LockedAt r name a) (ha : a ≠ [])
    (hdot : '.' ∉ n.toList) : (s.touch a).get? (sessionAt r n) = s.get? (sessionAt r n) := by
  refine (SameBut.touch ha).get? _ fun heq => ?_
  rcases hat with rfl | ⟨x, -, rfl⟩
  · exact sessionAt_ne_lockAt hdot heq
  · have := congrArg List.length heq
    simp [sessionAt] at this

theorem change_purges (horder : Orderly r c.held c.tree) (hq : q.At r) (id : String) :
    Change r P c (c.after q (.purges id)) := by
  have horder' := horder.purge hq id
  have hgone {n : String} {count : Nat} (hok : ((q.purge id).run.run c.tree).1 = .ok count) (hn : Denotes id n) :=
    horder.get?_of_purge hq hn hok
  have hothers (n : String) (hn : ¬ Denotes id n) (hdot : '.' ∉ n.toList) (x : List String) :=
    horder.get?_purge hq hdot (fun h => absurd h hn) x
  rw [after]
  rcases horder.purge_cases hq id with ⟨e, hrun⟩ | ⟨name, a, -, -, hat, hroom, -, ⟨e, hrun⟩ | ⟨-, count, hrun⟩⟩
  · rw [hrun] at horder' ⊢
    exact .idle horder' (fun _ _ => rfl) (fun _ _ => rfl) fun h => h
  · rw [hrun] at horder' ⊢
    refine .idle horder' (fun n hdot => get?_touch_session hat hroom.ne_nil hdot) (fun n _ => ?_) fun h b hb => ?_
    · exact (SameBut.touch hroom.ne_nil).get? _ hat.ne_record.symm
    · rw [get?_touch_above hat hroom.ne_nil hb]
      exact h b hb
  · rw [hrun] at horder' hgone hothers ⊢
    refine .purged horder' (fun n hn => hgone rfl hn) hothers fun h b hb => ?_
    rw [get?_purged_above hat hroom.ne_nil hb]
    exact h b hb

theorem Step.change (h : Step q P c c') (horder : Orderly r c.held c.tree) (hq : q.At r) : Change r P c c' := by
  obtain ⟨call, hallowed, hP, rfl⟩ := h
  cases call with
  | opens now => exact change_opens horder hq hallowed (hP now rfl)
  | setsAside now paths => exact change_setsAside horder hq hallowed (hP now rfl)
  | finishes name => exact change_finishes horder hq name
  | purges id => exact change_purges horder hq id

end Changes

/-! ## What every call keeps -/

/-- The sessions of a history are those of the store. Their names are made of the moments at which they were opened. -/
structure Sound (r : Address) (c : Timeline) : Prop where
  order : Orderly r c.held c.tree
  unblocked : Unblocked r c.tree
  record_iff : ∀ name record, '.' ∉ name.toList →
    (HasRecord r name c.tree record ↔ record ∈ c.sessions ∧ record.id = name)
  named : ∀ record ∈ c.sessions, record.createdAt.IsPlain ∧
    ∃ attempt, record.id = sessionName record.createdAt.stamp attempt
  distinct : (c.sessions.map (·.id)).Nodup
  shown : ∀ record ∈ c.sessions, record.createdAt ∈ c.readings
  times : c.sessions.Pairwise fun a b => a.createdAt.ticks ≤ b.createdAt.ticks

section Sound

variable {tree : FileTree} {record : SessionRecord}

theorem dotless_sessionName (now : Moment) (attempt : Nat) : '.' ∉ (sessionName now.stamp attempt).toList := by
  have hc : IsNoNumeral '.' := ⟨by decide, by decide, by decide⟩
  exact not_mem_sessionName hc (Moment.not_mem_stamp hc now) attempt

theorem hasRecord_congr {s u : FileTree} {name : String} (h : u.get? (recordAt r name) = s.get? (recordAt r name)) :
    HasRecord r name u record ↔ HasRecord r name s record := by
  rw [HasRecord, HasRecord, h]

theorem Sound.start {t : FileTree} (wf : t.WellFormed) (hroot : t.get? r = some .directory)
    (hstore : t.get? (storeAt r) = none) (hlocks : ∀ a ∈ t.locks, ¬ storeAt r <+: a) : Sound r { tree := t } where
  order := .start wf hroot hstore hlocks
  unblocked := by
    rintro a ha contents hfile
    rcases prefix_or_prefix_of_prefix ha (prefix_append r [".deadfiles", "quarantine"]) with hup | ⟨y, rfl⟩
    · obtain ⟨z, rfl⟩ := hup
      by_cases hz : z = []
      · rw [hz, append_nil, hfile] at hroot
        cases hroot
      · rw [wf.directory_above hz hroot] at hfile
        cases hfile
    · rw [prefix_append_right_inj] at ha
      cases y with
      | nil =>
        rw [append_nil, hroot] at hfile
        cases hfile
      | cons name y =>
        obtain ⟨rfl, -⟩ := cons_prefix_cons.1 ha
        have hnone := wf.get?_append_eq_none hstore (x := y)
        rw [storeAt, append_assoc, singleton_append, hfile] at hnone
        cases hnone
  record_iff name record _ := by
    refine ⟨?_, by simp⟩
    rintro ⟨contents, hfile, -⟩
    have hnone := wf.get?_append_eq_none hstore (x := ["quarantine", name, "manifest.json"])
    rw [storeAt, append_assoc] at hnone
    rw [recordAt] at hfile
    exact absurd (hnone.symm.trans hfile) (by simp)
  named := by simp
  distinct := by simp
  shown := by simp
  times := .nil

variable (h : c.Sound r)
include h

theorem Sound.directory (hrecord : record ∈ c.sessions) : c.tree.get? (sessionAt r record.id) = some .directory := by
  obtain ⟨-, attempt, hname⟩ := h.named record hrecord
  have hdot : '.' ∉ record.id.toList := hname ▸ dotless_sessionName _ attempt
  exact ((h.record_iff _ _ hdot).2 ⟨hrecord, rfl⟩).directory h.order.wf

theorem Sound.created
    (hnow : c.Shows now) (horder : Orderly r held tree) (hcreated : Created r now c.tree record tree) :
    (c.opening now held tree (some record)).Sound r := by
  have hcreatedAt := hcreated.createdAt
  obtain ⟨attempt, hname, -⟩ := hcreated.first
  have hdot : '.' ∉ record.id.toList := hname ▸ dotless_sessionName now attempt
  have hnew : ∀ other ∈ c.sessions, other.id ≠ record.id := fun other hother heq => by
    have hdir := h.directory hother
    rw [heq, hcreated.free] at hdir
    cases hdir
  refine ⟨horder, .of_directory horder.wf (hcreated.there.directory horder.wf), fun name other hdot' => ?_, ?_, ?_, ?_,
    ?_⟩
  · show HasRecord r name tree other ↔ other ∈ c.sessions ++ [record] ∧ other.id = name
    rw [mem_append, mem_singleton]
    by_cases hn : name = record.id
    · subst hn
      refine ⟨fun hother => ⟨.inr (hother.unique hcreated.there), by rw [hother.unique hcreated.there]⟩, ?_⟩
      rintro ⟨hother | rfl, heq⟩
      · exact absurd heq (hnew other hother)
      · exact hcreated.there
    · rw [hasRecord_congr (hcreated.spares.get?_record hn hdot'), h.record_iff name other hdot']
      refine ⟨fun ⟨hother, heq⟩ => ⟨.inl hother, heq⟩, ?_⟩
      rintro ⟨hother | rfl, heq⟩
      · exact ⟨hother, heq⟩
      · exact absurd heq.symm hn
  · refine forall_mem_append.2 ⟨h.named, forall_mem_singleton.2 ?_⟩
    rw [hcreatedAt]
    exact ⟨hnow.plain, attempt, hname⟩
  · show ((c.sessions ++ [record]).map (·.id)).Nodup
    rw [map_append, nodup_append]
    refine ⟨h.distinct, by simp, fun id hid id' hid' heq => ?_⟩
    obtain ⟨other, hother, rfl⟩ := mem_map.1 hid
    rw [map_singleton, mem_singleton] at hid'
    exact hnew other hother (heq.trans hid')
  · refine forall_mem_append.2 ⟨fun other hother => mem_cons_of_mem _ (h.shown other hother), forall_mem_singleton.2 ?_⟩
    rw [hcreatedAt]
    exact mem_cons_self
  · refine pairwise_append.2 ⟨h.times, by simp, fun other hother new hnew => ?_⟩
    rw [mem_singleton.1 hnew, hcreatedAt]
    exact hnow.latest _ (h.shown other hother)

theorem Sound.same {readings : List Moment} (horder : Orderly r held tree)
    (hrecord : ∀ n, '.' ∉ n.toList → tree.get? (recordAt r n) = c.tree.get? (recordAt r n))
    (hclear : Unblocked r tree) (hreadings : c.readings ⊆ readings) :
    Sound r { c with tree, held, readings } :=
  ⟨horder, hclear, fun n record hdot => by rw [hasRecord_congr (hrecord n hdot)]; exact h.record_iff n record hdot,
    h.named, h.distinct, fun record hmem => hreadings (h.shown record hmem), h.times⟩

theorem Sound.purged {id : String} {tree : FileTree} (horder : Orderly r c.held tree)
    (hgone : ∀ n, Denotes id n → tree.get? (sessionAt r n) = none)
    (hothers : ∀ n, ¬ Denotes id n → '.' ∉ n.toList → ∀ x,
      tree.get? (sessionAt r n ++ x) = c.tree.get? (sessionAt r n ++ x)) (hclear : Unblocked r tree) :
    (c.deleting id tree true).Sound r := by
  have hsub : (c.sessions.filter fun record => ¬ Denotes id record.id).Sublist c.sessions := filter_sublist
  refine ⟨horder, hclear, fun n record hdot => ?_, fun record hmem => h.named record (hsub.subset hmem),
    h.distinct.sublist (hsub.map _), fun record hmem => h.shown record (hsub.subset hmem), h.times.sublist hsub⟩
  show HasRecord r n tree record ↔ record ∈ c.sessions.filter _ ∧ _
  simp only [mem_filter, decide_eq_true_eq]
  by_cases hn : Denotes id n
  · constructor
    · intro hrecord
      have hdir := hrecord.directory horder.wf
      rw [hgone n hn] at hdir
      cases hdir
    · rintro ⟨⟨-, hnot⟩, rfl⟩
      exact absurd hn hnot
  · have hsame : tree.get? (recordAt r n) = c.tree.get? (recordAt r n) := by
      rw [recordAt_eq]
      exact hothers n hn hdot _
    rw [hasRecord_congr hsame, h.record_iff n record hdot]
    constructor
    · rintro ⟨hmem, rfl⟩
      exact ⟨⟨hmem, hn⟩, rfl⟩
    · rintro ⟨⟨hmem, -⟩, rfl⟩
      exact ⟨hmem, rfl⟩

theorem Sound.step (hchange : Change r P c c') : c'.Sound r := by
  cases hchange with
  | created hnow _ horder hcreated => exact h.created hnow horder hcreated
  | @givenUp now _ _ _ _ horder hgivenUp =>
    have hsame := h.same horder hgivenUp.record (hgivenUp.unblocked h.unblocked) (subset_cons_self now _)
    simpa only [opening, Option.toList_none, append_nil] using hsame
  | idle horder _ hrecord hclear => exact h.same horder hrecord (hclear h.unblocked) (Subset.refl _)
  | purged horder hgone hothers hclear => exact h.purged horder hgone hothers (hclear h.unblocked)

theorem Sound.run (hq : q.At r) (hrun : Relation.ReflTransGen (Step q P) c c') : c'.Sound r := by
  induction hrun with
  | refl => exact h
  | tail _ hstep ih => exact ih.step (hstep.change ih.order hq)

end Sound

/-! ## Numbers of one millisecond -/

def tries (c : Timeline) (now : Moment) : Nat := c.readings.countP fun m => m.milli = now.milli

/-- No session of the millisecond of a moment was deleted. -/
def Spared (c : Timeline) (now : Moment) : Prop :=
  ∀ id ∈ c.deleted, ∀ attempt, ¬ Denotes id (sessionName now.stamp attempt)

/-- Fewer than ten sessions were to be opened in this millisecond, and none of them was deleted. -/
structure IsCalm (c : Timeline) (now : Moment) : Prop where
  /-- The number of the next session has one digit. -/
  tries : c.tries now < 10
  spared : c.Spared now

/-- The names of a millisecond are taken one after the other. -/
structure Numbered (r : Address) (c : Timeline) : Prop where
  bounded : ∀ now : Moment, now.IsPlain → ∀ k, c.tree.get? (sessionAt r (sessionName now.stamp k)) ≠ none →
    k < c.tries now
  dense : ∀ now : Moment, now.IsPlain → c.Spared now → ∀ k,
    c.tree.get? (sessionAt r (sessionName now.stamp k)) ≠ none → TakenBefore r now.stamp k c.tree

section Numbered

theorem Numbered.le_tries (h : c.Numbered r) (hnow : now.IsPlain) {k : Nat}
    (hbefore : TakenBefore r now.stamp k c.tree) : k ≤ c.tries now := by
  cases k with
  | zero => exact Nat.zero_le _
  | succ k => exact h.bounded now hnow k (hbefore k (Nat.lt_succ_self k))

theorem Numbered.opening {held : List String} {tree : FileTree} {record : Option SessionRecord} {id : String}
    (h : c.Numbered r) (hnow : now.IsPlain) (hfirst : IsFirstFree r now.stamp c.tree id)
    (htaken : ∀ n, '.' ∉ n.toList → tree.get? (sessionAt r n) = c.tree.get? (sessionAt r n) ∨
      n = id ∧ c.tree.get? (sessionAt r n) = none) : (c.opening now held tree record).Numbered r := by
  obtain ⟨attempt, rfl, hbefore⟩ := hfirst
  have hcases (m : Moment) (hm : m.IsPlain) (k : Nat) (hk : tree.get? (sessionAt r (sessionName m.stamp k)) ≠ none) :
      c.tree.get? (sessionAt r (sessionName m.stamp k)) ≠ none ∨ m.milli = now.milli ∧ k = attempt := by
    rcases htaken _ (dotless_sessionName m k) with hsame | ⟨hname, -⟩
    · exact .inl (hsame ▸ hk)
    · exact .inr ((sessionName_inj hm hnow).1 hname)
  refine ⟨fun m hm k hk => ?_, fun m hm hspared k hk j hj => ?_⟩
  · simp only [tries, Timeline.opening, countP_cons, decide_eq_true_eq]
    rcases hcases m hm k hk with hold | ⟨hmilli, rfl⟩
    · exact Nat.lt_add_right _ (h.bounded m hm k hold)
    · rw [if_pos hmilli.symm, hmilli]
      exact Nat.lt_succ_of_le (h.le_tries hnow hbefore)
  · have hold : c.tree.get? (sessionAt r (sessionName m.stamp j)) ≠ none := by
      rcases hcases m hm k hk with hold | ⟨hmilli, rfl⟩
      · exact h.dense m hm hspared k hold j hj
      · rw [(Moment.stamp_eq_iff hm hnow).2 hmilli]
        exact hbefore j hj
    show tree.get? _ ≠ none
    rcases htaken _ (dotless_sessionName m j) with hsame | ⟨-, hnone⟩
    · rwa [hsame]
    · exact absurd hnone hold

theorem Numbered.step (h : c.Numbered r) (hchange : Change r P c c') : c'.Numbered r := by
  cases hchange with
  | @created _ _ _ record hnow _ _ hcreated =>
    refine h.opening hnow.plain hcreated.first fun n hdot => ?_
    by_cases hn : n = record.id
    · exact .inr ⟨hn, hn ▸ hcreated.free⟩
    · exact .inl (hcreated.spares.get?_session hn hdot)
  | givenUp hnow _ _ hgivenUp =>
    obtain ⟨id, hfirst, htaken⟩ := hgivenUp.taken
    exact h.opening hnow.plain hfirst htaken
  | idle _ hsession _ _ =>
    refine ⟨fun m hm k hk => h.bounded m hm k ?_, fun m hm hspared k hk j hj => ?_⟩
    · rwa [← hsession _ (dotless_sessionName m k)]
    · show FileTree.get? _ _ ≠ none
      rw [hsession _ (dotless_sessionName m j)]
      refine h.dense m hm hspared k ?_ j hj
      rwa [← hsession _ (dotless_sessionName m k)]
  | @purged id tree _ hgone hothers _ =>
    have hold (m : Moment) (k : Nat) (hk : tree.get? (sessionAt r (sessionName m.stamp k)) ≠ none) :
        c.tree.get? (sessionAt r (sessionName m.stamp k)) ≠ none := by
      have hother : ¬ Denotes id (sessionName m.stamp k) := fun hid => hk (hgone _ hid)
      have hsame := hothers _ hother (dotless_sessionName m k) []
      rw [append_nil] at hsame
      rwa [← hsame]
    refine ⟨fun m hm k hk => h.bounded m hm k (hold m k hk), fun m hm hspared k hk j hj => ?_⟩
    have hsame := hothers _ (hspared id mem_cons_self j) (dotless_sessionName m j) []
    rw [append_nil] at hsame
    show tree.get? _ ≠ none
    rw [hsame]
    exact h.dense m hm (forall_mem_cons.1 hspared).2 k (hold m k hk) j hj

end Numbered

/-! ## Names in the order of opening -/

section Ascending

/-- In a calm millisecond, a new session gets a name behind those that are there. -/
theorem Sound.lt_created {tree : FileTree} {record other : SessionRecord} (h : c.Sound r) (hnumbered : c.Numbered r)
    (hnow : c.Shows now) (hcalm : c.IsCalm now) (hcreated : Created r now c.tree record tree)
    (hother : other ∈ c.sessions) : other.id < record.id := by
  obtain ⟨hplain, j, hj⟩ := h.named other hother
  obtain ⟨k, hk, hbefore⟩ := hcreated.first
  rw [hj, hk, sessionName_lt_iff hplain hnow.plain]
  have hle : _ ≤ now.milli := Int.ediv_le_ediv (by decide) (hnow.latest _ (h.shown other hother))
  rcases hle.lt_or_eq with hlt | heq
  · exact .inl hlt
  refine .inr ⟨heq, attemptText_lt ?_ (Nat.lt_of_le_of_lt (hnumbered.le_tries hnow.plain hbefore) hcalm.tries)⟩
  have hstamp := (Moment.stamp_eq_iff hplain hnow.plain).2 heq
  have hfree := hcreated.free
  have htaken : c.tree.get? (sessionAt r (sessionName now.stamp j)) ≠ none := by
    rw [← hstamp, ← hj, h.directory hother]
    simp
  rw [hk] at hfree
  rcases Nat.lt_trichotomy j k with hlt | rfl | hgt
  · exact hlt
  · exact absurd hfree htaken
  · exact absurd hfree (hnumbered.dense now hnow.plain hcalm.spared j htaken k hgt)

/-- **The names are in the order of opening if every millisecond is calm.** -/
theorem ascending_run (hstart : c.Sound r) (hnumbered : c.Numbered r) (hnil : c.sessions = []) (hq : q.At r)
    (hP : ∀ c now, P c now → c.IsCalm now) (hrun : Relation.ReflTransGen (Step q P) c c') :
    c'.Numbered r ∧ c'.sessions.Pairwise fun a b => a.id < b.id := by
  induction hrun with
  | refl => exact ⟨hnumbered, hnil ▸ .nil⟩
  | @tail d e hrun hstep ih =>
    have hsound := hstart.run hq hrun
    have hchange := hstep.change hsound.order hq
    refine ⟨ih.1.step hchange, ?_⟩
    cases hchange with
    | created hnow hcalm _ hcreated =>
      refine pairwise_append.2 ⟨ih.2, by simp, fun other hother new hnew => ?_⟩
      rw [Option.toList_some, mem_singleton] at hnew
      subst hnew
      exact hsound.lt_created ih.1 hnow (hP _ _ hcalm) hcreated hother
    | givenUp _ _ _ _ => simpa only [opening, Option.toList_none, append_nil] using ih.2
    | idle _ _ _ _ => exact ih.2
    | purged _ _ _ _ => exact ih.2.sublist filter_sublist

theorem Sound.recordIn_iff (h : c.Sound r) (hq : q.At r) {name : String}
    (hname : name ∈ c.tree.children (r ++ [".deadfiles", "quarantine"])) (record : SessionRecord) :
    q.recordIn c.tree name = some record ↔ record ∈ c.sessions ∧ record.id = name := by
  have wf := h.order.wf
  obtain ⟨n, hn⟩ := Option.isSome_iff_exists.1 ((mem_children wf).1 hname)
  have hisName : IsName name := (wf.isFileName hn name (by simp)).1
  rw [recordIn_eq_some_iff wf hq hisName]
  by_cases hdot : '.' ∈ name.toList
  · constructor
    · intro hrecord
      exact absurd hdot (h.order.names name (hrecord.directory wf))
    · rintro ⟨hmem, rfl⟩
      obtain ⟨-, attempt, hid⟩ := h.named record hmem
      rw [hid] at hdot
      exact absurd hdot (dotless_sessionName _ attempt)
  · exact h.record_iff name record hdot

theorem Sound.perm_records (h : c.Sound r) (hq : q.At r) :
    ((c.tree.children (r ++ [".deadfiles", "quarantine"])).filterMap (q.recordIn c.tree)).Perm c.sessions := by
  have wf := h.order.wf
  refine (perm_ext_iff_of_nodup ?_ h.distinct.of_map).2 fun record => ?_
  · refine pairwise_filterMap.2 ((nodup_children wf).imp_of_mem ?_)
    intro name name' hname hname' hne record hrecord record' hrecord' heq
    rw [h.recordIn_iff hq hname] at hrecord
    rw [h.recordIn_iff hq hname'] at hrecord'
    exact hne (by rw [← hrecord.2, ← hrecord'.2, heq])
  · rw [mem_filterMap]
    constructor
    · rintro ⟨name, hname, hrecord⟩
      exact ((h.recordIn_iff hq hname record).1 hrecord).1
    · intro hmem
      have hname : record.id ∈ c.tree.children (r ++ [".deadfiles", "quarantine"]) := by
        have hdir := h.directory hmem
        rw [sessionAt] at hdir
        rw [mem_children wf, append_assoc]
        exact Option.isSome_iff_exists.2 ⟨_, hdir⟩
      exact ⟨record.id, hname, (h.recordIn_iff hq hname record).2 ⟨hmem, rfl⟩⟩

/-- **The sessions that are left are listed, in the order of their names.** -/
theorem Sound.listed (h : c.Sound r) (hq : q.At r) : ∃ listed,
    q.sessions.run.run c.tree = (.ok listed, c.tree) ∧ listed.Perm c.sessions ∧
      listed.Pairwise fun a b => a.id < b.id := by
  have hperm := (mergeSort_perm _ fun a b : SessionRecord => decide (a.id ≤ b.id)).trans (h.perm_records hq)
  refine ⟨_, run_sessions h.order.wf hq h.order.root h.unblocked, hperm, ?_⟩
  have hdistinct := pairwise_map.1 ((hperm.map (·.id)).nodup_iff.2 h.distinct)
  exact ((pairwise_byName _).and hdistinct).imp fun hboth => lt_of_le_of_ne hboth.1 hboth.2

theorem Numbered.start {t : FileTree} (wf : t.WellFormed) (hstore : t.get? (storeAt r) = none) :
    Numbered r { tree := t } := by
  have hnone (name : String) : t.get? (sessionAt r name) = none := by
    have h := wf.get?_append_eq_none hstore (x := ["quarantine", name])
    rwa [storeAt, append_assoc] at h
  exact ⟨fun _ _ _ hk => absurd (hnone _) hk, fun _ _ _ _ hk => absurd (hnone _) hk⟩

end Ascending

end Timeline

/-! ## The order of sessions -/

/-- **Sessions are listed in the order of opening, to the millisecond.** Start with a project that has no store, and
let sessions be opened, finished and deleted, while the clock does not go back and the year has four digits. Those
that are left are listed, each once and under a name of its own, in the order of the names, which are made of the
moment of opening and of a number. Within a millisecond names are compared as texts, and a name that has come free is
given again. If at most ten sessions are opened in a millisecond, and none of it is deleted before another one is
opened in it, the order is that of opening. -/
theorem sessions_chronology {t : FileTree} {q : Quarantine} {r : Address} {P : Timeline → Moment → Prop} {c : Timeline}
    (wf : t.WellFormed) (hq : LeadsTo q.root r) (hroot : t.get? r = some .directory)
    (hstore : t.get? (storeAt r) = none) (hlocks : ∀ a ∈ t.locks, ¬ storeAt r <+: a)
    (hrun : Relation.ReflTransGen (Timeline.Step q P) { tree := t } c) :
    ∃ listed, q.sessions.run.run c.tree = (.ok listed, c.tree) ∧ listed.Perm c.sessions ∧
      (c.sessions.map (·.id)).Nodup ∧ (listed.Pairwise fun a b => a.id < b.id) ∧
      (∀ record ∈ c.sessions, ∃ attempt, record.id = sessionName record.createdAt.stamp attempt) ∧
      (c.sessions.Pairwise fun a b => a.createdAt.ticks ≤ b.createdAt.ticks) ∧
      (listed.Pairwise fun a b => a.createdAt.milli ≤ b.createdAt.milli) ∧
      ((∀ c now, P c now → c.IsCalm now) → listed = c.sessions) := by
  have hstart : Timeline.Sound r { tree := t } := .start wf hroot hstore hlocks
  have h := hstart.run hq hrun
  obtain ⟨listed, hlisted, hperm, hsorted⟩ := h.listed hq
  refine ⟨listed, hlisted, hperm, h.distinct, hsorted, fun record hmem => (h.named record hmem).2, h.times, ?_,
    fun hP => ?_⟩
  · refine hsorted.imp_of_mem fun {a b} ha hb hlt => ?_
    obtain ⟨hplain, j, hj⟩ := h.named a (hperm.mem_iff.1 ha)
    obtain ⟨hplain', k, hk⟩ := h.named b (hperm.mem_iff.1 hb)
    rw [hj, hk, sessionName_lt_iff hplain hplain'] at hlt
    rcases hlt with hlt | ⟨heq, -⟩
    · exact hlt.le
    · exact heq.le
  · have hnumbered : Timeline.Numbered r { tree := t } := .start wf hstore
    have hascending := (Timeline.ascending_run hstart hnumbered rfl hq hP hrun).2
    exact hperm.eq_of_pairwise (fun a b _ _ hab hba => absurd hab (lt_asymm hba)) hsorted hascending

theorem isPlain_midnight : (⟨20000, 0, 0⟩ : Moment).IsPlain := ⟨⟨by decide, by decide, by decide⟩, by decide, by decide⟩

/-! ## Runs on a small project -/

namespace Timeline

theorem readings_after (q : Quarantine) (c : Timeline) (call : StoreCall) :
    (c.after q call).readings = call.moment?.toList ++ c.readings := by
  cases call with
  | opens now =>
    rw [after]
    generalize (q.openSession now).run.run c.tree = outcome
    rfl
  | setsAside now paths =>
    rw [after]
    generalize (q.setAside now paths).run.run c.tree = outcome
    rfl
  | finishes name =>
    rw [after]
    split <;> rfl
  | purges id =>
    rw [after]
    generalize (q.purge id).run.run c.tree = outcome
    obtain ⟨result, tree⟩ := outcome
    cases result <;> rfl

theorem deleted_after_opens (q : Quarantine) (c : Timeline) (now : Moment) :
    (c.after q (.opens now)).deleted = c.deleted := by
  rw [after]
  generalize (q.openSession now).run.run c.tree = outcome
  rfl

/-- The calls of a list may be made one after the other. -/
def Permits (q : Quarantine) (P : Timeline → Moment → Prop) : List StoreCall → Timeline → Prop
  | [], _ => True
  | call :: calls, c => call.Allowed c ∧ (∀ now, call.moment? = some now → P c now) ∧ Permits q P calls (c.after q call)

theorem run_calls {q : Quarantine} {P : Timeline → Moment → Prop} {calls : List StoreCall} {c : Timeline}
    (h : Permits q P calls c) : Relation.ReflTransGen (Step q P) c (calls.foldl (after q) c) := by
  induction calls generalizing c with
  | nil => exact .refl
  | cons call calls ih => exact .head ⟨call, h.1, h.2.1, rfl⟩ (ih h.2.2)

/-- Up to ten sessions may be opened one after the other, while the clock does not go back. -/
theorem permits_opens (q : Quarantine) {moments : List Moment} {c : Timeline} (hplain : ∀ m ∈ moments, m.IsPlain)
    (hsorted : moments.Pairwise fun m n => m.ticks ≤ n.ticks)
    (hlatest : ∀ m ∈ moments, ∀ n ∈ c.readings, n.ticks ≤ m.ticks) (hfew : c.readings.length + moments.length ≤ 10)
    (hdeleted : c.deleted = []) : Permits q IsCalm (moments.map .opens) c := by
  induction moments generalizing c with
  | nil => trivial
  | cons now moments ih =>
    obtain ⟨hnow, hplain⟩ := forall_mem_cons.1 hplain
    obtain ⟨hlater, hsorted⟩ := pairwise_cons.1 hsorted
    obtain ⟨hlatest, hlatest'⟩ := forall_mem_cons.1 hlatest
    rw [length_cons] at hfew
    refine ⟨⟨hnow, hlatest⟩, ?_, ih hplain hsorted ?_ ?_ ?_⟩
    · intro _ hmoment
      cases hmoment
      have hle : c.tries now ≤ c.readings.length := countP_le_length
      refine ⟨by omega, ?_⟩
      rw [Spared, hdeleted]
      exact forall_mem_nil _
    · intro m hm
      rw [readings_after]
      exact forall_mem_cons.2 ⟨hlater m hm, hlatest' m hm⟩
    · rw [readings_after]
      show c.readings.length + 1 + moments.length ≤ 10
      omega
    · rw [deleted_after_opens, hdeleted]

end Timeline

/-- Two sessions are opened in one millisecond, and one in the next. -/
def openingMoments : List Moment := [⟨20000, 0, 0⟩, ⟨20000, 0, 0⟩, ⟨20000, 0, 1000000⟩]

theorem ids_openingMoments :
    ((openingMoments.map .opens).foldl (Timeline.after ⟨⟨"/p"⟩⟩) { tree := loneScript }).sessions.map (·.id) =
      ["20241004-000000-000", "20241004-000000-000-1", "20241004-000000-001"] := by
  decide +kernel

theorem sessions_chronology_openingMoments : ∃ c : Timeline,
    Relation.ReflTransGen (Timeline.Step ⟨⟨"/p"⟩⟩ Timeline.IsCalm) { tree := loneScript } c ∧
      c.sessions.map (·.id) = ["20241004-000000-000", "20241004-000000-000-1", "20241004-000000-001"] ∧
      (Quarantine.mk ⟨"/p"⟩).sessions.run.run c.tree = (.ok c.sessions, c.tree) := by
  have hplain : ∀ m ∈ openingMoments, m.IsPlain := by
    simp only [openingMoments, forall_mem_cons]
    exact ⟨isPlain_midnight, isPlain_midnight, ⟨⟨by decide, by decide, by decide⟩, by decide, by decide⟩,
      forall_mem_nil _⟩
  have hrun := Timeline.run_calls (Timeline.permits_opens ⟨⟨"/p"⟩⟩ (c := { tree := loneScript }) hplain (by decide)
    (fun _ _ => forall_mem_nil _) (by decide) rfl)
  obtain ⟨listed, hlisted, -, -, -, -, -, -, hsame⟩ :=
    sessions_chronology (by decide) loneScript_spec.1 (by decide) (by decide) (by decide) hrun
  refine ⟨_, hrun, ids_openingMoments, ?_⟩
  rw [hlisted, hsame fun _ _ h => h]

/-! ## A name that is given again -/

/-- Two sessions are opened in one millisecond, the first one is deleted, and a third one is opened in its place. -/
def renamingCalls : List StoreCall :=
  [.opens ⟨20000, 0, 0⟩, .opens ⟨20000, 0, 0⟩, .finishes "20241004-000000-000", .purges "20241004-000000-000",
    .opens ⟨20000, 0, 0⟩]

theorem ids_renamingCalls : (renamingCalls.foldl (Timeline.after ⟨⟨"/p"⟩⟩) { tree := loneScript }).sessions.map (·.id) =
    ["20241004-000000-000-1", "20241004-000000-000"] := by
  decide +kernel

/-- **A session is listed before one that was opened earlier**, in the same millisecond: it has the name of a session
that was deleted. -/
theorem later_session_first : ∃ (c : Timeline) (earlier later : SessionRecord),
    Relation.ReflTransGen (Timeline.Step ⟨⟨"/p"⟩⟩ fun _ _ => True) { tree := loneScript } c ∧
      c.sessions = [earlier, later] ∧
      (Quarantine.mk ⟨"/p"⟩).sessions.run.run c.tree = (.ok [later, earlier], c.tree) := by
  have hpermits : Timeline.Permits ⟨⟨"/p"⟩⟩ (fun _ _ => True) renamingCalls { tree := loneScript } := by
    refine ⟨⟨isPlain_midnight, ?_⟩, fun _ _ => trivial, ⟨isPlain_midnight, ?_⟩, fun _ _ => trivial, trivial,
      fun _ _ => trivial, trivial, fun _ _ => trivial, ⟨isPlain_midnight, ?_⟩, fun _ _ => trivial, trivial⟩ <;>
      simp [Timeline.readings_after, StoreCall.moment?]
  have hrun := Timeline.run_calls hpermits
  have hids := ids_renamingCalls
  generalize renamingCalls.foldl (Timeline.after ⟨⟨"/p"⟩⟩) { tree := loneScript } = c at hrun hids
  have hstart : Timeline.Sound ["p"] { tree := loneScript } := .start (by decide) (by decide) (by decide) (by decide)
  obtain ⟨listed, hlisted, hperm, hsorted⟩ := (hstart.run loneScript_spec.1 hrun).listed loneScript_spec.1
  obtain ⟨earlier, rest, hsessions, hearlier, hrest⟩ := List.map_eq_cons_iff.1 hids
  obtain ⟨later, rest, rfl, hlater, hnil⟩ := List.map_eq_cons_iff.1 hrest
  obtain rfl := List.map_eq_nil_iff.1 hnil
  refine ⟨c, earlier, later, hrun, hsessions, ?_⟩
  rw [hlisted]
  have hsorted' : [later, earlier].Pairwise fun a b : SessionRecord => a.id < b.id := by
    refine List.pairwise_pair.2 ?_
    rw [hearlier, hlater]
    decide
  have hperm' : listed.Perm [later, earlier] := (hperm.trans (hsessions ▸ .refl _)).trans (.swap _ _ _)
  rw [hperm'.eq_of_pairwise (fun a b _ _ hab hba => absurd hab (lt_asymm hba)) hsorted hsorted']

end Deadwood
