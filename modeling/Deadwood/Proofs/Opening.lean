import Deadwood.Proofs.Moment
import Deadwood.Proofs.Session
import Mathlib.Data.List.Perm.Subperm

/-!
# Opening a session

* `Untouched`: a tree has been changed within the store only;
* **`ensures_openSession`**: a session is opened with an empty record, or nothing outside the store has
  changed; `ensures_openSession_empty`: and nothing is stored in it yet.
-/

namespace Deadwood

open List FileTree FileTask Deadwood.Path

variable {c : Char} {stamp id : String} {t s u : FileTree} {r : Address}

/-! ## Names of sessions -/

theorem isName_of_dash {s : String} (hdash : '-' ∈ s.toList) (hslash : '/' ∉ s.toList) : IsName s := by
  refine ⟨?_, ?_, ?_, hslash⟩
  all_goals
    rintro rfl
    revert hdash
    decide

/-- Characters that are neither digits nor signs. -/
def IsNoNumeral (c : Char) : Prop := Text.isAsciiDigit c = false ∧ c ≠ '-' ∧ c ≠ '+'

theorem IsNoNumeral.not_mem_paddedDigits (hc : IsNoNumeral c) (width n : Nat) : c ∉ paddedDigits width n :=
  fun h => Bool.false_ne_true (hc.1.symm.trans (isDigit_padded width n c h))

theorem Moment.not_mem_yearText (hc : IsNoNumeral c) (year : Int) : c ∉ (Moment.yearText year).toList := by
  unfold Moment.yearText
  split
  · rw [toList_paddedNat]
    exact hc.not_mem_paddedDigits _ _
  · rw [String.toList_append, mem_append, not_or, toList_paddedNat]
    refine ⟨?_, hc.not_mem_paddedDigits _ _⟩
    split
    · simp [hc.2.1]
    · simp [hc.2.2]

theorem Moment.not_mem_stamp (hc : IsNoNumeral c) (m : Moment) : c ∉ m.stamp.toList := by
  simp [Moment.stamp, Moment.two, toList_paddedNat, hc.not_mem_paddedDigits, Moment.not_mem_yearText hc, hc.2.1]

theorem Moment.stamp_spec (m : Moment) : '-' ∈ m.stamp.toList ∧ '/' ∉ m.stamp.toList :=
  ⟨by simp [Moment.stamp], m.not_mem_stamp ⟨by decide, by decide, by decide⟩⟩

theorem not_mem_sessionName (hc : IsNoNumeral c) (h : c ∉ stamp.toList) (attempt : Nat) :
    c ∉ (sessionName stamp attempt).toList := by
  have hdigits : c ∉ Nat.toDigits 10 attempt := fun hmem =>
    Bool.false_ne_true (hc.1.symm.trans (isAsciiDigit_toDigits attempt c hmem))
  unfold sessionName
  split
  · exact h
  · simp [h, hdigits, hc.2.1]

theorem isName_sessionName (h : '-' ∈ stamp.toList ∧ '/' ∉ stamp.toList) (attempt : Nat) :
    IsName (sessionName stamp attempt) := by
  refine isName_of_dash ?_ (not_mem_sessionName ⟨by decide, by decide, by decide⟩ h.2 attempt)
  unfold sessionName
  split
  · exact h.1
  · simp

def attemptText (attempt : Nat) : List Char :=
  if attempt = 0 then [] else '-' :: Nat.toDigits 10 attempt

theorem toList_sessionName (stamp : String) (attempt : Nat) :
    (sessionName stamp attempt).toList = stamp.toList ++ attemptText attempt := by
  unfold sessionName attemptText
  simp only [beq_iff_eq]
  split
  · simp
  · simp

theorem attemptText_inj {j k : Nat} : attemptText j = attemptText k ↔ j = k := by
  refine ⟨fun h => ?_, fun h => h ▸ rfl⟩
  unfold attemptText at h
  split at h
  · split at h
    · omega
    · cases h
  · split at h
    · cases h
    · rw [← digitsValue_toDigits j, (List.cons.inj h).2, digitsValue_toDigits]

theorem sessionName_injective (stamp : String) : Function.Injective (sessionName stamp) := by
  intro j k h
  rw [← String.toList_inj, toList_sessionName, toList_sessionName] at h
  exact attemptText_inj.1 (append_cancel_left h)

/-! ## Trees without a session -/

/-- A tree has been changed within the store only. -/
structure Untouched (t : FileTree) (r : Address) (s : FileTree) : Prop where
  wf : s.WellFormed
  same : ∀ c, ¬ storeAt r <+: c → s.get? c = t.get? c

section Untouched

theorem Untouched.refl (wf : t.WellFormed) : Untouched t r t := ⟨wf, fun _ _ => rfl⟩

theorem Untouched.trans (h : Untouched t r s) (h' : Untouched s r u) : Untouched t r u :=
  ⟨h'.wf, fun c hc => (h'.same c hc).trans (h.same c hc)⟩

theorem Untouched.of_sameBut {region : Address → Prop} (wf : u.WellFormed) (h : SameBut region s u)
    (hregion : ∀ c, region c → storeAt r <+: c) : Untouched s r u :=
  ⟨wf, fun c hc => h.get? c (mt (hregion c) hc)⟩

theorem Untouched.root (h : Untouched t r s) (hr : t.get? r = some .directory) : s.get? r = some .directory :=
  (h.same r fun hstore => absurd hstore.length_le (by simp [storeAt])).trans hr

theorem AddsDirectories.untouched {x : List String} (h : AddsDirectories (r ++ ".deadfiles" :: x) s u)
    (wf : s.WellFormed) (hr : s.get? r = some .directory) : Untouched s r u := by
  refine ⟨h.wf, fun c hc => (h.made c).resolve_right ?_⟩
  rintro ⟨hnone, hdir⟩
  have hpre : c <+: r ++ ".deadfiles" :: x := by
    by_contra hpre
    rw [h.same.get? c hpre, hnone] at hdir
    cases hdir
  have hstore : storeAt r <+: r ++ ".deadfiles" :: x := prefix_place (by simp)
  have hup : c <+: r := by
    rcases prefix_or_prefix_of_prefix hpre (prefix_append r (".deadfiles" :: x)) with hup | ⟨y, rfl⟩
    · exact hup
    · have := (List.prefix_or_prefix_of_prefix hpre hstore).resolve_right hc
      rw [storeAt, prefix_append_right_inj] at this
      cases y with
      | nil => simp
      | cons name y =>
        rw [cons_prefix_cons, prefix_nil] at this
        obtain ⟨rfl, rfl⟩ := this
        exact absurd (prefix_refl _) hc
  rw [wf.get?_eq_none_of_isPrefix hup hnone] at hr
  cases hr

theorem Untouched.kept (h : Untouched t r s) : Holding t s r id [] :=
  ⟨h.wf, by simp, .nil, by simp, by simp, fun c hc _ => .inl (h.same c hc)⟩

theorem Holding.untouched (h : Holding t s r id []) : Untouched t r s := by
  refine ⟨h.wf, fun c hc => (h.rest c hc (by simp)).resolve_right ?_⟩
  rintro ⟨-, -, f, hf, -⟩
  cases hf

end Untouched

/-! ## Reserving a name -/

/-- The directory of a session is there and empty, and else nothing has changed outside the store. -/
structure Reserved (t : FileTree) (r : Address) (id : String) (s : FileTree) : Prop extends Untouched t r s where
  directory : s.get? (sessionAt r id) = some .directory
  empty : ∀ x, x ≠ [] → s.get? (sessionAt r id ++ x) = none

section Opening

variable {q : Quarantine} {moves : List (Path × Path)} {now : Moment} {a : Address} {attempt : Nat}

theorem Untouched.reserve (h : Untouched t r s) (hroom : s.Room (sessionAt r id))
    (hnone : s.get? (sessionAt r id) = none) : Reserved t r id (s.put (sessionAt r id) .directory) where
  toUntouched := by
    refine h.trans (.of_sameBut (hroom.put h.wf (.inl rfl)) (.put hroom.ne_nil) ?_)
    rintro c rfl
    exact prefix_place (by simp)
  directory := by rw [get?_put hroom.ne_nil, if_pos rfl]
  empty x hx := by rw [get?_put hroom.ne_nil, if_neg (by simpa using hx), h.wf.get?_append_eq_none hnone]

/-- The names of a stamp that come before an attempt are taken. -/
def TakenBefore (r : Address) (stamp : String) (attempt : Nat) (s : FileTree) : Prop :=
  ∀ j < attempt, s.get? (sessionAt r (sessionName stamp j)) ≠ none

theorem takenBefore_zero (r : Address) (stamp : String) (s : FileTree) : TakenBefore r stamp 0 s :=
  fun _ hj => absurd hj (Nat.not_lt_zero _)

theorem TakenBefore.succ (h : TakenBefore r stamp attempt s)
    (hnext : s.get? (sessionAt r (sessionName stamp attempt)) ≠ none) : TakenBefore r stamp (attempt + 1) s := by
  intro j hj
  rcases Nat.lt_succ_iff_lt_or_eq.1 hj with hlt | rfl
  · exact h j hlt
  · exact hnext

/-- As the names differ, no more names are taken than there are in the store. -/
theorem TakenBefore.le_length (h : TakenBefore r stamp attempt s) (wf : s.WellFormed) :
    attempt ≤ (s.children (r ++ [".deadfiles", "quarantine"])).length := by
  have hsub : (range attempt).map (sessionName stamp) ⊆ s.children (r ++ [".deadfiles", "quarantine"]) := by
    intro name hname
    obtain ⟨j, hj, rfl⟩ := mem_map.1 hname
    rw [mem_children wf, append_assoc]
    exact Option.isSome_iff_ne_none.2 (h j (mem_range.1 hj))
  have hle := (subperm_of_subset (nodup_range.map (sessionName_injective stamp)) hsub).length_le
  rwa [length_map, length_range] at hle

/-- What reserving a name does: the directory of a session is made under the first name that is free, or nothing
changes, but then it is not for want of a name. -/
def Reserves (r : Address) (stamp : String) (moves : List (Path × Path)) (s : FileTree) :
    Post (Except QuarantineError String)
  | .ok id, ms, u => ms = moves ∧ (∃ attempt, id = sessionName stamp attempt ∧ TakenBefore r stamp attempt s) ∧
      s.Room (sessionAt r id) ∧ s.get? (sessionAt r id) = none ∧ u = s.put (sessionAt r id) .directory
  | .error e, ms, u => ms = moves ∧ u = s ∧ e ≠ .file .occupied

theorem ensures_reserveNameWithin (hstamp : '-' ∈ stamp.toList ∧ '/' ∉ stamp.toList) (wf : s.WellFormed)
    (hq : q.At r) (fuel : Nat) (hfuel : (s.children (r ++ [".deadfiles", "quarantine"])).length < attempt + fuel)
    (hbefore : TakenBefore r stamp attempt s) :
    (q.reserveNameWithin stamp fuel attempt).run.Ensures (fun ms u => ms = moves ∧ u = s) (Reserves r stamp moves s)
      moves s := by
  induction fuel generalizing attempt with
  | zero => exact absurd (hbefore.le_length wf) (Nat.not_le.2 hfuel)
  | succ fuel ih =>
    have hname := isName_sessionName hstamp attempt
    refine ensures_run_bind (ensures_monadLift (ensures_makeDirectory ⟨rfl, rfl⟩ (fun e he => ?_) fun u hu => ?_))
    · cases e with
      | occupied =>
        exact ih (by omega)
          (hbefore.succ (ne_none_of_makeDirectory_eq_occupied wf (leadsTo_directory hq hname) he))
      | _ => exact ensures_pure.2 ⟨rfl, rfl, by simp⟩
    · obtain ⟨hroom, hnone, rfl⟩ := (makeDirectory_eq_ok_iff wf (leadsTo_directory hq hname)).1 hu
      exact ensures_pure.2 ⟨rfl, ⟨attempt, rfl, hbefore⟩, hroom, hnone, rfl⟩

/-- **The first name that is free is reserved**: there is one among as many names as are in the store and one more. -/
theorem ensures_reserveName (hstamp : '-' ∈ stamp.toList ∧ '/' ∉ stamp.toList) (wf : s.WellFormed) (hq : q.At r)
    (hbase : s.get? (r ++ [".deadfiles", "quarantine"]) = some .directory) :
    (q.reserveName stamp).run.Ensures (fun ms u => ms = moves ∧ u = s) (Reserves r stamp moves s) moves s := by
  have hlist : s.list q.base = .ok (s.children (r ++ [".deadfiles", "quarantine"])) := by
    rw [FileTree.list, exists_find wf (leadsTo_base hq) hbase fun _ => rfl]
    rfl
  refine ensures_run_bind (ensures_ofFiles (ensures_list ⟨rfl, rfl⟩ ?_))
  rw [hlist]
  exact ensures_reserveNameWithin hstamp wf hq _ (by omega) (takenBefore_zero _ _ _)

/-! ## Locking -/

theorem exists_touch (hne : s.get? a ≠ some .directory) (ha : a ≠ []) :
    ∃ contents, (s.touch a).get? a = some (.file contents) := by
  unfold FileTree.touch
  split
  · exact ⟨[], by rw [get?_put ha, if_pos rfl]⟩
  · cases hget : s.get? a with
    | none => contradiction
    | some n =>
      cases n with
      | directory => exact absurd hget hne
      | file contents => exact ⟨contents, rfl⟩

theorem wantsDirectory_lockFile (hq : q.At r) (hid : IsName id) : wantsDirectory (q.lockFile id) = false :=
  wantsDirectory_join_name (leadsTo_base hq).text_ne (isName_lock hid)

/-- A session is locked: its lock file is there, and it is locked once. -/
structure Locked (r : Address) (id : String) (s : FileTree) : Prop where
  file : ∃ contents, s.get? (lockAt r id) = some (.file contents)
  count : s.locks.count (lockAt r id) = 1

theorem ensures_lock_session (hq : q.At r) (hid : IsName id) (h : Reserved t r id s) :
    (q.lock id).run.Ensures (fun ms u => ms = moves ∧ Untouched t r u)
      (fun result ms u => ms = moves ∧ match result with
        | .ok () => Reserved t r id u ∧ Locked r id u
        | .error _ => Untouched t r u) moves s := by
  have hlead := leadsTo_lockFile hq hid
  refine ensures_run_bind (ensures_ofFiles (ensures_lock ⟨rfl, h.toUntouched⟩ (fun e _ => ⟨rfl, h.toUntouched⟩)
    fun free u hu => ?_))
  obtain ⟨hroom, hdir, hfree, rfl⟩ := (lock_eq_ok_iff h.wf hlead (wantsDirectory_lockFile hq hid)).1 hu
  have hsame (c : Address) (hc : c ≠ lockAt r id) := (SameBut.touch (t := s) hroom.ne_nil).get? c hc
  have huntouched : Untouched t r { s.touch (lockAt r id) with
      locks := if free then lockAt r id :: s.locks else s.locks } := by
    refine h.toUntouched.trans ⟨WellFormed.locks (h.wf.touch hroom) _, fun c hc => hsame c ?_⟩
    rintro rfl
    exact hc (prefix_place (by simp))
  cases free with
  | false => exact ensures_pure.2 ⟨rfl, huntouched⟩
  | true =>
    refine ensures_pure.2 ⟨rfl, ⟨huntouched, ?_, fun x hx => ?_⟩, exists_touch hdir hroom.ne_nil, ?_⟩
    · refine (hsame _ fun heq => ?_).trans h.directory
      have : id = id ++ ".lock" := by simpa [sessionAt, lockAt] using heq
      have := congrArg String.length this
      simp at this
    · refine (hsame _ fun heq => ?_).trans (h.empty x hx)
      have := congrArg List.length heq
      simp [sessionAt, lockAt, hx] at this
    · have hcount : s.locks.count (lockAt r id) = 0 := by
        rw [count_eq_zero]
        simpa using hfree
      change (lockAt r id :: s.locks).count (lockAt r id) = 1
      rw [count_cons_self, hcount]

/-! ## Opening -/

theorem FileTask.ensures_tryCatch {α : Type} {I : Invariant} {x : QuarantineTask α}
    {handle : QuarantineError → QuarantineTask α} {Q : Post (Except QuarantineError α)}
    (h : x.run.Ensures I (fun result moves t =>
      match result with
      | .ok a => Q (.ok a) moves t
      | .error e => (handle e).run.Ensures I Q moves t) moves s) :
    (tryCatch x handle).run.Ensures I Q moves s := by
  refine h.bind (fun _ _ h => h) fun result moves t hQ => ?_
  cases result with
  | ok a => exact ensures_pure.2 hQ
  | error e => exact hQ

theorem Reserved.inSession (h : Reserved t r id s) (hlocked : Locked r id s)
    (hadd : AddsDirectories (filesAt r id) s u) (hdir : u.get? (filesAt r id) = some .directory)
    (hr : t.get? r = some .directory) : InSession t r id none [] 1 u := by
  have hsplit (name : String) : r ++ [".deadfiles", "quarantine", id, name] = sessionAt r id ++ [name] := by
    rw [sessionAt, append_assoc]
    rfl
  have hnone {name : String} (hne : name ≠ "files") : u.get? (r ++ [".deadfiles", "quarantine", id, name]) = none := by
    rw [hadd.same.get?, hsplit, h.empty _ (by simp)]
    exact not_prefix_place (by simpa using hne)
  have huntouched := AddsDirectories.untouched (x := ["quarantine", id, "files"]) hadd h.wf (h.root hr)
  obtain ⟨contents, hlock⟩ := hlocked.file
  have hlockAt : ¬ lockAt r id <+: filesAt r id := not_prefix_place fun hp => by
    simp at hp
  refine ⟨(h.toUntouched.trans huntouched).kept, hadd.of_some h.directory, hdir, hnone (by decide), ?_,
    ⟨contents, hadd.of_some hlock⟩, ?_⟩
  · rw [draftAt, hnone (by decide)]
    simp
  · rw [hadd.same.locks _ hlockAt, hlocked.count]

theorem Reserved.ensures_save (h : Reserved t r id s) (hlocked : Locked r id s) (hq : q.At r)
    (hid : IsName id) (hr : t.get? r = some .directory) (record : SessionRecord) :
    (do
      QuarantineTask.ofFiles (makeDirectories ((q.directory id).join filesDirectory))
      record.save (q.directory id) : QuarantineTask Unit).run.Ensures (fun ms u => ms = [] ∧ Untouched t r u)
      (fun result ms u => match result with
        | .ok () => ms = [recordMove q id] ∧ InSession t r id (some record) [] 1 u ∧
            ∀ x, x ≠ [] → u.get? (filesAt r id ++ x) = none
        | .error _ => ms = [] ∧ Untouched t r u) [] s := by
  have huntouched {u : FileTree} (hadd : AddsDirectories (filesAt r id) s u) : Untouched t r u :=
    h.toUntouched.trans (AddsDirectories.untouched hadd h.wf (h.root hr))
  refine ensures_run_bind (ensures_ofFiles ((ensures_makeDirectories h.wf (leadsTo_files hq hid)).mono ?_ ?_))
  · rintro _ u ⟨rfl, hadd⟩
    exact ⟨rfl, huntouched hadd⟩
  rintro result _ u ⟨rfl, hadd, hdir, -⟩
  cases result with
  | error e => exact ⟨rfl, huntouched hadd⟩
  | ok _ =>
    have hempty (x : List String) (hx : x ≠ []) : u.get? (filesAt r id ++ x) = none := by
      have hbelow : ¬ filesAt r id ++ x <+: filesAt r id := fun hp => by
        have := hp.length_le
        have := length_pos_iff.2 hx
        rw [length_append] at *
        omega
      rw [hadd.same.get? _ hbelow]
      have hnone := h.empty ("files" :: x) (by simp)
      rw [sessionAt, append_assoc] at hnone
      rwa [filesAt, append_assoc]
    refine (((h.inSession hlocked hadd (hdir rfl) hr).ensures_save hq hid record).and
      (ensures_save_sameBut hadd.wf (leadsTo_directory hq hid) record)).mono ?_ ?_
    · rintro ms u ⟨⟨rfl, hu⟩, -⟩
      exact ⟨rfl, hu.kept.untouched⟩
    · rintro result ms v ⟨⟨rfl, rfl, hv⟩, -, hsame, -⟩
      refine ⟨rfl, hv, fun x hx => (hsame.get? _ (not_or.2 ⟨?_, ?_⟩)).trans (hempty x hx)⟩
      · rw [filesAt, append_assoc]
        exact not_prefix_place (by simp)
      · rw [filesAt, append_assoc]
        exact not_prefix_place (by simp)

theorem Untouched.unlock (h : Untouched t r s) (p : Path) : Untouched t r (s.unlock p) :=
  ⟨h.wf.unlock p, fun c hc => (get?_unlock p c).trans (h.same c hc)⟩

/-- **A session is opened with an empty record, or nothing has changed outside the store.** No files are
stored in a new session. -/
theorem ensures_openSession_empty (wf : t.WellFormed) (hq : q.At r) (hr : t.get? r = some .directory) :
    (q.openSession now).run.Ensures (fun ms u => ms = [] ∧ Untouched t r u) (fun result ms u => match result with
        | .ok session => (IsName session.record.id ∧ Recorded t q r session.record.id now session ms u) ∧
            session.record.files = [] ∧ ∀ x, x ≠ [] → u.get? (filesAt r session.record.id ++ x) = none
        | .error _ => ms = [] ∧ Untouched t r u) [] t := by
  refine ensures_run_bind (ensures_ofFiles ((ensures_makeDirectories wf (leadsTo_base hq)).mono ?_ ?_))
  · rintro _ u ⟨rfl, hadd⟩
    exact ⟨rfl, AddsDirectories.untouched hadd wf hr⟩
  rintro (e | _) _ s ⟨rfl, hadd, hbase, -⟩
  · exact ⟨rfl, AddsDirectories.untouched hadd wf hr⟩
  have hs : Untouched t r s := AddsDirectories.untouched hadd wf hr
  refine ensures_run_bind ((ensures_reserveName now.stamp_spec hs.wf hq (hbase rfl)).mono ?_ ?_)
  · rintro _ _ ⟨rfl, rfl⟩
    exact ⟨rfl, hs⟩
  rintro (e | id) _ u ⟨rfl, hu⟩
  · obtain ⟨rfl, -⟩ := hu
    exact ⟨rfl, hs⟩
  obtain ⟨⟨attempt, hattempt, -⟩, hroom, hnone, rfl⟩ := hu
  have hid : IsName id := hattempt ▸ isName_sessionName now.stamp_spec attempt
  have hs := hs.reserve hroom hnone
  refine ensures_run_bind ((ensures_lock_session hq hid hs).mono (fun _ _ h => h) ?_)
  rintro (e | _) _ s ⟨rfl, hs⟩
  · exact ⟨rfl, hs⟩
  obtain ⟨hs, hlocked⟩ := hs
  refine ensures_run_bind (ensures_tryCatch ((hs.ensures_save hlocked hq hid hr _).mono (fun _ _ h => h) ?_))
  rintro (e | _) ms s hs
  · obtain ⟨rfl, hs⟩ := hs
    exact ensures_run_bind (ensures_monadLift (ensures_unlock ⟨rfl, hs⟩ (ensures_pure.2 ⟨rfl, hs.unlock _⟩)))
  · obtain ⟨rfl, hs, hempty⟩ := hs
    refine ensures_pure.2 ⟨⟨hid, rfl, hs, ⟨rfl, rfl, rfl, ?_, rfl, rfl⟩, ?_, rfl, rfl⟩, rfl, hempty⟩
    · simp
    · simp

theorem ensures_openSession (wf : t.WellFormed) (hq : q.At r) (hr : t.get? r = some .directory) :
    (q.openSession now).run.Ensures (fun ms u => ms = [] ∧ Untouched t r u) (fun result ms u => match result with
        | .ok session => IsName session.record.id ∧ Recorded t q r session.record.id now session ms u
        | .error _ => ms = [] ∧ Untouched t r u) [] t := by
  refine (ensures_openSession_empty wf hq hr).mono (fun _ _ h => h) ?_
  rintro (e | session) ms u h
  · exact h
  · exact h.1

end Opening

end Deadwood
