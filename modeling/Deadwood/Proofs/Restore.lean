import Deadwood.Proofs.Opening
import Deadwood.Proofs.Record
import Mathlib.Algebra.Order.BigOperators.Group.List
import Mathlib.Algebra.Order.Ring.Nat

/-!
# Putting the files of a session back

* `InSession.ensures_restoreFile`: a file is put back, whatever the branch;
* **`InSession.ensures_restore`**: all files that are in the record are put back, and the session is
  marked as restored.
-/

namespace Deadwood

open List FileTree FileTask Deadwood.Path Quarantine SessionRecord

theorem components_of_isName {name : String} (h : IsName name) : (Path.mk name).components = [.normal name] := by
  have hrelative := isRelative_of_isName h
  have hstart : (Path.mk name).startsHere = false := by
    rw [startsHere, Bool.or_eq_false_iff, beq_eq_false_iff_ne]
    refine ⟨h.2.1, Bool.eq_false_iff.2 fun hstarts => h.2.2.2 ?_⟩
    obtain ⟨rest, rfl⟩ := Text.startsWith_iff.1 hstarts
    simp
  rw [components_eq, start, hrelative.relative, hstart, hrelative.named]
  rfl

theorem not_prefix_dropLast {a c : Address} (ha : a ≠ []) (hac : a <+: c) : ¬ c <+: a.dropLast := fun hca => by
  have hlen := (hac.trans hca).length_le
  have := length_pos_iff.2 ha
  rw [length_dropLast] at hlen
  omega

variable {moves : List (Path × Path)} {s t u : FileTree} {r : Address} {id : String} {f : StoredFile}
  {record : Option SessionRecord} {held : List StoredFile} {k : Nat} {q : Quarantine}

namespace FileTask

variable {I : Invariant} {Q : Post Bool} {p p' : Path} {a b : Address}

variable (wf : s.WellFormed) (hp : LeadsTo p a)
include wf hp

theorem ensures_exists?_none (h : s.get? a = none) (hI : I moves s)
    (hQ : Q false moves s) : (exists? p).Ensures I Q moves s := by
  refine ensures_bind.2 (ensures_status hI (ensures_pure.2 ?_))
  cases hfind : s.find p with
  | error e => exact hQ
  | ok x =>
    rw [((find_eq_ok_iff wf hp).1 hfind).2.1] at h
    cases h

theorem ensures_exists?_some {n : Node} (h : s.get? a = some n)
    (hwants : wantsDirectory p = true → n = .directory) (hI : I moves s) (hQ : Q true moves s) :
    (exists? p).Ensures I Q moves s := by
  refine ensures_bind.2 (ensures_status hI (ensures_pure.2 ?_))
  rw [exists_find wf hp h hwants]
  exact hQ

theorem ensures_sameContents (hp' : LeadsTo p' b) {old new : Bytes}
    (ha : s.get? a = some (.file old)) (hb : s.get? b = some (.file new)) (hwants : wantsDirectory p = false)
    (hwants' : wantsDirectory p' = false) (hI : I moves s) (hQ : Q (old == new) moves s) :
    (sameContents p p').Ensures I Q moves s := by
  refine ensures_bind.2 (ensures_read hI (ensures_bind.2 (ensures_read hI ?_)))
  rw [(read_eq_ok_iff wf hp).2 ⟨ha, hwants⟩, (read_eq_ok_iff wf hp').2 ⟨hb, hwants'⟩]
  exact ensures_pure.2 hQ

end FileTask

namespace Holding

variable {fs : List StoredFile}

theorem get?_stored (h : Holding t s r id fs) (wf : t.WellFormed) (hf : f ∈ fs) (x : List String) :
    s.get? (filesAt r id ++ f.names ++ x) = t.get? (r ++ f.names ++ x) := by
  cases he : f.edited with
  | false => exact (h.taken f hf he).2 x
  | true =>
    obtain ⟨old, new, hold, hst, -⟩ := h.edited f hf he
    by_cases hx : x = []
    · rw [hx, append_nil, append_nil, hst, hold]
    · rw [h.wf.get?_below_file hx hst, wf.get?_below_file hx hold]

theorem passable (h : Holding t s r id fs) (wf : t.WellFormed) (hf : f ∈ fs) : s.Passable (r ++ f.names).dropLast := by
  have hfrom := h.origin f hf
  obtain ⟨n, hn⟩ := Option.isSome_iff_exists.1 hfrom.there
  have hne : r ++ f.names ≠ [] := by simp [hfrom.outside.1]
  refine ⟨fun name hname => wf.isFileName hn name (dropLast_subset _ hname), fun b hb => ?_⟩
  have hup : b <+: r ++ f.names := hb.trans (List.dropLast_prefix _)
  have hlow : ¬ r ++ f.names <+: b := fun hp => not_prefix_dropLast hne hp hb
  have hdir : t.get? b = some .directory := by
    obtain ⟨x, hx⟩ := hup
    refine wf.directory_above (x := x) (fun hnil => hlow ?_) (by rw [hx]; exact hn)
    rw [← hx, hnil, append_nil]
  have hstore : ¬ storeAt r <+: b := fun hp =>
    hfrom.outside.not_storeAt_prefix_of_prefix prefix_rfl (hp.trans hup)
  refine (h.rest b hstore fun g hg hp => ?_).elim (fun heq => .inr (heq.trans hdir)) fun hrest => .inl hrest.2.1
  rcases h.eq_or_apart hg hf with rfl | hapart
  · exact hlow hp
  · exact (hapart.append r).1 (hp.trans hup)

end Holding

namespace InSession

section

variable (h : InSession t r id record (f :: held) k s) (wf : t.WellFormed)
include h wf

theorem release (hwf : u.WellFormed) (hhome : ∀ x, u.get? (r ++ f.names ++ x) = t.get? (r ++ f.names ++ x))
    (hsame : ∀ c, ¬ r ++ f.names <+: c → ¬ filesAt r id ++ f.names <+: c →
      u.get? c = s.get? c ∨ (s.get? c = none ∧ c <+: r ++ f.names))
    (hlocks : u.locks.count (lockAt r id) = s.locks.count (lockAt r id)) : InSession t r id record held k u := by
  have hfrom := h.kept.origin f mem_cons_self
  refine h.congr (h.kept.release wf hwf hhome hsame) (fun c => ?_) (hlocks.trans h.locks)
  by_cases hc : r ++ f.names <+: c ∨ filesAt r id ++ f.names <+: c
  · exact .inr (aside_of_isPrefix hfrom.outside hc)
  · rw [not_or] at hc
    refine (hsame c hc.1 hc.2).imp_right fun hup => .inl fun hp => ?_
    exact hfrom.outside.not_storeAt_prefix_of_prefix prefix_rfl (hp.trans hup.2)

section

variable (hadd : AddsDirectories (r ++ f.names).dropLast s u)
include hadd

theorem movable_home (hdir : u.get? (r ++ f.names).dropLast = some .directory)
    (hroom : ∀ x, x ≠ [] → s.get? (r ++ f.names ++ x) = none) :
    u.Movable (filesAt r id ++ f.names) (r ++ f.names) := by
  have hfrom := h.kept.origin f mem_cons_self
  obtain ⟨n, hn⟩ := Option.isSome_iff_exists.1 hfrom.there
  have hstored := h.kept.get?_stored wf mem_cons_self []
  rw [append_nil, append_nil, hn] at hstored
  refine ⟨by rw [hadd.of_some hstored]; rfl, fun hp => ?_, fun x hx => ?_, hdir, wf.isFileName hn⟩
  · exact hfrom.outside.not_files_prefix prefix_rfl hp
  · rw [hadd.same.get? _ (not_prefix_dropLast (by simp [hfrom.outside.1]) (prefix_append _ x)), hroom x hx]

theorem get?_stored_above (x : List String) :
    u.get? (filesAt r id ++ f.names ++ x) = t.get? (r ++ f.names ++ x) := by
  have hstore : storeAt r <+: filesAt r id ++ f.names ++ x := by
    rw [append_assoc]
    exact store_prefix_files _
  rw [hadd.same.get? _ ((h.kept.origin f mem_cons_self).outside.not_prefix_above hstore),
    h.kept.get?_stored wf mem_cons_self]

theorem putBack (hmov : u.Movable (filesAt r id ++ f.names) (r ++ f.names)) :
    InSession t r id record held k (u.transfer (filesAt r id ++ f.names) (r ++ f.names)) := by
  have hfrom := h.kept.origin f mem_cons_self
  have hsame := SameBut.transfer hadd.wf hmov
  refine h.release wf (hadd.wf.transfer hmov) (fun x => ?_) (fun c hc hc' => ?_) ?_
  · rw [get?_transfer_target hadd.wf hmov, h.get?_stored_above wf hadd]
  · rw [hsame.get? c (not_or.2 ⟨hc', hc⟩)]
    refine (hadd.made c).imp_right fun hmade => ⟨hmade.1, ?_⟩
    by_contra hup
    rw [hadd.same.get? c fun hp => hup (hp.trans (List.dropLast_prefix _)), hmade.1] at hmade
    cases hmade.2
  · have hlock : storeAt r <+: lockAt r id := prefix_place (by simp)
    rw [hsame.locks _ fun hc => not_aside_lock (aside_of_isPrefix hfrom.outside hc.symm),
      hadd.same.locks _ (hfrom.outside.not_prefix_above hlock)]

end

theorem ensures_putBack (hq : q.At r) (hid : IsName id) (hroom : ∀ x, x ≠ [] → s.get? (r ++ f.names ++ x) = none)
    (hreplaces : s.Replaces (filesAt r id ++ f.names) (r ++ f.names)) :
    (Quarantine.putBack ((q.directory id).join f.stored) (q.root.join f.home)).Ends
      (fun result _ u => result = .ok () ∧ InSession t r id record held k u) moves s := by
  have hf : f ∈ f :: held := mem_cons_self
  have hfrom := h.kept.origin f hf
  have hhome := leadsTo_home hq hfrom
  have hstored := leadsTo_stored hq hid hfrom
  have hne : filesAt r id ++ f.names ≠ r ++ f.names := (ne_filesAt _).symm
  have hhomeNe : r ++ f.names ≠ [] := by simp [hfrom.outside.1]
  refine (ensures_makeDirectoriesAbove h.kept.wf hhome hhomeNe).andThen ?_
  rintro result ms u ⟨-, hadd, hdir, hok⟩
  obtain rfl := hok (h.kept.passable wf hf)
  have hmov := h.movable_home wf hadd (hdir rfl) hroom
  have hreplaces' : u.Replaces (filesAt r id ++ f.names) (r ++ f.names) := by
    intro n m hn hm
    rw [hadd.same.get? _ (hfrom.outside.not_prefix_above (store_prefix_files _))] at hn
    rw [hadd.same.get? _ (not_prefix_dropLast hhomeNe prefix_rfl)] at hm
    exact hreplaces n m hn hm
  have hwants : wantsDirectory ((q.directory id).join f.stored) = true ∨ wantsDirectory (q.root.join f.home) = true →
      u.get? (filesAt r id ++ f.names) = some .directory := by
    rw [wantsDirectory_stored hq hid hfrom, wantsDirectory_home hq hfrom, or_self]
    intro hwants
    have := h.get?_stored_above wf hadd []
    rw [append_nil, append_nil] at this
    rw [this, hfrom.wants hwants]
  have hmove := (move_eq_ok_iff hadd.wf hstored hhome hne).2 ⟨hmov, hreplaces', hwants, rfl⟩
  refine ensures_bind.2 (ensures_moveFile hadd.wf hstored hhome hne trivial (fun e he => ?_) fun v hv => ?_)
  · rw [hmove] at he
    cases he
  · rw [hmove] at hv
    cases hv
    exact ensures_pure.2 ⟨rfl, h.putBack wf hadd hmov⟩

theorem removeCopy {contents : Bytes} (hhome : s.get? (r ++ f.names) = some (.file contents))
    (hold : t.get? (r ++ f.names) = some (.file contents)) :
    InSession t r id record held k (s.erase (filesAt r id ++ f.names)) := by
  have hfrom := h.kept.origin f mem_cons_self
  have hne : filesAt r id ++ f.names ≠ [] := by simp [hfrom.outside.1]
  have hsame := SameBut.erase (t := s) hne
  refine h.release wf (h.kept.wf.erase hne) (fun x => ?_) (fun c _ hc => .inl (hsame.get? c hc)) ?_
  · rw [hsame.get?]
    · by_cases hx : x = []
      · rw [hx, append_nil, hhome, hold]
      · rw [h.kept.wf.get?_below_file hx hhome, wf.get?_below_file hx hold]
    · exact hfrom.outside.not_files_prefix (prefix_append _ x)
  · rw [hsame.locks _ fun hc => not_aside_lock (aside_of_isPrefix hfrom.outside (.inr hc))]

theorem ensures_restoreFile (hq : q.At r) (hid : IsName id) :
    (q.restoreFile (q.directory id) f).Ends
      (fun result _ u => result = .ok () ∧ InSession t r id record held k u) moves s := by
  have hf : f ∈ f :: held := mem_cons_self
  have hfrom := h.kept.origin f hf
  have hhome := leadsTo_home hq hfrom
  have hstored := leadsTo_stored hq hid hfrom
  obtain ⟨n, hn⟩ := Option.isSome_iff_exists.1 hfrom.there
  have hcopy := h.kept.get?_stored wf hf []
  rw [append_nil, append_nil, hn] at hcopy
  refine ensures_bind.2 (ensures_exists?_some h.kept.wf hstored hcopy (fun hw => ?_) trivial ?_)
  · rw [wantsDirectory_stored hq hid hfrom] at hw
    rw [hfrom.wants hw] at hn
    cases hn
    rfl
  cases he : f.edited with
  | false =>
    have hnone := (h.kept.taken f hf he).1
    refine ensures_bind.2 (ensures_exists?_none h.kept.wf hhome hnone trivial ?_)
    exact h.ensures_putBack wf hq hid (fun x _ => h.kept.wf.get?_append_eq_none hnone) (.of_none hnone)
  | true =>
    obtain ⟨old, new, hold, hst, hnew, hhash⟩ := h.kept.edited f hf he
    have hwants : wantsDirectory ⟨String.ofList ('/' :: f.home.text.toList)⟩ = false := by
      refine Bool.eq_false_iff.2 fun hw => ?_
      rw [hfrom.wants hw] at hold
      cases hold
    have hwantsHome := (wantsDirectory_home hq hfrom).trans hwants
    have hwantsStored := (wantsDirectory_stored hq hid hfrom).trans hwants
    refine ensures_bind.2 (ensures_exists?_some h.kept.wf hhome hnew (by simp [hwantsHome]) trivial ?_)
    refine ensures_bind.2 (ensures_sameContents h.kept.wf hstored hhome hst hnew hwantsStored hwantsHome trivial ?_)
    by_cases heq : old = new
    · subst heq
      rw [beq_self_eq_true]
      refine ensures_bind.2 (ensures_removeFile trivial (fun e he => ?_) fun u hu => ?_)
      · rw [(removeFile_eq_ok_iff h.kept.wf hstored).2 ⟨⟨old, hst⟩, hwantsStored, rfl⟩] at he
        cases he
      · obtain ⟨-, -, rfl⟩ := (removeFile_eq_ok_iff h.kept.wf hstored).1 hu
        exact ensures_pure.2 ⟨rfl, h.removeCopy wf hnew hold⟩
    · rw [beq_eq_false_iff_ne.2 heq]
      refine ensures_bind.2 (ensures_read trivial ?_)
      rw [(read_eq_ok_iff h.kept.wf hhome).2 ⟨hnew, hwantsHome⟩]
      have hhash' : (f.writtenHash == some (fingerprint new)) = true := by
        rw [hhash.resolve_left fun h => heq h.symm]
        exact beq_self_eq_true _
      simp only [hhash', if_true]
      exact h.ensures_putBack wf hq hid (fun x hx => h.kept.wf.get?_below_file hx hnew) (.of_files hst hnew)

end

theorem ensures_restoreFiles {files : List StoredFile} (h : InSession t r id record (files ++ held) k s)
    (wf : t.WellFormed) (hq : q.At r) (hid : IsName id) :
    (files.mapM (q.restoreFile (q.directory id))).Ends
      (fun results _ u => results = files.map (fun _ => .ok ()) ∧ InSession t r id record held k u) moves s := by
  induction files generalizing s moves with
  | nil => exact ensures_pure.2 ⟨rfl, h⟩
  | cons f files ih =>
    rw [mapM_cons]
    refine (h.ensures_restoreFile wf hq hid).andThen ?_
    rintro _ ms u ⟨rfl, hu⟩
    refine (ih hu).andThen ?_
    rintro _ ms u ⟨rfl, hu⟩
    exact ensures_pure.2 ⟨rfl, hu⟩

end InSession

theorem ofResults_eq (files : List StoredFile) :
    RestoreReport.ofResults (files.zip (files.map fun _ => .ok ())) = ⟨files.map (·.home), []⟩ := by
  induction files with
  | nil => rfl
  | cons f files ih => simp only [map_cons, zip_cons_cons, RestoreReport.ofResults, ih]

/-! ## Numbers in a record -/

/-- The size of a tree: its bytes, and one for each file or directory. -/
def FileTree.weight (t : FileTree) : Nat := (t.nodes.map fun x => x.2.size + 1).sum

theorem FileTree.sum_le_weight {t : FileTree} {entries : List (Address × Node)} (hnodup : entries.Nodup)
    (hsub : entries ⊆ t.nodes) : (entries.map fun x => x.2.size + 1).sum ≤ t.weight := by
  obtain ⟨l, hperm, hsub⟩ := hnodup.subperm hsub
  rw [← (hperm.map _).sum_eq]
  exact (hsub.map _).sum_le_sum fun _ _ => Nat.zero_le _

section Numbers

variable {record : SessionRecord} {now : Moment}

/-- Files that a session holds are different files of the tree, so that they are no larger than it. -/
theorem Holding.sum_le_weight (h : Holding t s r id held) (wf : t.WellFormed) {fs : List StoredFile}
    (hsub : fs.Sublist held) (hsizes : ∀ f ∈ fs, ∀ n, t.get? (r ++ f.names) = some n → f.size = n.size) :
    (fs.map fun f => f.size + 1).sum ≤ t.weight := by
  have hnode {f : StoredFile} (hf : f ∈ fs) : ∃ n, t.get? (r ++ f.names) = some n :=
    Option.isSome_iff_exists.1 (h.origin f (hsub.subset hf)).there
  let entry (f : StoredFile) : Address × Node := (r ++ f.names, (t.get? (r ++ f.names)).getD .directory)
  have hmap : (fs.map fun f => f.size + 1) = (fs.map entry).map fun x => x.2.size + 1 := by
    rw [map_map]
    refine map_congr_left fun f hf => ?_
    obtain ⟨n, hn⟩ := hnode hf
    simp only [Function.comp, entry, hn, Option.getD_some, hsizes f hf n hn]
  rw [hmap]
  refine FileTree.sum_le_weight (pairwise_map.2 ((h.apart.sublist hsub).imp fun hapart heq => ?_)) fun x hx => ?_
  · have hplace : r ++ _ = r ++ _ := (Prod.ext_iff.1 heq).1
    exact (hapart.append r).1 (by rw [hplace])
  · obtain ⟨f, hf, rfl⟩ := mem_map.1 hx
    obtain ⟨n, hn⟩ := hnode hf
    have hne : r ++ f.names ≠ [] := by simp [(h.origin f (hsub.subset hf)).outside.1]
    simp only [entry, hn, Option.getD_some]
    exact (wf.get?_eq_some_iff hne).1 hn

/-- **The record of a session is read back**, if the clock is right and the tree has less than `2 ^ 64` bytes
and files. -/
theorem SessionRecord.Fits.writable (h : record.Fits t r id now) (wf : t.WellFormed) (hweight : t.weight < 2 ^ 64)
    (hnow : now.IsValid) (hkept : Holding t s r id (record.files ++ held)) : record.Writable := by
  have hsum {fs : List StoredFile} (hsub : fs.Sublist record.files) : (fs.map fun f => f.size + 1).sum < 2 ^ 64 :=
    Nat.lt_of_le_of_lt (hkept.sum_le_weight wf (hsub.trans (sublist_append_left _ _))
      fun f hf => h.sizes f (hsub.subset hf)) hweight
  have hremoved : (record.removedFiles.map fun f => f.size + 1).sum < 2 ^ 64 := hsum filter_sublist
  rw [sum_map_add, map_const', sum_replicate] at hremoved
  refine ⟨h.createdAt ▸ hnow, fun f hf => ?_, ?_, ?_⟩
  · have := hsum (singleton_sublist.2 hf)
    simp at this
    omega
  · rw [h.fileCount]
    simp at hremoved
    omega
  · rw [h.totalSize]
    exact Nat.lt_of_le_of_lt (Nat.le_add_right _ _) hremoved

end Numbers

/-! ## Reading the record -/

section Load

theorem ensures_load_iff (wf : s.WellFormed) {directory : Path} (hdirectory : LeadsTo directory (sessionAt r id)) :
    (load directory).run.Ends (fun result _ u => u = s ∧
      ∀ record, result = .ok record ↔ ∃ contents, s.get? (recordAt r id) = some (.file contents) ∧
        ofContents? contents = some record) moves s := by
  have hlead : LeadsTo (directory.join recordFile) (recordAt r id) := leadsTo_within hdirectory (by decide)
  refine ensures_run_bind (ensures_monadLift (ensures_read trivial ?_))
  cases hread : s.read (directory.join recordFile) with
  | error e =>
    have hnone : ¬ ∃ contents, s.get? (recordAt r id) = some (.file contents) := by
      rintro ⟨contents, hfile⟩
      rw [(read_eq_ok_iff wf hlead).2 ⟨hfile, wantsDirectory_join_name hdirectory.text_ne (by decide)⟩] at hread
      cases hread
    have hfail (e' : QuarantineError) (record : SessionRecord) : Except.error e' = .ok record ↔
        ∃ contents, s.get? (recordAt r id) = some (.file contents) ∧ ofContents? contents = some record :=
      iff_of_false (fun h => by cases h) fun h => hnone (h.imp fun _ => And.left)
    cases e <;> exact ensures_pure.2 ⟨rfl, hfail _⟩
  | ok contents =>
    obtain ⟨hfile, -⟩ := (read_eq_ok_iff wf hlead).1 hread
    simp only [hfile, Option.some.injEq, Node.file.injEq, exists_eq_left']
    cases ofContents? contents with
    | none => exact ensures_pure.2 ⟨rfl, fun _ => iff_of_false (fun h => by cases h) (fun h => by cases h)⟩
    | some record =>
      refine ensures_pure.2 ⟨rfl, fun record' => ⟨fun h => ?_, fun h => ?_⟩⟩
      · cases h
        rfl
      · cases h
        rfl

theorem load_eq_ok_iff (wf : s.WellFormed) (hq : q.At r) (hid : IsName id) {record : SessionRecord} :
    ((load (q.directory id)).run.run s).1 = .ok record ↔ ∃ contents, s.get? (recordAt r id) = some (.file contents) ∧
        ofContents? contents = some record := by
  have h : (load (q.directory id)).run.Ensures _ _ [] s :=
    ensures_load_iff wf (leadsTo_directory hq hid)
  obtain ⟨_, -, hiff⟩ := h.result
  exact hiff record

end Load

/-! ## Locking and unlocking -/

namespace InSession

theorem room_lock (h : InSession t r id record held k s) : s.Room (lockAt r id) := by
  obtain ⟨contents, hlock⟩ := h.lock
  exact h.kept.wf.room (by simp [lockAt]) hlock

theorem withLocks (h : InSession t r id record held k s) (locks : List Address) :
    InSession t r id record held (locks.count (lockAt r id)) { s with locks } :=
  h.congr (h.kept.congr (WellFormed.locks h.kept.wf locks) fun _ => .inl rfl) (fun _ => .inl rfl) rfl

theorem ensures_lock (h : InSession t r id record held 0 s) (hq : q.At r) (hid : IsName id) :
    (q.lock id).run.Ends (fun result _ u => result = .ok () ∧ InSession t r id record held 1 u) moves s := by
  obtain ⟨contents, hlock⟩ := h.lock
  have hfree : s.locks.contains (lockAt r id) = false := by
    rw [← Bool.not_eq_true, contains_iff_mem]
    exact count_eq_zero.1 h.locks
  have hok : s.lock (q.lockFile id) = .ok (true, _) :=
    (lock_eq_ok_iff h.kept.wf (leadsTo_lockFile hq hid) (wantsDirectory_lockFile hq hid)).2
      ⟨h.room_lock, by simp [hlock], by rw [hfree]; rfl, rfl⟩
  refine ensures_run_bind (ensures_ofFiles (FileTask.ensures_lock trivial (fun e he => ?_) fun free u hu => ?_))
  · rw [hok] at he
    cases he
  · rw [hok] at hu
    cases hu
    refine ensures_pure.2 ⟨rfl, ?_⟩
    have := h.withLocks (lockAt r id :: s.locks)
    rw [count_cons_self, h.locks] at this
    rwa [show s.touch (lockAt r id) = s by rw [touch, hlock]; rfl]

theorem unlock (h : InSession t r id record held (k + 1) s) (hq : q.At r) (hid : IsName id) :
    InSession t r id record held k (s.unlock (q.lockFile id)) := by
  have := h.withLocks (s.locks.erase (lockAt r id))
  rw [count_erase_self, h.locks, Nat.add_sub_cancel] at this
  rwa [unlock_eq h.kept.wf (leadsTo_lockFile hq hid) h.room_lock]

/-! ## Restoring -/

theorem ensures_existingDirectory (h : InSession t r id record held k s) (hq : q.At r) (hid : IsName id) :
    (q.existingDirectory id).run.Ends (fun result _ u => result = .ok (q.directory id) ∧ u = s) moves s := by
  unfold existingDirectory
  rw [components_of_isName hid]
  refine ensures_run_bind (ensures_monadLift (ensures_isDirectory h.kept.wf (leadsTo_directory hq hid) trivial ?_))
  rw [h.directory]
  exact ensures_pure.2 ⟨rfl, rfl⟩

theorem ensures_load {record : SessionRecord} (h : InSession t r id (some record) held k s) (hq : q.At r)
    (hid : IsName id) (hw : record.Writable) :
    (load (q.directory id)).run.Ends (fun result _ u => result = .ok record ∧ u = s) moves s := by
  refine (ensures_load_iff h.kept.wf (leadsTo_directory hq hid)).imp ?_
  rintro result _ u ⟨rfl, hiff⟩
  exact ⟨(hiff record).2 ⟨_, h.record, ofContents?_contents hw⟩, rfl⟩

/-- **The files in the record of a session are put back, and the session is marked as restored.** -/
theorem ensures_restore {record : SessionRecord} (h : InSession t r id (some record) (record.files ++ held) 0 s)
    (wf : t.WellFormed) (hq : q.At r) (hid : IsName id) (hw : record.Writable) (hactive : record.status = .active) :
    (q.restore id).run.Ends (fun result _ u => result = .ok ⟨record.files.map (·.home), []⟩ ∧
        InSession t r id (some { record with status := .restored }) held 0 u) moves s := by
  refine ensures_run_bind ((h.ensures_existingDirectory hq hid).imp ?_)
  rintro _ ms _ ⟨rfl, rfl⟩
  refine ensures_run_bind ((h.ensures_lock hq hid).imp ?_)
  rintro _ ms u ⟨rfl, hu⟩
  refine ensures_run_bind (Ensures.bind (I := fun _ _ => True) (Q := fun result ms u =>
    result = .ok ⟨record.files.map (·.home), []⟩ ∧
      InSession t r id (some { record with status := .restored }) held 1 u) ?_ (fun _ _ _ => trivial) ?_)
  · refine ensures_run_bind ((hu.ensures_load hq hid hw).imp ?_)
    rintro _ ms _ ⟨rfl, rfl⟩
    simp only [hactive]
    rw [if_neg (by decide)]
    refine ensures_run_bind (ensures_monadLift ((hu.ensures_restoreFiles wf hq hid).imp ?_))
    rintro _ ms u ⟨rfl, hu⟩
    simp only [ofResults_eq]
    rw [if_pos (by simp)]
    refine ensures_run_bind ((hu.ensures_save hq hid _).imp ?_)
    rintro _ ms u ⟨rfl, -, hu⟩
    exact ensures_pure.2 ⟨rfl, hu⟩
  · rintro _ ms u ⟨rfl, hu⟩
    refine ensures_pure.2 (ensures_run_bind (ensures_monadLift (ensures_unlock trivial ?_)))
    exact ensures_pure.2 ⟨rfl, hu.unlock hq hid⟩

end InSession

end Deadwood
