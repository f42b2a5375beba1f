import Deadwood.Proofs.Discovery
import Deadwood.Proofs.Restore

/-!
# Interrupted sessions

Setting files aside may be stopped after any step, as when the machine loses power. The locks are gone then,
and the session can be restored.

* **`interrupted_setAside`**: no contents are lost, and all files are put back but for the one that was moved
  by the last move of all.
-/

namespace Deadwood

open List FileTree FileTask Deadwood.Path

/-- Where setting files aside may be stopped: nothing is taken, or the session holds what is in its record, and
at most one file more. -/
def Interrupted (t : FileTree) (q : Quarantine) (r : Address) (now : Moment) (moves : List (Path × Path))
    (s : FileTree) : Prop :=
  Untouched t r s ∨ ∃ id k record pending, IsName id ∧
    InSession t r id (some record) (record.files ++ pending) k s ∧ record.Fits t r id now ∧
    Pending q id moves pending

section Interruption

variable {t s : FileTree} {q : Quarantine} {r : Address} {id : String} {now : Moment} {session : OpenSession}
  {moves : List (Path × Path)} {paths : List Path}

theorem Stoppable.interrupted (h : Stoppable t q r id now moves s) (hid : IsName id) :
    Interrupted t q r now moves s := by
  obtain ⟨record, pending, htree, hfits, -, hpending⟩ := h
  exact .inr ⟨id, 1, record, pending, hid, htree, hfits, hpending⟩

theorem Interrupted.wf (h : Interrupted t q r now moves s) : s.WellFormed := by
  rcases h with h | ⟨id, k, record, pending, -, htree, -⟩
  · exact h.wf
  · exact htree.kept.wf

theorem Recorded.ensures_moveAll (h : Recorded t q r id now session moves s) (hq : q.At r) (hid : IsName id)
    (hpaths : ∀ p ∈ paths, ∃ m, p.IsRelative m ∧ (m = [] ∨ IsOutside m)) :
    (Quarantine.moveAll session paths).Ensures (Stoppable t q r id now)
      (fun result => Recorded t q r id now result.2) moves s := by
  induction paths generalizing session moves s with
  | nil => exact ensures_pure.2 h
  | cons p paths ih =>
    obtain ⟨m, hrel, hm⟩ := hpaths p mem_cons_self
    refine (h.moveIn hq hid hrel hm).bind (fun _ _ h => h) ?_
    rintro ⟨result, session'⟩ ms u hu
    refine (ih hu (forall_mem_cons.1 hpaths).2).bind (fun _ _ h => h) ?_
    rintro ⟨failed, session''⟩ ms v hv
    cases result <;> exact ensures_pure.2 hv

theorem ensures_setAside (wf : t.WellFormed) (hq : q.At r) (hr : t.get? r = some .directory)
    (hpaths : ∀ p ∈ paths, ∃ m, p.IsRelative m ∧ (m = [] ∨ IsOutside m)) :
    (q.setAside now paths).run.Ensures (Interrupted t q r now) (fun _ => Interrupted t q r now) [] t := by
  refine ensures_run_bind ((ensures_openSession wf hq hr).mono (fun _ _ h => .inl h.2) ?_)
  rintro (e | session) ms u hu
  · exact .inl hu.2
  obtain ⟨hid, hu⟩ := hu
  refine ensures_run_bind (ensures_monadLift ((hu.ensures_moveAll hq hid hpaths).mono
    (fun _ _ h => h.interrupted hid) ?_))
  rintro ⟨failed, session'⟩ ms u hu
  refine ensures_run_bind (ensures_monadLift (ensures_bind.2 (ensures_unlock (hu.stoppable.interrupted hid)
    (ensures_pure.2 (ensures_pure.2 ?_)))))
  -- the lock is given up last
  have htree := hu.tree
  rw [hu.quarantine, hu.fits.id]
  refine .inr ⟨_, 0, session'.record, [], hid, ?_, hu.fits, .inl ⟨rfl, hu.last⟩⟩
  rw [append_nil]
  exact htree.unlock hq hid

/-! ## After the interruption -/

theorem Holding.file_or_stored {fs : List StoredFile} (h : Holding t s r id fs) (wf : t.WellFormed) {m : List String}
    (hm : IsOutside m) {contents : Bytes} (hfile : t.get? (r ++ m) = some (.file contents)) :
    ((∀ f ∈ fs, ¬ f.names <+: m) ∧ s.get? (r ++ m) = some (.file contents)) ∨
      ∃ f ∈ fs, f.names <+: m ∧ s.get? (filesAt r id ++ m) = some (.file contents) := by
  by_cases hf : ∃ f ∈ fs, f.names <+: m
  · obtain ⟨f, hf, x, rfl⟩ := hf
    refine .inr ⟨f, hf, prefix_append _ x, ?_⟩
    rw [← append_assoc, h.get?_stored wf hf, append_assoc, hfile]
  · have hnone : ∀ f ∈ fs, ¬ f.names <+: m := fun f hmem hp => hf ⟨f, hmem, hp⟩
    have hstore : ¬ storeAt r <+: r ++ m := hm.not_storeAt_prefix_of_prefix prefix_rfl
    refine .inl ⟨hnone, ?_⟩
    rcases h.rest (r ++ m) hstore fun f hmem hp => hnone f hmem ((prefix_append_right_inj r).1 hp) with
      hsame | ⟨hdir, -⟩
    · rw [hsame, hfile]
    · rw [hfile] at hdir
      cases hdir

/-- **A session that is interrupted loses no contents, and one file at most from its record.** Stop setting files
aside after any number of steps. Then the project is as it was, or there is a session whose record can be read, and a
list `lost` of no file, or of the one that was moved last. Every file is in place or stored. Once the locks are gone,
restoring the session fails for no file in its record, and puts all files back but those that are lost. -/
theorem interrupted_setAside (wf : t.WellFormed) (hweight : t.weight < 2 ^ 64) (hnow : now.IsValid)
    (hq : LeadsTo q.root r) (hr : t.get? r = some .directory)
    (hpaths : ∀ p ∈ paths, ∃ m, p.IsRelative m ∧ (m = [] ∨ IsOutside m)) (n : Nat) :
    let s := (q.setAside now paths).run.after n t
    (∀ c, ¬ storeAt r <+: c → s.get? c = t.get? c) ∨
    ∃ id record lost, Pending q id ((q.setAside now paths).run.movesBefore n t) lost ∧
      answer s (SessionRecord.load (q.directory id)).run = .ok record ∧
      (∀ m contents, IsOutside m → t.get? (r ++ m) = some (.file contents) →
        s.get? (r ++ m) = some (.file contents) ∨
          (∃ f ∈ record.files ++ lost, f.names <+: m) ∧ s.get? (filesAt r id ++ m) = some (.file contents)) ∧
      let restored := (q.restore id).run.run { s with locks := [] }
      restored.1 = .ok ⟨record.files.map (·.home), []⟩ ∧
      ∀ m contents, IsOutside m → t.get? (r ++ m) = some (.file contents) → (∀ f ∈ lost, ¬ f.names <+: m) →
        restored.2.get? (r ++ m) = some (.file contents) := by
  intro s
  have hsteps : (q.setAside now paths).run.Ensures (Interrupted t q r now) _ [] t := ensures_setAside wf hq hr hpaths
  have hstopped := hsteps.after (fun _ _ _ h => h) n
  rw [List.nil_append] at hstopped
  rcases hstopped with hsame | ⟨id, k, record, lost, hid, htree, hfits, hpending⟩
  · exact .inl hsame.same
  have hw : record.Writable := hfits.writable wf hweight hnow htree.kept
  have hload : (SessionRecord.load (q.directory id)).run.Ensures _ _ [] s := htree.ensures_load hq hid hw
  obtain ⟨_, hload, -⟩ := hload.result
  have hrestore : (q.restore id).run.Ensures _ _ [] { s with locks := [] } :=
    (htree.withLocks []).ensures_restore wf hq hid hw hfits.status
  obtain ⟨_, hresult, hback⟩ := hrestore.result
  refine .inr ⟨id, record, lost, hpending, hload, fun m contents hm hfile => ?_, hresult,
    fun m contents hm hfile hlost => ?_⟩
  · rcases htree.kept.file_or_stored wf hm hfile with ⟨-, hhome⟩ | ⟨f, hf, hp, hstored⟩
    · exact .inl hhome
    · exact .inr ⟨⟨f, hf, hp⟩, hstored⟩
  · rcases hback.kept.file_or_stored wf hm hfile with ⟨-, hhome⟩ | ⟨f, hf, hp, -⟩
    · exact hhome
    · exact absurd hp (hlost f hf)

end Interruption

def loneScript : FileTree := { nodes := [(["p"], .directory), (["p", "a.py"], .file [120])] }

theorem loneScript_spec : LeadsTo ⟨"/p"⟩ ["p"] ∧
    ∀ p ∈ [(⟨"a.py"⟩ : Path)], ∃ m, p.IsRelative m ∧ (m = [] ∨ IsOutside m) := by
  have hroot : pathOf ["p"] = ⟨"/p"⟩ := congrArg Path.mk (by decide)
  refine ⟨hroot ▸ leadsTo_pathOf (by decide), fun p hp => ?_⟩
  rw [mem_singleton.1 hp]
  exact ⟨["a.py"], isRelative_of_isName (by decide), .inr (by decide)⟩

theorem interrupted_setAside_loneScript :
    let q : Quarantine := ⟨⟨"/p"⟩⟩
    let s := (q.setAside ⟨20000, 0, 0⟩ [⟨"a.py"⟩]).run.after 15 loneScript
    loneScript.WellFormed ∧ ((∀ c, ¬ storeAt ["p"] <+: c → s.get? c = loneScript.get? c) ∨
      ∃ id record lost, Pending q id ((q.setAside ⟨20000, 0, 0⟩ [⟨"a.py"⟩]).run.movesBefore 15 loneScript) lost ∧
        answer s (SessionRecord.load (q.directory id)).run = .ok record) := by
  intro q s
  have hmain := interrupted_setAside (by decide : loneScript.WellFormed) (by decide)
    (⟨by decide, by decide, by decide⟩ : Moment.IsValid ⟨20000, 0, 0⟩) loneScript_spec.1 (by decide)
    loneScript_spec.2 15
  refine ⟨by decide, hmain.imp_right ?_⟩
  rintro ⟨id, record, lost, hpending, hload, -⟩
  exact ⟨id, record, lost, hpending, hload⟩

def emptyRecord : SessionRecord := { id := "20241004-000000-000", createdAt := ⟨20000, 0, 0⟩ }

def movedScript : FileTree := ((Quarantine.mk ⟨"/p"⟩).setAside ⟨20000, 0, 0⟩ [⟨"a.py"⟩]).run.after 13 loneScript

theorem movedScript_spec : movedScript.get? ["p", "a.py"] = none ∧
    movedScript.get? (recordAt ["p"] emptyRecord.id) = some (.file emptyRecord.contents) := by
  decide +kernel

theorem wf_movedScript : movedScript.WellFormed := by
  have hsteps : ((Quarantine.mk ⟨"/p"⟩).setAside ⟨20000, 0, 0⟩ [⟨"a.py"⟩]).run.Ensures _ _ [] loneScript :=
    ensures_setAside (by decide) loneScript_spec.1 (by decide) loneScript_spec.2
  exact (hsteps.after (fun _ _ _ h => h) 13).wf

/-- **A file that has just been moved is not in the record.** After thirteen steps the script is not in its place any
more, and the record on disk has no file. -/
theorem interrupted_setAside_unrecorded :
    loneScript.get? ["p", "a.py"] = some (.file [120]) ∧ movedScript.get? ["p", "a.py"] = none ∧
      answer movedScript (SessionRecord.load ((Quarantine.mk ⟨"/p"⟩).directory emptyRecord.id)).run = .ok emptyRecord ∧
      emptyRecord.files = [] := by
  have hw : emptyRecord.Writable := ⟨⟨by decide, by decide, by decide⟩, by decide, by decide, by decide⟩
  have hload := (load_eq_ok_iff wf_movedScript loneScript_spec.1 (by decide : IsName emptyRecord.id)).2
    ⟨_, movedScript_spec.2, SessionRecord.ofContents?_contents hw⟩
  rw [answer]
  exact ⟨by decide, movedScript_spec.1, hload, rfl⟩

end Deadwood
