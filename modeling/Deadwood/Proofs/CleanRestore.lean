import Deadwood.Proofs.Preview

/-!
# Cleaning and restoring

* **`restore_clean`**: restoring undoes cleaning.
-/

namespace Deadwood

open List FileTree FileTask Deadwood.Path

variable {t : FileTree} {s : Scan} {r : Address} {now : Moment} {extra : List Path} {report : CleanReport} {id : String}

theorem Scan.IsOutcomeOf.leftBy (hs : s.IsOutcomeOf t r) (wf : t.WellFormed)
    (hclean : ((s.clean now extra).run.run t).1 = .ok report) (hid : report.sessionId = some id) :
    s.LeftBy t r now extra id ((s.clean now extra).run.run t).2 := by
  obtain ⟨_, ⟨report', hresult, -, hleft⟩ | ⟨e, -, herror⟩⟩ := (ensures_clean wf hs now extra).result
  · cases hclean.symm.trans hresult
    exact hleft id hid
  · cases hclean.symm.trans herror

/-- **Restoring undoes cleaning.** A project is cleaned after a scan, with some further files, and the session that is
reported is restored. Then no file fails, everything outside the store is as it was, and the session is recorded as
restored. -/
theorem restore_clean [TreeReader] (wf : t.WellFormed) (hweight : t.weight < 2 ^ 64) (hnow : now.IsValid) (s : Scan)
    (extra : List Path) :
    (∀ config directory, answer t (scan config directory) = .ok s → ∃ r, s.IsOutcomeOf t r) ∧
    ∀ r report id, s.IsOutcomeOf t r → ((s.clean now extra).run.run t).1 = .ok report → report.sessionId = some id →
      let restored := ((Quarantine.mk s.root).restore id).run.run ((s.clean now extra).run.run t).2
      (∃ back, restored.1 = .ok back ∧ back.failed = []) ∧
      (t.get? r = some .directory ∧ ∀ c, ¬ storeAt r <+: c → restored.2.get? c = t.get? c) ∧
      ∃ record, answer restored.2 (SessionRecord.load ((Quarantine.mk s.root).directory id)).run = .ok record ∧
        record.id = id ∧ record.status = .restored := by
  refine ⟨fun _ _ hscan => isOutcomeOf_scan wf hscan, ?_⟩
  intro r report id hs hclean hid restored
  obtain ⟨hr, hname, record, htree, hfits, -⟩ := hs.leftBy wf hclean hid
  have htree' : InSession t r id (some record) (record.files ++ []) 0 ((s.clean now extra).run.run t).2 := by
    rwa [List.append_nil]
  have hw : record.Writable := hfits.writable wf hweight hnow htree'.kept
  have hrestore : ((Quarantine.mk s.root).restore id).run.Ensures _ _ [] _ :=
    htree'.ensures_restore wf hs.root hname hw hfits.status
  obtain ⟨_, hresult, hback⟩ := hrestore.result
  have hw' : SessionRecord.Writable { record with status := .restored } :=
    ⟨hw.createdAt, hw.sizes, hw.fileCount, hw.totalSize⟩
  have hload : (SessionRecord.load ((Quarantine.mk s.root).directory id)).run.Ensures _ _ [] _ :=
    hback.ensures_load hs.root hname hw'
  obtain ⟨_, hload, -⟩ := hload.result
  exact ⟨⟨_, hresult, rfl⟩, ⟨hr, hback.kept.untouched.same⟩, _, hload, hfits.id, rfl⟩

/-- A script is moved away, another one is edited, and both are put back. -/
theorem restore_clean_importing :
    let tree := importingTree (some (.file [10]))
    importingScan.IsOutcomeOf tree ["p"] ∧ ∃ report id u,
      (importingScan.clean ⟨20000, 0, 0⟩ [⟨"b.js"⟩]).run.run tree = (.ok report, u) ∧ report.sessionId = some id ∧
      report.filesRemoved = 1 ∧ report.importsPruned = 1 ∧ ∀ c, ¬ storeAt ["p"] <+: c →
        (((Quarantine.mk importingScan.root).restore id).run.run u).2.get? c = tree.get? c := by
  intro tree
  obtain ⟨report, u, hrun, hfiles, himports, hsome⟩ := cleaned_importing
  obtain ⟨id, hid⟩ := Option.isSome_iff_exists.1 hsome
  have hback := (restore_clean (by decide) (by decide) ⟨by decide, by decide, by decide⟩ importingScan
    [⟨"b.js"⟩]).2 _ report id isOutcomeOf_importingScan (congrArg Prod.fst hrun) hid
  rw [hrun] at hback
  exact ⟨isOutcomeOf_importingScan, report, id, u, hrun, hid, hfiles, himports, hback.2.1.2⟩

/-- **A file that is not in the record does not come back.** The script has been moved, and the record that names it
could not be written: nothing is restored, and nothing fails. -/
theorem restore_misses_unrecorded :
    unrecorded.1.toOption.map (·.sessionId) = some (some freshRecord.id) ∧
      (importingTree (some (.file [10]))).get? ["p", "a.js"] ≠ none ∧
      let restored := ((Quarantine.mk importingScan.root).restore freshRecord.id).run.run unrecorded.2
      restored.1 = .ok ⟨[], []⟩ ∧ restored.2.get? ["p", "a.js"] = none := by
  obtain ⟨-, -, hreport, hwf, hgone, hdirectory, hfiles, hrecord, hdraft, hlock, hlocks⟩ := unrecorded_spec
  have hid := congrArg (Option.map fun x : Nat × List String × Option String => x.2.2) hreport
  rw [Option.map_map] at hid
  -- The tree is that of a session with an empty record, and the stored script is one of its other files.
  have htree : InSession unrecorded.2 ["p"] freshRecord.id (some freshRecord) (freshRecord.files ++ []) 0 unrecorded.2 :=
    ⟨Untouched.kept ⟨hwf, fun _ _ => rfl⟩, hdirectory, hfiles, hrecord, hdraft, ⟨_, hlock⟩, hlocks⟩
  have hrestore : ((Quarantine.mk importingScan.root).restore freshRecord.id).run.Ensures _ _ [] unrecorded.2 :=
    htree.ensures_restore hwf isOutcomeOf_importingScan.root (by decide)
      ⟨⟨by decide, by decide, by decide⟩, by decide, by decide, by decide⟩ rfl
  obtain ⟨_, hresult, hback⟩ := hrestore.result
  exact ⟨hid, by decide, hresult, (hback.kept.untouched.same _ (by decide)).trans hgone⟩

end Deadwood
