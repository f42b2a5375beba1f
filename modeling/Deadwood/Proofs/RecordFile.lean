import Deadwood.Proofs.Discovery
import Deadwood.Proofs.Record
import Deadwood.Proofs.Session

/-!
# The file of a record

A record is written to a draft, which is then moved to its place. What is read there afterwards is the
record, for all paths, fingerprints and numbers that it may hold.

* **`load_save`**: a record that was saved is loaded, and saving it again writes the same bytes.
-/

namespace Deadwood

open FileTree FileTask Deadwood.Path

namespace KeepsRecord

variable {directory : Path} {a : Address} {t : FileTree} (h : KeepsRecord directory a t)
include h

theorem run_save (record : SessionRecord) :
    ((record.save directory).run.run t).1 = .ok () ∧ KeepsRecord directory a ((record.save directory).run.run t).2 ∧
      ((record.save directory).run.run t).2.read (directory.join recordFile) = .ok record.contents := by
  have hsave : (record.save directory).run.Ensures _ _ [] t := h.ensures_save record
  obtain ⟨_, hok, hkeeps, hread, -⟩ := hsave.result
  exact ⟨hok, hkeeps, hread⟩

end KeepsRecord

theorem answer_load {directory : Path} {t : FileTree} {record : SessionRecord} (hw : record.Writable)
    (hread : t.read (directory.join recordFile) = .ok record.contents) :
    answer t (SessionRecord.load directory).run = .ok record := by
  have hload : (SessionRecord.load directory).run.Ends (fun result _ _ => result = .ok record) [] t := by
    refine ensures_run_bind (ensures_monadLift (ensures_read trivial ?_))
    rw [hread]
    dsimp only
    rw [SessionRecord.ofContents?_contents hw]
    exact ensures_pure.2 rfl
  exact hload.result.choose_spec

/-- **A record that was saved is loaded.** This goes for records with any files, at any paths, that were
opened at a moment with a year of four digits, or at any other valid moment. When the loaded record is
saved in its turn, the file has the same bytes as before. -/
theorem load_save {directory : Path} {a : Address} {t : FileTree} (h : KeepsRecord directory a t)
    {record : SessionRecord} (hw : record.Writable) :
    let saved := (record.save directory).run.run t
    saved.1 = .ok () ∧ ∃ loaded, answer saved.2 (SessionRecord.load directory).run = .ok loaded ∧ loaded = record ∧
      let again := (loaded.save directory).run.run saved.2
      again.1 = .ok () ∧ ∃ contents, saved.2.read (directory.join recordFile) = .ok contents ∧
        again.2.read (directory.join recordFile) = .ok contents := by
  intro saved
  obtain ⟨hok, hkeeps, hread⟩ := h.run_save record
  obtain ⟨hok', -, hread'⟩ := hkeeps.run_save record
  exact ⟨hok, record, answer_load hw hread, rfl, hok', record.contents, hread, hread'⟩

/-- A record with a file taken and a file edited, whose paths have quotes, backslashes, a control character
and letters of other scripts, made in the last nanosecond of a leap day. -/
def oddRecord : SessionRecord where
  id := "20240229-235959-999"
  createdAt := ⟨19782, 86399, 999999999⟩
  files := [{ home := ⟨"a \"b\"\\\n\x01/é字.py"⟩, stored := ⟨"files/a \"b\"\\\n\x01/é字.py"⟩, size := 2 ^ 64 - 1 },
    { home := ⟨"𝄞.js"⟩, stored := ⟨"files/𝄞.js"⟩, size := 0, edited := true, writtenHash := some "e3b0" }]
  fileCount := 1
  totalSize := 2 ^ 64 - 1

theorem load_save_oddRecord :
    let t : FileTree := { nodes := [(["p"], .directory)] }
    oddRecord.Writable ∧ ((oddRecord.save ⟨"/p"⟩).run.run t).1 = .ok () ∧
      answer ((oddRecord.save ⟨"/p"⟩).run.run t).2 (SessionRecord.load ⟨"/p"⟩).run = .ok oddRecord := by
  intro t
  have hw : oddRecord.Writable :=
    ⟨⟨by decide, .inl (by decide), by decide⟩, by decide, by decide, by decide⟩
  have hroot : pathOf ["p"] = ⟨"/p"⟩ := congrArg Path.mk (by decide)
  have ht : KeepsRecord ⟨"/p"⟩ ["p"] t :=
    ⟨by decide, hroot ▸ leadsTo_pathOf (by decide), by decide, by decide, by decide⟩
  obtain ⟨hok, loaded, hload, rfl, -⟩ := load_save ht hw
  exact ⟨hw, hok, hload⟩

end Deadwood
