import Deadwood.Proofs.Json
import Deadwood.Proofs.Moment
import Deadwood.Quarantine.Record

/-!
# Reading the record of a session back

* `SessionRecord.Writable`: the moment of a record is a valid one and its numbers have at most 64 bits;
* **`SessionRecord.ofContents?_contents`**: such a record is read back from the file that it is kept in.
-/

namespace Deadwood

open Option List

variable {names : List String}

theorem Bytes.text?_ofText (s : String) : (Bytes.ofText s).text? = some s := by
  unfold Bytes.text? Bytes.ofText
  rw [Array.toArray_toList]
  exact dif_pos s.isValidUTF8

namespace Json

theorem natural?_natural {n : Nat} (h : n < 2 ^ 64) : (natural n).natural? = some n := by
  have hrange : (0 : Int) ≤ n ∧ (n : Int) < Int.pow 2 64 := ⟨Int.natCast_nonneg n, Int.ofNat_lt.2 h⟩
  rw [natural, natural?, if_pos (by simpa using hrange), Int.toNat_natCast]

end Json

open Json

theorem eraseDups_eq_self (h : names.Nodup) : names.eraseDups = names := by
  induction names with
  | nil => rfl
  | cons name names ih =>
    have hfilter : names.filter (fun other => !other == name) = names := by
      refine filter_eq_self.2 fun other hother => ?_
      have hne : other ≠ name := fun heq => (nodup_cons.1 h).1 (heq ▸ hother)
      simpa using hne
    rw [eraseDups_cons, hfilter, ih (nodup_cons.1 h).2]

theorem namedValues?_object {fields : List (String × Json)}
    (hknown : ∀ name ∈ fields.map (·.1), names.contains name = true) (hnodup : (fields.map (·.1)).Nodup) :
    namedValues? names (.object fields) = some fields := by
  have hfilter : (fields.filter fun field => names.contains field.1) = fields :=
    filter_eq_self.2 fun field hfield => hknown field.1 (mem_map_of_mem hfield)
  unfold namedValues?
  dsimp only
  rw [hfilter, eraseDups_eq_self hnodup, length_map]
  exact if_pos (beq_self_eq_true _)

theorem StoredFile.ofJson?_toJson {f : StoredFile} (h : f.size < 2 ^ 64) : ofJson? f.toJson = some f := by
  have hsize := natural?_natural h
  obtain ⟨home, stored, size, edited, hash⟩ := f
  have hvalues : namedValues? ["originalPath", "quarantinePath", "size", "edited", "writtenHash"]
      (toJson ⟨home, stored, size, edited, hash⟩) = some ([("originalPath", .string home.text),
        ("quarantinePath", .string stored.text), ("size", .natural size), ("edited", .bool edited)] ++
        (hash.map fun hash => ("writtenHash", .string hash)).toList) := by
    refine namedValues?_object ?_ ?_ <;> cases hash <;> simp
  unfold ofJson?
  refine bind_eq_some_iff.2 ⟨_, hvalues, ?_⟩
  refine bind_eq_some_iff.2 ⟨.string home.text, rfl, ?_⟩
  refine bind_eq_some_iff.2 ⟨home.text, rfl, ?_⟩
  refine bind_eq_some_iff.2 ⟨.string stored.text, rfl, ?_⟩
  refine bind_eq_some_iff.2 ⟨stored.text, rfl, ?_⟩
  refine bind_eq_some_iff.2 ⟨.natural size, rfl, ?_⟩
  refine bind_eq_some_iff.2 ⟨size, hsize, ?_⟩
  cases hash <;> rfl

theorem StoredFile.mapM_ofJson? {files : List StoredFile} (h : ∀ f ∈ files, f.size < 2 ^ 64) :
    (files.map toJson).mapM ofJson? = some files := by
  induction files with
  | nil => rfl
  | cons f files ih =>
    rw [map_cons, mapM_cons, ofJson?_toJson (h f mem_cons_self), ih (forall_mem_cons.1 h).2]
    rfl

namespace SessionRecord

variable {record : SessionRecord}

/-- A record that is read back: its moment is a valid one, and its numbers have at most 64 bits. -/
structure Writable (record : SessionRecord) : Prop where
  createdAt : record.createdAt.IsValid
  sizes : ∀ f ∈ record.files, f.size < 2 ^ 64
  fileCount : record.fileCount < 2 ^ 64
  totalSize : record.totalSize < 2 ^ 64

theorem ofJson?_toJson (h : record.Writable) : ofJson? record.toJson = some record := by
  have hcount := natural?_natural h.fileCount
  have htotal := natural?_natural h.totalSize
  have hfiles := StoredFile.mapM_ofJson? h.sizes
  obtain ⟨id, createdAt, status, files, fileCount, totalSize⟩ := record
  have hvalues : namedValues? ["sessionId", "createdAt", "status", "manifest", "fileCount", "totalSize"]
      (toJson ⟨id, createdAt, status, files, fileCount, totalSize⟩) =
      some [("sessionId", .string id), ("createdAt", .string createdAt.rfc3339), ("status", .string status.name),
        ("manifest", .array (files.map StoredFile.toJson)), ("fileCount", .natural fileCount),
        ("totalSize", .natural totalSize)] :=
    namedValues?_object (by simp) (by simp)
  unfold ofJson?
  refine bind_eq_some_iff.2 ⟨_, hvalues, ?_⟩
  refine bind_eq_some_iff.2 ⟨.string id, rfl, ?_⟩
  refine bind_eq_some_iff.2 ⟨id, rfl, ?_⟩
  refine bind_eq_some_iff.2 ⟨.string createdAt.rfc3339, rfl, ?_⟩
  refine bind_eq_some_iff.2 ⟨createdAt.rfc3339, rfl, ?_⟩
  refine bind_eq_some_iff.2 ⟨createdAt, Moment.read?_rfc3339 h.createdAt, ?_⟩
  refine bind_eq_some_iff.2 ⟨.string status.name, rfl, ?_⟩
  refine bind_eq_some_iff.2 ⟨status, by cases status <;> rfl, ?_⟩
  refine bind_eq_some_iff.2 ⟨.array (files.map StoredFile.toJson), rfl, ?_⟩
  refine bind_eq_some_iff.2 ⟨files.map StoredFile.toJson, rfl, ?_⟩
  refine bind_eq_some_iff.2 ⟨files, hfiles, ?_⟩
  refine bind_eq_some_iff.2 ⟨.natural fileCount, rfl, ?_⟩
  refine bind_eq_some_iff.2 ⟨fileCount, hcount, ?_⟩
  refine bind_eq_some_iff.2 ⟨.natural totalSize, rfl, ?_⟩
  exact bind_eq_some_iff.2 ⟨totalSize, htotal, rfl⟩

theorem readable_toJson (h : record.Writable) : Readable depthLimit record.toJson := by
  have hfile {depth : Nat} {f : StoredFile} (hf : f.size < 2 ^ 64) : Readable (depth + 2) f.toJson := by
    refine .object (Nat.succ_ne_zero _) fun field hfield => ?_
    simp only [mem_append, mem_cons, not_mem_nil, or_false, mem_toList, map_eq_some_iff] at hfield
    obtain (rfl | rfl | rfl | rfl) | ⟨hash, -, rfl⟩ := hfield
    · exact .string _
    · exact .string _
    · exact .natural hf
    · exact .bool _
    · exact .string _
  refine .object (by decide) fun field hfield => ?_
  simp only [mem_cons, not_mem_nil, or_false] at hfield
  obtain rfl | rfl | rfl | rfl | rfl | rfl := hfield
  · exact .string _
  · exact .string _
  · exact .string _
  · refine .array (by decide) fun item hitem => ?_
    obtain ⟨f, hf, rfl⟩ := mem_map.1 hitem
    exact hfile (h.sizes f hf)
  · exact .natural h.fileCount
  · exact .natural h.totalSize

/-- **A record is read back from the file that it is kept in.** -/
theorem ofContents?_contents (h : record.Writable) : ofContents? record.contents = some record := by
  rw [ofContents?, contents, Bytes.text?_ofText, bind_some, read?_pretty (readable_toJson h), bind_some,
    ofJson?_toJson h]

end SessionRecord

end Deadwood
