import Deadwood.Proofs.Lines
import Deadwood.Proofs.MaskBytes
import Mathlib.Data.List.Basic
import Mathlib.Order.Bounds.Defs

/-!
# Line numbers and offsets

Offsets are turned into line numbers and line numbers into offsets by the list of line starts.

* **`lineIndex_exact`**: both agree with the line feeds among the bytes of the text.
-/

namespace Deadwood.Text

open List

variable {s : String} {line offset : Nat}

/-- **A line starts behind each line feed** among the bytes. -/
theorem lineStartsFrom_eq_idxsOf (start : Nat) (cs : List Char) :
    lineStartsFrom start cs = (Bytes.ofChars cs).idxsOf '\n'.toUInt8 (start + 1) := by
  induction cs generalizing start with
  | nil => rfl
  | cons c cs ih =>
    obtain ⟨b, tail, hbytes, htail, hb⟩ := Bytes.exists_utf8EncodeChar c
    have hsize : c.utf8Size = tail.length + 1 := by rw [← String.length_utf8EncodeChar, hbytes, length_cons]
    have hnone : tail.idxsOf '\n'.toUInt8 (start + 1 + 1) = [] := by
      rw [idxsOf_eq_nil_iff]
      intro x hx
      rw [beq_eq_false_iff_ne]
      rintro rfl
      exact absurd (htail _ hx) (by decide)
    rw [lineStartsFrom, ih, Bytes.ofChars_cons, hbytes, cons_append, idxsOf_cons, idxsOf_append, hnone, nil_append,
      hsize,
      show start + (tail.length + 1) + 1 = start + 1 + 1 + tail.length by omega]
    simp only [beq_iff_eq, hb '\n' (by decide)]
    split
    · rename_i hc
      have hone : '\n'.utf8Size = 1 := by decide
      rw [hc, hone] at hsize
      rw [← hsize]
    · rfl

namespace LineIndex

/-- Line starts up to an offset come first, one for each line feed before it. -/
theorem exists_lineStarts (s : String) (offset : Nat) : ∃ upTo beyond, (ofText s).starts = upTo ++ beyond ∧
    upTo.length = 1 + ((Bytes.ofText s).take offset).count '\n'.toUInt8 ∧ (∀ n ∈ upTo, n ≤ offset) ∧
    ∀ n ∈ beyond, offset < n := by
  have hparts := lineStartsFrom_eq_idxsOf 0 s.toList
  rw [← Bytes.ofText_eq_ofChars, ← take_append_drop offset (Bytes.ofText s), idxsOf_append] at hparts
  refine ⟨0 :: _, _, congrArg (0 :: ·) hparts, ?_, ?_, ?_⟩
  · rw [length_cons, length_idxsOf, Nat.add_comm]
  · intro n hn
    rcases mem_cons.1 hn with rfl | hn
    · exact Nat.zero_le offset
    · have := lt_add_of_mem_idxsOf n hn
      rw [length_take] at this
      omega
  · intro n hn
    have hge := ge_of_mem_idxsOf n hn
    have hlt := lt_add_of_mem_idxsOf n hn
    rw [length_drop, length_take] at *
    omega

theorem lineOf_eq_count (s : String) (offset : Nat) :
    (ofText s).lineOf offset = 1 + ((Bytes.ofText s).take offset).count '\n'.toUInt8 := by
  obtain ⟨upTo, beyond, hstarts, hlength, hle, hlt⟩ := exists_lineStarts s offset
  rw [lineOf_eq_countP, hstarts, countP_append, countP_eq_length.2 (by simpa using hle),
    countP_eq_zero.2 (by simpa using hlt), hlength,
    Nat.add_zero]

/-- **A line starts at or before an offset** if and only if the offset lies on that line or on a later one. -/
theorem offsetOf_le_iff (hline : 1 ≤ line) (hle : line ≤ 1 + feeds s) (offset : Nat) :
    (ofText s).offsetOf line ≤ offset ↔ line ≤ (ofText s).lineOf offset := by
  obtain ⟨upTo, beyond, hstarts, hlength, hle, hlt⟩ := exists_lineStarts s offset
  have hlines : (ofText s).starts.length = feeds s + 1 := by
    rw [ofText, length_cons, length_lineStartsFrom, feeds]
  rw [lineOf_eq_count, ← hlength, offsetOf, getElem?_eq_getElem (by omega), Option.getD_some]
  simp only [hstarts, getElem_append]
  split
  · exact iff_of_true (hle _ (getElem_mem _)) (by omega)
  · exact iff_of_false (Nat.not_le.2 (hlt _ (getElem_mem _))) (by omega)

theorem lineOf_succ_le (s : String) (offset : Nat) : (ofText s).lineOf (offset + 1) ≤ (ofText s).lineOf offset + 1 := by
  rw [lineOf_eq_count, lineOf_eq_count, take_add_one, count_append]
  have hone : ((Bytes.ofText s)[offset]?.toList).count '\n'.toUInt8 ≤ 1 :=
    Nat.le_trans count_le_length (by cases (Bytes.ofText s)[offset]? <;> simp)
  omega

/-- **The offset of a line is the first that lies on it.** -/
theorem isLeast_offsetOf (hline : 1 ≤ line) (hle : line ≤ 1 + feeds s) :
    IsLeast {offset | (ofText s).lineOf offset = line} ((ofText s).offsetOf line) := by
  have hiff := offsetOf_le_iff hline hle
  refine ⟨Nat.le_antisymm ?_ ((hiff _).1 (Nat.le_refl _)),
    fun offset hoffset => (hiff offset).2 (Nat.le_of_eq hoffset.symm)⟩
  -- the offset before lies on an earlier line, and one byte leads no further than to the next line
  cases hstart : (ofText s).offsetOf line with
  | zero => simpa [lineOf_eq_count] using hline
  | succ before =>
    have hbefore : ¬ line ≤ (ofText s).lineOf before := fun h => absurd ((hiff before).2 h) (by omega)
    have := lineOf_succ_le s before
    omega

/-- **Lines are numbered by line feeds.** The line of an offset is one more than the line feeds before it; the offset of
a line is the first that lies on it, so that every offset lies between the start of its line and that of the next. In a
part of a text, lines are counted on from the line that the part starts on. -/
theorem lineIndex_exact :
    (∀ s offset, (ofText s).lineOf offset = 1 + ((Bytes.ofText s).take offset).count '\n'.toUInt8) ∧
    (∀ s line, 1 ≤ line → line ≤ 1 + feeds s →
      IsLeast {offset | (ofText s).lineOf offset = line} ((ofText s).offsetOf line)) ∧
    (∀ s offset, (ofText s).offsetOf ((ofText s).lineOf offset) ≤ offset ∧
      ((ofText s).lineOf offset < 1 + feeds s → offset < (ofText s).offsetOf ((ofText s).lineOf offset + 1))) ∧
    ∀ a b c offset, offset ≤ b.utf8ByteSize → (ofText (a ++ b ++ c)).lineOf (a.utf8ByteSize + offset) =
      (ofText b).lineOf offset + (ofText (a ++ b ++ c)).lineOf a.utf8ByteSize - 1 := by
  refine ⟨lineOf_eq_count, fun s line => isLeast_offsetOf, fun s offset => ⟨?_, fun hnext => ?_⟩,
    fun a b c offset hoffset => ?_⟩
  · exact (offsetOf_le_iff (one_le_lineOf s offset) (lineOf_le s offset) offset).2 (Nat.le_refl _)
  · have := offsetOf_le_iff (Nat.le_add_left 1 _) (Nat.succ_le_of_lt hnext) offset
    omega
  · have hsize (s : String) : (Bytes.ofText s).length = s.utf8ByteSize := rfl
    have hbytes : Bytes.ofText (a ++ b ++ c) = Bytes.ofText a ++ (Bytes.ofText b ++ Bytes.ofText c) := by
      simp [Bytes.ofText_eq_ofChars]
    rw [← hsize] at hoffset
    simp only [lineOf_eq_count, hbytes, ← hsize, take_length_add_append, take_left, count_append,
      take_append_of_le_length hoffset]
    omega

/-- A script below a line, with a character of two bytes and an empty line in it. -/
theorem lineIndex_exact_script : feeds "é\n\nx" = 2 ∧
    IsLeast {offset | (ofText "é\n\nx").lineOf offset = 3} ((ofText "é\n\nx").offsetOf 3) ∧
    (ofText "é\n\nx").lineOf 1 = 1 ∧ 1 < (ofText "é\n\nx").offsetOf ((ofText "é\n\nx").lineOf 1 + 1) ∧
    (ofText ("<p>\n" ++ "é\n\nx" ++ "")).lineOf (4 + 3) = (ofText "é\n\nx").lineOf 3 + 2 - 1 :=
  ⟨by decide, lineIndex_exact.2.1 _ 3 (by decide) (by decide), by decide,
    (lineIndex_exact.2.2.1 "é\n\nx" 1).2 (by decide), lineIndex_exact.2.2.2 "<p>\n" "é\n\nx" "" 3 (by decide)⟩

end LineIndex

end Deadwood.Text
