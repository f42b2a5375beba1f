import Deadwood.Text.Utf8

/-!
# Text as bytes

A character of ASCII is one byte; the bytes of any other character are no characters of ASCII.
-/

namespace Deadwood

open List UInt8

def IsAscii (c : Char) : Prop := c.toNat < 128

instance : DecidablePred IsAscii := fun _ => inferInstanceAs (Decidable (_ < _))

namespace Bytes

variable {c : Char} {n : Nat} {b : UInt8}

def ofChars (cs : List Char) : Bytes := cs.flatMap String.utf8EncodeChar

@[simp] theorem ofChars_nil : ofChars [] = [] := rfl

@[simp] theorem ofChars_cons (c : Char) (cs : List Char) :
    ofChars (c :: cs) = String.utf8EncodeChar c ++ ofChars cs := rfl

@[simp] theorem ofChars_append (cs ds : List Char) : ofChars (cs ++ ds) = ofChars cs ++ ofChars ds :=
  flatMap_append

theorem ofText_eq_ofChars (s : String) : ofText s = ofChars s.toList := by
  rw [ofText, String.toUTF8, ← String.utf8Encode_toList, List.utf8Encode]
  simp [ofChars]

/-! ## The bytes of a character -/

theorem utf8Encode_ascii (h : IsAscii c) : String.utf8EncodeChar c = [c.toUInt8] := by
  have hle : c.val.toNat ≤ 127 := Nat.le_of_lt_succ h
  rw [String.utf8EncodeChar, if_pos hle]
  rfl

theorem le_of_mem_utf8EncodeChar (h : ¬ IsAscii c) (hb : b ∈ String.utf8EncodeChar c) : 128 ≤ b.toNat := by
  have hv : ¬ c.val.toNat ≤ 127 := fun hle => h (Nat.lt_succ_of_le hle)
  rw [String.utf8EncodeChar] at hb
  simp only [hv, if_false] at hb
  split at hb
  · simp only [mem_cons, not_mem_nil, or_false] at hb
    rcases hb with rfl | rfl <;> simp only [toNat_ofNat'] <;> omega
  split at hb
  · simp only [mem_cons, not_mem_nil, or_false] at hb
    rcases hb with rfl | rfl | rfl <;> simp only [toNat_ofNat'] <;> omega
  · simp only [mem_cons, not_mem_nil, or_false] at hb
    rcases hb with rfl | rfl | rfl | rfl <;> simp only [toNat_ofNat'] <;> omega

theorem toNat_ofNat_of_lt (h : n < 256) : (ofNat n).toNat = n := by
  rw [toNat_ofNat', Nat.mod_eq_of_lt h]

theorem lead?_ofNat : (0xC2 ≤ n ∧ n ≤ 0xDF → lead? (ofNat n) = some (n - 0xC0, 0x80, 0xBF, 0)) ∧
    (0xE0 ≤ n ∧ n ≤ 0xEF → lead? (ofNat n) =
      some (n - 0xE0, if n = 0xE0 then 0xA0 else 0x80, if n = 0xED then 0x9F else 0xBF, 1)) ∧
    (0xF0 ≤ n ∧ n ≤ 0xF4 → lead? (ofNat n) =
      some (n - 0xF0, if n = 0xF0 then 0x90 else 0x80, if n = 0xF4 then 0x8F else 0xBF, 2)) := by
  refine ⟨fun h => ?_, fun h => ?_, fun h => ?_⟩ <;> unfold lead?
  all_goals
    simp only [Bool.and_eq_true, decide_eq_true_eq, le_iff_toNat_le, ← UInt8.toNat_inj, UInt8.reduceToNat,
      toNat_ofNat_of_lt (show n < 256 by omega)]
    grind

theorem readFirst_of_lead? {m value count : Nat} {low high : UInt8} (hn : 0x80 ≤ n ∧ n < 256)
    (hlead : lead? (ofNat n) = some (value, low, high, count)) (hm : m < 256) (hlow : low.toNat ≤ m)
    (hhigh : m ≤ high.toNat) (rest : Bytes) :
    readFirst (ofNat n) (ofNat m :: rest) = readFurther count (value * 64 + (m - 0x80)) rest := by
  have hascii : ¬ ofNat n < 0x80 := by
    rw [lt_iff_toNat_lt, toNat_ofNat_of_lt hn.2]
    exact Nat.not_lt.2 hn.1
  have hrange : (low ≤ ofNat m && ofNat m ≤ high) = true := by
    rw [Bool.and_eq_true, decide_eq_true_eq, decide_eq_true_eq, le_iff_toNat_le, le_iff_toNat_le, toNat_ofNat_of_lt hm]
    exact ⟨hlow, hhigh⟩
  unfold readFirst
  rw [if_neg hascii]
  simp only [hlead, hrange, if_true, toNat_ofNat_of_lt hm]

theorem readFurther_ofNat (count value n : Nat) (rest : Bytes) :
    readFurther (count + 1) value (ofNat (n % 64 + 128) :: rest) =
      readFurther count (value * 64 + n % 64) rest := by
  have hcontinues : continues (ofNat (n % 64 + 128)) = true := by
    simp only [continues, Bool.and_eq_true, decide_eq_true_eq, le_iff_toNat_le, toNat_ofNat',
      UInt8.reduceToNat]
    omega
  have hn : (ofNat (n % 64 + 128)).toNat - 0x80 = n % 64 := by
    simp only [toNat_ofNat']
    omega
  rw [readFurther, if_pos hcontinues, hn]

theorem readFirst_utf8EncodeChar {tail : Bytes} (h : String.utf8EncodeChar c = b :: tail)
    (rest : Bytes) : readFirst b (tail ++ rest) = (some c, rest) := by
  have hvalid : c.val.toNat < 0xD800 ∨ 0xDFFF < c.val.toNat ∧ c.val.toNat < 0x110000 := c.valid
  have hofNat {n : Nat} (hn : n = c.val.toNat) : Char.ofNat n = c := by
    rw [hn]
    exact Char.ofNat_toNat c
  rw [String.utf8EncodeChar] at h
  generalize c.val.toNat = n at h hvalid hofNat
  split at h
  · cases h
    have hascii : ofNat n < 0x80 := by
      simp only [lt_iff_toNat_lt, toNat_ofNat', UInt8.reduceToNat]
      omega
    unfold readFirst
    rw [if_pos hascii, hofNat (toNat_ofNat_of_lt (by omega)), nil_append]
  split at h
  · cases h
    rw [cons_append, nil_append, readFirst_of_lead? (by omega) (lead?_ofNat.1 (by omega)) (by omega)
      (by simp only [UInt8.reduceToNat]; omega) (by simp only [UInt8.reduceToNat]; omega),
      readFurther, hofNat (by omega)]
  split at h
  · cases h
    rw [cons_append, cons_append, nil_append, readFirst_of_lead? (by omega) (lead?_ofNat.2.1 (by omega)) (by omega)
      (by split <;> simp only [UInt8.reduceToNat] <;> omega) (by split <;> simp only [UInt8.reduceToNat] <;> omega),
      readFurther_ofNat, readFurther, hofNat (by omega)]
  · cases h
    rw [cons_append, cons_append, cons_append, nil_append,
      readFirst_of_lead? (by omega) (lead?_ofNat.2.2 (by omega)) (by omega)
      (by split <;> simp only [UInt8.reduceToNat] <;> omega) (by split <;> simp only [UInt8.reduceToNat] <;> omega),
      readFurther_ofNat, readFurther_ofNat, readFurther, hofNat (by omega)]

theorem characters_ofChars {fuel : Nat} {cs : List Char} (h : (ofChars cs).length ≤ fuel) :
    characters fuel (ofChars cs) = cs.map some := by
  induction cs generalizing fuel with
  | nil => cases fuel <;> rfl
  | cons c cs ih =>
    obtain ⟨b, tail, hc⟩ := exists_cons_of_ne_nil (String.utf8EncodeChar_ne_nil (c := c))
    rw [ofChars_cons, hc, length_append, length_cons] at h
    obtain ⟨fuel, rfl⟩ : ∃ m, fuel = m + 1 := ⟨fuel - 1, by omega⟩
    have hrest : (ofChars cs).length ≤ fuel := by omega
    rw [ofChars_cons, hc, cons_append, characters, readFirst_utf8EncodeChar hc]
    simp only [ih hrest, map_cons]

/-- **Nothing in the bytes of a text is replaced.** -/
theorem lossyText_ofText (s : String) : lossyText (ofText s) = s := by
  rw [lossyText, ofText_eq_ofChars, characters_ofChars (Nat.le_refl _), map_map]
  exact (congrArg String.ofList (map_id s.toList)).trans String.ofList_toList

end Bytes

end Deadwood
