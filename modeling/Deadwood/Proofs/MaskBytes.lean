import Deadwood.Proofs.Masking
import Deadwood.Proofs.Record
import Deadwood.Proofs.Utf8
import Mathlib.Data.List.Forall2

/-!
# Masking over bytes

Masking as a walk over the bytes of a text, by offsets. A range of offsets that is not in order or goes past the end
makes the walk fail, and so does running out of steps.

* **`mask_keeps_offsets`**: masking keeps every offset.
-/

namespace Deadwood

open Option List Bytes Text
open String (ofList utf8EncodeChar toList_ofList)

variable {cs ds xs ys : List Char} {bytes : Bytes} {c : Char} {lexicon : Lexicon} {i : Nat} {b : UInt8} {mark : String}

namespace Bytes

variable {keep : Bool} {word : List Char} {piece : Piece}

/-! ## The walk -/

def blankByte (b : UInt8) : UInt8 := if b = '\n'.toUInt8 then b else ' '.toUInt8

/-- Blanks from one offset to another, or to the end. The offsets have to be in order. -/
def blank? (bytes : Bytes) (start stop : Nat) : Option Bytes :=
  let stop := min stop bytes.length
  if start ≤ stop then
    some (bytes.take start ++ ((bytes.drop start).take (stop - start)).map blankByte ++ bytes.drop stop)
  else none

def position? (needle : Bytes) : Bytes → Option Nat
  | [] => none
  | b :: bytes => if needle.isPrefixOf (b :: bytes) then some 0 else (position? needle bytes).map (· + 1)

def find? (bytes needle : Bytes) (start : Nat) : Option Nat :=
  if needle.isEmpty || bytes.length ≤ start then none
  else (position? needle (bytes.drop start)).map (start + ·)

/-- Offset of the end of a literal: its quotation mark or, unless that is a backtick, the end of the
line. -/
def literalEnd (bytes : Bytes) (quote : UInt8) (i : Nat) : Nat :=
  if h : i < bytes.length then
    if bytes[i] = '\\'.toUInt8 then literalEnd bytes quote (i + 2)
    else if (bytes[i] = '\n'.toUInt8 ∧ quote ≠ '`'.toUInt8) ∨ bytes[i] = quote then i
    else literalEnd bytes quote (i + 1)
  else bytes.length
termination_by bytes.length - i

def width (b : UInt8) : Nat := if b < 0x80 then 1 else if 0xF0 ≤ b then 4 else if 0xE0 ≤ b then 3 else 2

/-- Offset of the single quote that closes a literal of one character opened at `start`. -/
def charEnd? (bytes : Bytes) (start : Nat) : Option Nat :=
  (bytes[start + 1]?).bind fun next =>
    if next = '\\'.toUInt8 then
      (position? ['\''.toUInt8] ((bytes.drop (start + 2)).take 10)).map (start + 2 + ·)
    else if bytes[start + 1 + width next]? = some '\''.toUInt8 then some (start + 1 + width next)
    else none

def boundaryAt (bytes : Bytes) (i : Nat) : Bool :=
  i = 0 || (bytes[i - 1]?).any fun b =>
    b = ' '.toUInt8 || b = '\t'.toUInt8 || b = '\n'.toUInt8 || b = '\r'.toUInt8 || b = '\x0c'.toUInt8 || b = ';'.toUInt8

/-- What a step does: the range to hide, if any, and the offset to go on at. -/
structure Stretch where
  hidden : Option (Nat × Nat)
  next : Nat

def blockAt? (bytes : Bytes) (i : Nat) (marks : String × String) : Option Stretch :=
  if (ofText marks.1).isPrefixOf (bytes.drop i) then
    let stop := ((find? bytes (ofText marks.2) (i + (ofText marks.1).length)).map
      (· + (ofText marks.2).length)).getD bytes.length
    some ⟨some (i, stop), stop⟩
  else none

def lineAt? (lexicon : Lexicon) (bytes : Bytes) (i : Nat) (mark : String) : Option Stretch :=
  if (ofText mark).isPrefixOf (bytes.drop i) && !(mark == "#" && lexicon.hashAtBoundary && !boundaryAt bytes i) then
    let stop := (find? bytes ['\n'.toUInt8] i).getD bytes.length
    some ⟨some (i, stop), stop⟩
  else none

/-- The step over a literal: what is between its delimiters is hidden unless literals are kept. -/
def literalStretch (keep : Bool) (start stop next : Nat) : Stretch where
  hidden := if keep then none else some (start, stop)
  next

/-- The step at a byte `b` where no comment opens. -/
def unmarkedStretch (lexicon : Lexicon) (keep : Bool) (bytes : Bytes) (i : Nat) (b : UInt8) : Stretch :=
  if lexicon.charLiterals && b == '\''.toUInt8 then
    match charEnd? bytes i with
    | some stop => literalStretch keep (i + 1) stop (stop + 1)
    | none => ⟨none, i + 1⟩
  else if (ofText (ofList lexicon.quotes)).contains b then
    if lexicon.tripleQuotes && [b, b].isPrefixOf (bytes.drop (i + 1)) then
      let stop := (find? bytes [b, b, b] (i + 3)).getD bytes.length
      literalStretch keep (i + 3) stop (min (stop + 3) bytes.length)
    else
      let stop := literalEnd bytes b (i + 1)
      literalStretch keep (i + 1) stop (min (stop + 1) bytes.length)
  else ⟨none, i + 1⟩

def stretchAt (lexicon : Lexicon) (keep : Bool) (bytes : Bytes) (i : Nat) (b : UInt8) : Stretch :=
  match lexicon.blockMarks.findSome? (blockAt? bytes i) with
  | some stretch => stretch
  | none =>
    match lexicon.lineMarks.findSome? (lineAt? lexicon bytes i) with
    | some stretch => stretch
    | none => unmarkedStretch lexicon keep bytes i b

def maskFrom? (lexicon : Lexicon) (keep : Bool) (bytes : Bytes) : (fuel i : Nat) → (out : Bytes) → Option Bytes
  | 0, i, out => if i < bytes.length then none else some out
  | fuel + 1, i, out =>
    match bytes[i]? with
    | none => some out
    | some b =>
      let stretch := stretchAt lexicon keep bytes i b
      match stretch.hidden with
      | none => maskFrom? lexicon keep bytes fuel stretch.next out
      | some (start, stop) =>
        (blank? out start stop).bind (maskFrom? lexicon keep bytes fuel stretch.next)

/-- Masks bytes in at most as many steps as there are bytes. -/
def mask? (lexicon : Lexicon) (keep : Bool) (bytes : Bytes) : Option Bytes :=
  maskFrom? lexicon keep bytes bytes.length 0 bytes

/-! ## Words in ASCII -/

theorem toNat_toUInt8_of_isAscii (hc : IsAscii c) : c.toUInt8.toNat = c.toNat := by
  unfold IsAscii at hc
  simp only [Char.toUInt8, UInt32.toNat_toUInt8, Char.toNat] at hc ⊢
  omega

theorem toUInt8_inj_of_isAscii {d : Char} (hc : IsAscii c) (hd : IsAscii d) : c.toUInt8 = d.toUInt8 ↔ c = d := by
  rw [← UInt8.toNat_inj, toNat_toUInt8_of_isAscii hc, toNat_toUInt8_of_isAscii hd, Char.toNat_inj]

theorem toUInt8_ne_of_le (hc : IsAscii c) (hb : 128 ≤ b.toNat) : c.toUInt8 ≠ b := by
  rintro rfl
  rw [toNat_toUInt8_of_isAscii hc] at hb
  exact absurd hc (Nat.not_lt.2 hb)

theorem not_isPrefix_of_le (hword : ∀ c ∈ word, IsAscii c) (hne : word ≠ [])
    (hb : 128 ≤ b.toNat) (bytes : Bytes) : ¬ ofChars word <+: b :: bytes := by
  obtain ⟨w, word, rfl⟩ := exists_cons_of_ne_nil hne
  have hw := hword w mem_cons_self
  rw [ofChars_cons, utf8Encode_ascii hw, singleton_append, cons_prefix_cons]
  exact fun h => toUInt8_ne_of_le hw hb h.1

/-- **A word in ASCII stands in the bytes of a text where it stands in the text.** -/
theorem ofChars_isPrefix_iff (hword : ∀ c ∈ word, IsAscii c) (cs : List Char) :
    ofChars word <+: ofChars cs ↔ word <+: cs := by
  induction word generalizing cs with
  | nil => simp
  | cons w word ih =>
    have hw := hword w mem_cons_self
    cases cs with
    | nil => simp [utf8Encode_ascii hw]
    | cons c cs =>
      by_cases hc : IsAscii c
      · rw [ofChars_cons, ofChars_cons, utf8Encode_ascii hw, utf8Encode_ascii hc,
          singleton_append, singleton_append, cons_prefix_cons, cons_prefix_cons,
          ih (forall_mem_cons.1 hword).2, toUInt8_inj_of_isAscii hw hc]
      · obtain ⟨b, tail, htail⟩ := exists_cons_of_ne_nil (String.utf8EncodeChar_ne_nil (c := c))
        have hb := le_of_mem_utf8EncodeChar hc (htail ▸ mem_cons_self)
        have hno : ¬ w :: word <+: c :: cs := by
          rw [cons_prefix_cons]
          exact fun h => hc (h.1 ▸ hw)
        refine iff_of_false ?_ hno
        rw [ofChars_cons (c := c), htail, cons_append]
        exact not_isPrefix_of_le hword (cons_ne_nil _ _) hb _

theorem ofChars_eq_nil_iff : ofChars cs = [] ↔ cs = [] := by
  cases cs with
  | nil => simp
  | cons c cs => simp [String.utf8EncodeChar_ne_nil]

theorem exists_utf8EncodeChar (c : Char) : ∃ b tail, utf8EncodeChar c = b :: tail ∧
    (∀ x ∈ tail, 128 ≤ x.toNat) ∧ ∀ d, IsAscii d → (b = d.toUInt8 ↔ c = d) := by
  by_cases hc : IsAscii c
  · exact ⟨_, _, utf8Encode_ascii hc, by simp, fun d hd => toUInt8_inj_of_isAscii hc hd⟩
  · obtain ⟨b, tail, htail⟩ := exists_cons_of_ne_nil (String.utf8EncodeChar_ne_nil (c := c))
    have hhigh {x : UInt8} (hx : x ∈ b :: tail) : 128 ≤ x.toNat := le_of_mem_utf8EncodeChar hc (htail ▸ hx)
    exact ⟨b, tail, htail, fun x hx => hhigh (mem_cons_of_mem _ hx), fun d hd =>
      iff_of_false (toUInt8_ne_of_le hd (hhigh mem_cons_self)).symm fun h => hc (h ▸ hd)⟩

theorem ofChars_singleton (hc : IsAscii c) : ofChars [c] = [c.toUInt8] := by
  rw [ofChars_cons, utf8Encode_ascii hc]
  rfl

theorem position?_cons {needle : Bytes} (h : ¬ needle <+: b :: bytes) :
    position? needle (b :: bytes) = (position? needle bytes).map (· + 1) := by
  rw [position?, if_neg (by rwa [List.isPrefixOf_iff_prefix])]

theorem position?_append_of_le (hword : ∀ c ∈ word, IsAscii c) (hne : word ≠ []) {xs : Bytes}
    (hxs : ∀ x ∈ xs, 128 ≤ x.toNat) (ys : Bytes) :
    position? (ofChars word) (xs ++ ys) = (position? (ofChars word) ys).map (xs.length + ·) := by
  induction xs with
  | nil => simp
  | cons x xs ih =>
    rw [cons_append, position?_cons (not_isPrefix_of_le hword hne (hxs x mem_cons_self) _),
      ih (forall_mem_cons.1 hxs).2, Option.map_map]
    congr 1
    funext n
    simp only [Function.comp_apply, length_cons]
    omega

/-- **A word is found in the bytes of a text where it is found in the text.** -/
theorem position?_ofChars (hword : ∀ c ∈ word, IsAscii c) (hne : word ≠ []) (cs : List Char) :
    position? (ofChars word) (ofChars cs) = (breakAt? word cs).map fun found => (ofChars found.1).length := by
  induction cs with
  | nil =>
    rw [breakAt?, if_neg (by simpa using hne)]
    rfl
  | cons c cs ih =>
    obtain ⟨b, tail, htail, hhigh, -⟩ := exists_utf8EncodeChar c
    have hbytes : ofChars (c :: cs) = b :: (tail ++ ofChars cs) := by rw [ofChars_cons, htail, cons_append]
    rw [breakAt?]
    cases hthere : afterHead? word (c :: cs) with
    | some rest =>
      have hp : word <+: c :: cs := isSome_afterHead?_iff.1 (by rw [hthere]; rfl)
      have hpos : (ofChars word).isPrefixOf (b :: (tail ++ ofChars cs)) = true := by
        rwa [List.isPrefixOf_iff_prefix, ← hbytes, ofChars_isPrefix_iff hword]
      rw [hbytes, position?, if_pos hpos]
      rfl
    | none =>
      have hp : ¬ ofChars word <+: b :: (tail ++ ofChars cs) := by
        rw [← hbytes, ofChars_isPrefix_iff hword]
        exact afterHead?_eq_none_iff.1 hthere
      rw [hbytes, position?_cons hp, position?_append_of_le hword hne hhigh, ih]
      simp only [Option.map_map]
      congr 1
      funext found
      simp only [Function.comp_apply, ofChars_cons, htail, length_append, length_cons]
      omega

/-! ## Places in a text -/

/-- The characters `cs` are what follows the offset `i` in some bytes. -/
structure Reads (bytes : Bytes) (i : Nat) (cs : List Char) : Prop where
  le : i ≤ bytes.length
  drop : bytes.drop i = ofChars cs

namespace Reads

theorem length_eq (h : Reads bytes i cs) : bytes.length = i + (ofChars cs).length := by
  have := congrArg List.length h.drop
  have := h.le
  rw [length_drop] at *
  omega

theorem right (h : Reads bytes i (xs ++ ys)) : Reads bytes (i + (ofChars xs).length) ys := by
  have hlen := h.length_eq
  rw [ofChars_append, length_append] at hlen
  refine ⟨by omega, ?_⟩
  rw [← drop_drop, h.drop, ofChars_append, drop_left]

section

variable (h : Reads bytes i cs) (hmark : ∀ c ∈ mark.toList, IsAscii c) (hne : mark.toList ≠ [])
include h hmark hne

theorem find?_eq : find? bytes (ofText mark) i =
      (breakAt? mark.toList cs).map fun found => i + (ofChars found.1).length := by
  have hnil : (ofText mark).isEmpty = false := by
    rw [ofText_eq_ofChars, ← Bool.not_eq_true, List.isEmpty_iff, ofChars_eq_nil_iff]
    exact hne
  rw [find?, hnil, Bool.false_or]
  split
  · rename_i hend
    have hlen := h.length_eq
    rw [decide_eq_true_eq] at hend
    obtain rfl : cs = [] := ofChars_eq_nil_iff.1 (length_eq_zero_iff.1 (by omega))
    rw [breakAt?, if_neg (by simpa using hne)]
    rfl
  · rw [h.drop, ofText_eq_ofChars, position?_ofChars hmark hne, Option.map_map]
    rfl

theorem getD_find? :
    (find? bytes (ofText mark) i).getD bytes.length = i + (ofChars (cs.take (lengthTo mark cs).1)).length := by
  rw [h.find?_eq hmark hne, lengthTo]
  cases hbreak : breakAt? mark.toList cs with
  | none => simp [h.length_eq]
  | some found =>
    have hcs := eq_append_of_breakAt? hbreak
    simp [hcs]

theorem getD_find?_add : ((find? bytes (ofText mark) i).map (· + (ofText mark).length)).getD bytes.length =
      i + (ofChars (cs.take ((lengthTo mark cs).1 + if (lengthTo mark cs).2 then mark.length else 0))).length := by
  rw [h.find?_eq hmark hne, lengthTo]
  cases hbreak : breakAt? mark.toList cs with
  | none => simp [h.length_eq]
  | some found =>
    have hcs := eq_append_of_breakAt? hbreak
    have hlen : (found.1 ++ mark.toList).length = found.1.length + mark.length := by
      rw [length_append, String.length_toList]
    rw [← append_assoc] at hcs
    simp only [map_some, getD_some, if_pos]
    rw [hcs, ← hlen, take_left, ofChars_append, length_append, ofText_eq_ofChars]
    omega

end

theorem getElem?_eq (h : Reads bytes i cs) (n : Nat) : bytes[i + n]? = (ofChars cs)[n]? := by
  rw [← h.drop, getElem?_drop]

end Reads

/-! ## Literals -/

theorem literalEnd_step (hb : bytes[i]? = some b) (quote : UInt8) :
    literalEnd bytes quote i = if b = '\\'.toUInt8 then literalEnd bytes quote (i + 2)
      else if (b = '\n'.toUInt8 ∧ quote ≠ '`'.toUInt8) ∨ b = quote then i
      else literalEnd bytes quote (i + 1) := by
  obtain ⟨hi, rfl⟩ := List.getElem?_eq_some_iff.1 hb
  rw [literalEnd, dif_pos hi]

theorem literalEnd_of_length_le (hi : bytes.length ≤ i) (quote : UInt8) : literalEnd bytes quote i = bytes.length := by
  rw [literalEnd, dif_neg (Nat.not_lt.2 hi)]

theorem literalEnd_of_le {quote : Char} (hquote : IsAscii quote) {xs ys : Bytes}
    (hxs : ∀ x ∈ xs, 128 ≤ x.toNat) (hdrop : bytes.drop i = xs ++ ys) :
    literalEnd bytes quote.toUInt8 i = literalEnd bytes quote.toUInt8 (i + xs.length) := by
  induction xs generalizing i with
  | nil => rfl
  | cons x xs ih =>
    have hx : bytes[i]? = some x := by
      rw [← Nat.add_zero i, ← getElem?_drop, hdrop, cons_append, getElem?_cons_zero]
    have hrest : bytes.drop (i + 1) = xs ++ ys := by
      rw [← drop_drop, hdrop, cons_append, drop_one, tail_cons]
    have hne {c : Char} (hc : IsAscii c) : x ≠ c.toUInt8 :=
      (toUInt8_ne_of_le hc (hxs x mem_cons_self)).symm
    have hgo : ¬ ((x = '\n'.toUInt8 ∧ quote.toUInt8 ≠ '`'.toUInt8) ∨ x = quote.toUInt8) :=
      not_or.2 ⟨fun h => hne (by decide) h.1, hne hquote⟩
    rw [literalEnd_step hx, if_neg (hne (by decide)), if_neg hgo,
      ih (forall_mem_cons.1 hxs).2 hrest, length_cons, Nat.add_assoc, Nat.add_comm 1]

/-- The first character at a place: its first byte tells whether it is a given one of ASCII, and none
of its other bytes is one of ASCII. -/
theorem Reads.cons {bytes : Bytes} {i : Nat} {c : Char} {cs : List Char} (h : Reads bytes i (c :: cs)) :
    ∃ b tail, utf8EncodeChar c = b :: tail ∧ (∀ x ∈ tail, 128 ≤ x.toNat) ∧ bytes[i]? = some b ∧
      bytes.drop (i + 1) = tail ++ ofChars cs ∧ Reads bytes (i + 1 + tail.length) cs ∧
      ∀ d, IsAscii d → (b = d.toUInt8 ↔ c = d) := by
  obtain ⟨b, tail, htail, hhigh, hiff⟩ := exists_utf8EncodeChar c
  have hdrop := h.drop
  rw [ofChars_cons, htail, cons_append] at hdrop
  have hrest : bytes.drop (i + 1) = tail ++ ofChars cs := by
    rw [← drop_drop, hdrop, drop_one, tail_cons]
  refine ⟨b, tail, htail, hhigh, ?_, hrest, ?_, hiff⟩
  · have := h.getElem?_eq 0
    rwa [Nat.add_zero, ofChars_cons, htail, cons_append, getElem?_cons_zero] at this
  · have hright : Reads bytes (i + (ofChars [c]).length) cs := Reads.right h
    rwa [ofChars_cons, ofChars_nil, append_nil, htail, length_cons, Nat.add_comm _ 1, ← Nat.add_assoc] at hright

theorem Reads.literalEnd_eq {bytes : Bytes} {quote : Char} (hquote : IsMarkChar quote) {i : Nat} {cs : List Char}
    (h : Reads bytes i cs) :
    literalEnd bytes quote.toUInt8 i = i + (ofChars (cs.take (literalBody quote cs))).length := by
  match cs with
  | [] => rw [literalEnd_of_length_le (by rw [h.length_eq]; simp), h.length_eq]; rfl
  | c :: cs =>
    obtain ⟨b, tail, htail, hhigh, hb, hdrop, hrest, hiff⟩ := h.cons
    rw [literalEnd_step hb]
    by_cases hc : c = '\\'
    · subst hc
      rw [if_pos ((hiff '\\' (by decide)).2 rfl)]
      obtain rfl : tail = [] := by
        rw [utf8Encode_ascii (by decide), List.cons.injEq] at htail
        exact htail.2.symm
      cases cs with
      | nil =>
        rw [literalEnd_of_length_le (by rw [h.length_eq, ofChars_cons, htail]; simp), h.length_eq]
        rfl
      | cons x cs =>
        obtain ⟨b', tail', htail', hhigh', -, hdrop', hrest', -⟩ := hrest.cons
        rw [length_nil, Nat.add_zero] at hdrop' hrest'
        rw [literalEnd_of_le hquote.1 hhigh' hdrop', Reads.literalEnd_eq hquote hrest', literalBody]
        simp only [take_succ_cons, ofChars_cons, htail, htail', length_append, length_cons, length_nil]
        omega
    · rw [if_neg (fun hb => hc ((hiff '\\' (by decide)).1 hb)), literalBody_cons hc]
      have hstop : ((b = '\n'.toUInt8 ∧ quote.toUInt8 ≠ '`'.toUInt8) ∨ b = quote.toUInt8) ↔
          ((c == '\n' && quote != '`') || c == quote) = true := by
        rw [hiff '\n' (by decide), hiff quote hquote.1, ne_eq, toUInt8_inj_of_isAscii hquote.1 (by decide)]
        simp
      simp only [hstop]
      split
      · rfl
      · rw [literalEnd_of_le hquote.1 hhigh hdrop, Reads.literalEnd_eq hquote hrest]
        simp only [take_succ_cons, ofChars_cons, htail, length_append, length_cons]
        omega

theorem width_eq {tail : Bytes} (h : utf8EncodeChar c = b :: tail) : width b = 1 + tail.length := by
  have hvalid : c.val.toNat < 0xD800 ∨ 0xDFFF < c.val.toNat ∧ c.val.toNat < 0x110000 := c.valid
  have hwidth {n : Nat} (hn : n < 256) : width (UInt8.ofNat n) =
      if n < 0x80 then 1 else if 0xF0 ≤ n then 4 else if 0xE0 ≤ n then 3 else 2 := by
    simp only [width, UInt8.lt_iff_toNat_lt, UInt8.le_iff_toNat_le, toNat_ofNat_of_lt hn, UInt8.reduceToNat]
  rw [utf8EncodeChar] at h
  generalize c.val.toNat = n at h hvalid
  split at h
  · cases h
    rw [hwidth (by omega), if_pos (by omega)]
    rfl
  split at h
  · cases h
    rw [hwidth (by omega), if_neg (by omega), if_neg (by omega), if_neg (by omega)]
    rfl
  split at h
  · cases h
    rw [hwidth (by omega), if_neg (by omega), if_neg (by omega), if_pos (by omega)]
    rfl
  · cases h
    rw [hwidth (by omega), if_neg (by omega), if_pos (by omega)]
    rfl

theorem quoteWithin_zero (cs : List Char) : quoteWithin 0 cs = none := by
  cases cs <;> rfl

theorem position?_take (budget : Nat) (cs : List Char) : position? (ofChars ['\'']) ((ofChars cs).take budget) =
      (quoteWithin budget cs).map fun n => (ofChars (cs.take n)).length := by
  have hquote : ∀ c ∈ ['\''], IsAscii c := forall_mem_singleton.2 (by decide)
  induction cs generalizing budget with
  | nil => simp [quoteWithin, position?]
  | cons c cs ih =>
    obtain ⟨b, tail, htail, hhigh, hiff⟩ := exists_utf8EncodeChar c
    have hsize : c.utf8Size = tail.length + 1 := by rw [← String.length_utf8EncodeChar, htail, length_cons]
    cases budget with
    | zero =>
      rw [quoteWithin_zero, take_zero]
      rfl
    | succ budget =>
      have hhead : ofChars ['\''] <+: b :: (tail ++ ofChars cs).take budget ↔ c = '\'' := by
        rw [ofChars_singleton (by decide), cons_prefix_cons, ← hiff '\'' (by decide)]
        simp [eq_comm]
      rw [quoteWithin, if_neg (Nat.succ_ne_zero _), ofChars_cons c, htail, cons_append, take_succ_cons]
      by_cases hc : c = '\''
      · rw [position?, if_pos (List.isPrefixOf_iff_prefix.2 (hhead.2 hc)), if_pos (by simpa using hc)]
        rfl
      · have hcut : ∀ x ∈ tail.take budget, 128 ≤ x.toNat := fun x hx => hhigh x (mem_of_mem_take hx)
        rw [position?_cons (mt hhead.1 hc), take_append,
          position?_append_of_le hquote (cons_ne_nil _ _) hcut, ih, if_neg (by simpa using hc), hsize,
          Nat.add_sub_add_right]
        cases hq : quoteWithin (budget - tail.length) cs with
        | none => rfl
        | some n =>
          have hbudget : tail.length < budget := by
            refine Nat.lt_of_not_le fun hle => ?_
            rw [Nat.sub_eq_zero_of_le hle, quoteWithin_zero] at hq
            cases hq
          simp only [map_some, length_take, take_succ_cons, ofChars_cons, htail, length_append,
            length_cons, Option.some.injEq]
          omega

theorem Reads.charEnd?_eq (h : Reads bytes (i + 1) cs) :
    charEnd? bytes i = (charBody? cs).map fun n => i + 1 + (ofChars (cs.take n)).length := by
  cases cs with
  | nil =>
    have hnone : bytes[i + 1]? = none := h.getElem?_eq 0
    rw [charEnd?, hnone]
    rfl
  | cons c cs =>
    obtain ⟨b, tail, htail, hhigh, hb, hdrop, hrest, hiff⟩ := h.cons
    rw [charEnd?, hb, bind_some]
    by_cases hc : c = '\\'
    · subst hc
      obtain rfl : tail = [] := by
        rw [utf8Encode_ascii (by decide), List.cons.injEq] at htail
        exact htail.2.symm
      rw [if_pos ((hiff '\\' (by decide)).2 rfl), hdrop, nil_append, ← ofChars_singleton (by decide),
        position?_take, charBody?_escape, Option.map_map, Option.map_map]
      congr 1
      funext n
      simp only [Function.comp_apply, take_succ_cons, ofChars_cons, htail, length_append, length_cons, length_nil]
      omega
    · have hclose : bytes[i + 1 + width b]? = some '\''.toUInt8 ↔ ['\''] <+: cs := by
        rw [width_eq htail, ← Nat.add_assoc, ← Nat.add_zero (i + 1 + 1 + tail.length), hrest.getElem?_eq,
          ← ofChars_isPrefix_iff (forall_mem_singleton.2 (by decide)), ofChars_singleton (by decide)]
        cases ofChars cs <;> simp [eq_comm]
      rw [if_neg (fun hb => hc ((hiff '\\' (by decide)).1 hb)), charBody?_plain hc]
      simp only [hclose]
      split
      · simp only [map_some, width_eq htail, take_succ_cons, take_zero, ofChars_cons, htail,
          ofChars_nil, append_nil, length_cons, Option.some.injEq]
        omega
      · rfl

/-! ## Steps -/

def stretchOf (piece : Piece) (keep : Bool) (i : Nat) (cs : List Char) : Stretch where
  hidden :=
    if piece.kind = .comment ∨ piece.kind = .literal ∧ keep = false then
      some (i + (ofChars (cs.take piece.opening)).length, i + (ofChars (cs.take (piece.opening + piece.body))).length)
    else none
  next := i + (ofChars (cs.take piece.length)).length

theorem stretchOf_comment (n : Nat) (keep : Bool) (i : Nat) (cs : List Char) :
    stretchOf (.comment n) keep i cs =
      ⟨some (i, i + (ofChars (cs.take n)).length), i + (ofChars (cs.take n)).length⟩ := by
  simp [stretchOf, Piece.comment, Piece.length]

section Steps

variable {α β γ : Type} {n : Nat} {before : Option Char}

theorem isPrefixOf_drop_iff (h : Reads bytes i cs) (hmark : IsMark mark) :
    (ofText mark).isPrefixOf (bytes.drop i) = (afterHead? mark.toList cs).isSome := by
  rw [Bool.eq_iff_iff, isPrefixOf_iff_prefix, h.drop, ofText_eq_ofChars,
    ofChars_isPrefix_iff fun c hc => (hmark.2 c hc).1, isSome_afterHead?_iff]

theorem blockAt?_eq (h : Reads bytes i cs) {marks : String × String} (hmarks : IsMark marks.1 ∧ IsMark marks.2)
    (keep : Bool) :
    blockAt? bytes i marks = (blockComment? marks cs).map (stretchOf · keep i cs) := by
  rw [blockAt?, isPrefixOf_drop_iff h hmarks.1, blockComment?]
  cases hrest : afterHead? marks.1.toList cs with
  | none => rfl
  | some rest =>
    obtain rfl := afterHead?_eq_some_iff.1 hrest
    have hopen : (ofText marks.1).length = (ofChars marks.1.toList).length := by rw [ofText_eq_ofChars]
    have hstop := h.right.getD_find?_add (fun c hc => (hmarks.2.2 c hc).1) hmarks.2.1
    simp only [isSome_some, if_true, map_some, stretchOf_comment, hopen, hstop, Option.some.injEq]
    rw [Nat.add_assoc marks.1.length, ← String.length_toList (s := marks.1), take_length_add_append,
      ofChars_append, length_append, Nat.add_assoc]

theorem length_takeWhile_eq (cs : List Char) : (lengthTo "\n" cs).1 = (cs.takeWhile (· != '\n')).length := by
  have hfeed : "\n".toList = ['\n'] := rfl
  rw [lengthTo, hfeed]
  induction cs with
  | nil => rfl
  | cons c cs ih =>
    by_cases hc : c = '\n'
    · subst hc
      rfl
    · rw [breakAt?, afterHead?, if_neg (Ne.symm hc), takeWhile_cons_of_pos (by simpa using hc)]
      simp only [length_cons]
      rw [← ih]
      cases breakAt? ['\n'] cs <;> rfl

theorem lineAt?_eq (h : Reads bytes i cs)
    (hbefore : boundaryAt bytes i = isBoundary before) (hmark : IsMark mark) (keep : Bool) :
    lineAt? lexicon bytes i mark = (lineComment? lexicon before mark cs).map (stretchOf · keep i cs) := by
  rw [lineAt?, isPrefixOf_drop_iff h hmark, hbefore, lineComment?]
  split
  · have hfeed : ofText "\n" = ['\n'.toUInt8] := by rw [ofText_eq_ofChars]; exact ofChars_singleton (by decide)
    have hascii : ∀ c ∈ "\n".toList, IsAscii c := by simp [IsAscii]
    have hstop := h.getD_find? hascii (by decide)
    rw [hfeed, length_takeWhile_eq] at hstop
    simp only [map_some, stretchOf_comment, hstop]
  · rfl

theorem isAscii_of_literalBody {quote : Char} (hquote : IsMarkChar quote)
    (hlt : literalBody quote cs < cs.length) : ∃ x, cs[literalBody quote cs]? = some x ∧ IsAscii x := by
  fun_induction literalBody quote cs with
  | case1 => exact absurd hlt (Nat.lt_irrefl 0)
  | case2 x cs ih =>
    obtain ⟨y, hy, hascii⟩ := ih (by simpa using hlt)
    exact ⟨y, by simpa using hy, hascii⟩
  | case3 => exact absurd hlt (by simp)
  | case4 c cs _ _ hstop =>
    refine ⟨c, rfl, ?_⟩
    simp only [Bool.or_eq_true, Bool.and_eq_true, beq_iff_eq] at hstop
    rcases hstop with ⟨rfl, -⟩ | rfl
    · decide
    · exact hquote.1
  | case5 c cs _ _ _ ih =>
    obtain ⟨y, hy, hascii⟩ := ih (by simpa using hlt)
    exact ⟨y, by simpa using hy, hascii⟩

theorem getElem?_of_quoteWithin {budget : Nat} (h : quoteWithin budget cs = some n) : cs[n]? = some '\'' := by
  induction cs generalizing budget n with
  | nil => cases h
  | cons c cs ih =>
    rw [quoteWithin] at h
    split at h
    · cases h
    split at h
    · rename_i hc
      cases h
      simpa using hc
    · obtain ⟨m, hm, rfl⟩ := map_eq_some_iff.1 h
      simpa using ih hm

theorem getElem?_of_charBody? (h : charBody? cs = some n) : cs[n]? = some '\'' := by
  unfold charBody? at h
  split at h
  · obtain ⟨m, hm, rfl⟩ := map_eq_some_iff.1 h
    simpa using getElem?_of_quoteWithin hm
  · cases h
    rfl
  · cases h

theorem length_ofChars_take_succ {x : Char} (hx : cs[n]? = some x) (hascii : IsAscii x) :
    (ofChars (cs.take (n + 1))).length = (ofChars (cs.take n)).length + 1 := by
  rw [take_add_one, hx, toList_some, ofChars_append, length_append, ofChars_singleton hascii]
  rfl

theorem length_ofChars_take_le (n : Nat) (cs : List Char) : (ofChars (cs.take n)).length ≤ (ofChars cs).length := by
  have hcut := congrArg (fun l => (ofChars l).length) (take_append_drop n cs)
  simp only [ofChars_append, length_append] at hcut
  omega

theorem contains_quotes (h : lexicon.Regular) (hc : IsAscii c) :
    (ofText (ofList lexicon.quotes)).contains c.toUInt8 = lexicon.quotes.contains c := by
  have hquotes : ∀ q ∈ lexicon.quotes, IsAscii q := fun q hq => (h.quotes q hq).1
  rw [ofText_eq_ofChars, toList_ofList, Bool.eq_iff_iff, contains_iff_mem, contains_iff_mem,
    ofChars, mem_flatMap]
  constructor
  · rintro ⟨q, hq, hmem⟩
    rw [utf8Encode_ascii (hquotes q hq), mem_singleton, toUInt8_inj_of_isAscii hc (hquotes q hq)] at hmem
    exact hmem ▸ hq
  · intro hmem
    exact ⟨c, hmem, by rw [utf8Encode_ascii hc]; exact mem_singleton_self _⟩

theorem stretchOf_literal (opening body closing : Nat) (keep : Bool) :
    stretchOf ⟨.literal, opening, body, closing⟩ keep i cs =
      literalStretch keep (i + (ofChars (cs.take opening)).length)
        (i + (ofChars (cs.take (opening + body))).length)
        (i + (ofChars (cs.take (opening + body + closing))).length) := by
  cases keep <;> simp [stretchOf, literalStretch, Piece.length]

section Quoted

theorem length_ofChars_take_cons (hc : IsAscii c) (n : Nat) :
    (ofChars ((c :: cs).take (1 + n))).length = 1 + (ofChars (cs.take n)).length := by
  rw [Nat.add_comm, take_succ_cons, ofChars_cons, utf8Encode_ascii hc, length_append]
  rfl

theorem Reads.tail (hc : IsAscii c) (h : Reads bytes i (c :: cs)) : Reads bytes (i + 1) cs := by
  have := Reads.right (show Reads bytes i ([c] ++ cs) from h)
  rwa [ofChars_singleton hc] at this

theorem ordinary_stretch (hc : IsMarkChar c) (h : Reads bytes i (c :: cs)) (keep : Bool) :
    literalStretch keep (i + 1) (literalEnd bytes c.toUInt8 (i + 1))
        (min (literalEnd bytes c.toUInt8 (i + 1) + 1) bytes.length) =
      stretchOf (literalAt.ordinary c cs) keep i (c :: cs) := by
  have hrest := h.tail hc.1
  have hone : (ofChars ((c :: cs).take 1)).length = 1 := length_ofChars_take_cons hc.1 0
  have hlen := hrest.length_eq
  rw [hrest.literalEnd_eq hc, literalAt.ordinary, stretchOf_literal, hone, Nat.add_assoc 1,
    length_ofChars_take_cons hc.1, length_ofChars_take_cons hc.1, ← Nat.add_assoc i, ← Nat.add_assoc i]
  congr 1
  split
  · rename_i hlt
    obtain ⟨x, hx, hascii⟩ := isAscii_of_literalBody hc hlt
    have hle := length_ofChars_take_le (literalBody c cs + 1) cs
    rw [length_ofChars_take_succ hx hascii] at hle ⊢
    omega
  · rename_i hge
    have hall : cs.take (literalBody c cs) = cs := take_of_length_le (Nat.le_of_not_lt hge)
    simp only [Nat.add_zero, hall]
    omega

theorem tripled_stretch (hc : IsMarkChar c) (h : Reads bytes i (c :: cs)) (htwo : [c, c] <+: cs) (keep : Bool) :
    literalStretch keep (i + 3) ((find? bytes [c.toUInt8, c.toUInt8, c.toUInt8] (i + 3)).getD bytes.length)
        (min ((find? bytes [c.toUInt8, c.toUInt8, c.toUInt8] (i + 3)).getD bytes.length + 3) bytes.length) =
      stretchOf (tripled c cs) keep i (c :: cs) := by
  obtain ⟨inner, rfl⟩ := htwo
  have hc : IsAscii c := hc.1
  have hascii : ∀ d ∈ (ofList [c, c, c]).toList, IsAscii d := by
    rw [toList_ofList]
    simpa using hc
  have hmark : ofText (ofList [c, c, c]) = [c.toUInt8, c.toUInt8, c.toUInt8] := by
    rw [ofText_eq_ofChars, toList_ofList]
    simp [utf8Encode_ascii hc]
  have hthree (n : Nat) : (ofChars ((c :: ([c, c] ++ inner)).take (3 + n))).length =
      3 + (ofChars (inner.take n)).length := by
    rw [show 3 + n = 1 + (1 + (1 + n)) by omega]
    simp only [cons_append, nil_append, length_ofChars_take_cons hc]
    omega
  have hinner : Reads bytes (i + 3) inner := ((h.tail hc).tail hc).tail hc
  have hlen := hinner.length_eq
  have hstop := hinner.getD_find? hascii (by simp)
  have hafter := hinner.getD_find?_add hascii (by simp)
  have hopening := hthree 0
  obtain ⟨n, closed, hto⟩ : ∃ n closed, lengthTo (ofList [c, c, c]) inner = (n, closed) := ⟨_, _, rfl⟩
  have hle := length_ofChars_take_le (n + if closed = true then 3 else 0) inner
  rw [hmark, hto] at hstop hafter
  simp only [tripled, stretchOf_literal, cons_append, nil_append, drop_succ_cons, drop_zero,
    String.length_ofList, length_cons, length_nil, Nat.reduceAdd, Nat.add_assoc 3, hto, Nat.add_zero,
    take_zero, ofChars_nil] at hthree hafter hopening ⊢
  rw [hthree, hthree, hopening, ← Nat.add_assoc i, ← Nat.add_assoc i]
  congr 1
  cases hfind : find? bytes [c.toUInt8, c.toUInt8, c.toUInt8] (i + 3) with
  | none =>
    rw [hfind, map_none, getD_none] at hafter
    rw [getD_none]
    omega
  | some k =>
    rw [hfind, map_some, getD_some] at hafter
    rw [getD_some]
    omega

end Quoted

theorem unmarkedStretch_eq (hregular : lexicon.Regular) (hc : IsAscii c) (h : Reads bytes i (c :: cs)) (keep : Bool) :
    unmarkedStretch lexicon keep bytes i c.toUInt8 =
      stretchOf (unmarkedAt lexicon c cs) keep i (c :: cs) := by
  have hone : (ofChars ((c :: cs).take 1)).length = 1 := length_ofChars_take_cons hc 0
  have hrest := h.tail hc
  have hcode : stretchOf .code keep i (c :: cs) = ⟨none, i + 1⟩ := by
    simp [stretchOf, Piece.code, Piece.length, utf8Encode_ascii hc]
  have hquote : (c.toUInt8 == '\''.toUInt8) = (c == '\'') := by
    rw [Bool.eq_iff_iff, beq_iff_eq, beq_iff_eq, toUInt8_inj_of_isAscii hc (by decide)]
  unfold unmarkedStretch unmarkedAt
  rw [hquote, contains_quotes hregular hc]
  split
  · rw [hrest.charEnd?_eq]
    cases hbody : charBody? cs with
    | none => exact hcode.symm
    | some n =>
      simp only [map_some]
      rw [stretchOf_literal, hone, Nat.add_assoc 1, length_ofChars_take_cons hc, length_ofChars_take_cons hc,
        length_ofChars_take_succ (getElem?_of_charBody? hbody) (by decide)]
      simp only [Nat.add_assoc]
  split
  · rename_i hmem
    have hmark := hregular.quotes c (contains_iff_mem.1 hmem)
    have htwo : [c.toUInt8, c.toUInt8].isPrefixOf (bytes.drop (i + 1)) = true ↔ [c, c] <+: cs := by
      have hbytes : ofChars [c, c] = [c.toUInt8, c.toUInt8] := by simp [utf8Encode_ascii hc]
      rw [hrest.drop, isPrefixOf_iff_prefix, ← hbytes, ofChars_isPrefix_iff (by simp [hc])]
    by_cases htriple : lexicon.tripleQuotes = true ∧ [c, c] <+: cs
    · rw [if_pos (by simpa [htwo] using htriple), literalAt_eq_tripled htriple.1 htriple.2]
      exact tripled_stretch hmark h htriple.2 keep
    · rw [if_neg (by simpa [htwo] using htriple), literalAt_eq_ordinary htriple]
      exact ordinary_stretch hmark h keep
  · exact hcode.symm

theorem stretchAt_of_le (hregular : lexicon.Regular) (keep : Bool)
    {rest : Bytes} (hb : 128 ≤ b.toNat) (hdrop : bytes.drop i = b :: rest) :
    stretchAt lexicon keep bytes i b = ⟨none, i + 1⟩ := by
  have hno {mark : String} (hmark : IsMark mark) : (ofText mark).isPrefixOf (bytes.drop i) = false := by
    rw [← Bool.not_eq_true, isPrefixOf_iff_prefix, hdrop, ofText_eq_ofChars]
    exact not_isPrefix_of_le (fun c hc => (hmark.2 c hc).1) hmark.1 hb rest
  have hblock : lexicon.blockMarks.findSome? (blockAt? bytes i) = none :=
    findSome?_eq_none_iff.2 fun marks hmarks => by
      rw [blockAt?, hno (hregular.blockMarks marks hmarks).1]
      rfl
  have hline : lexicon.lineMarks.findSome? (lineAt? lexicon bytes i) = none :=
    findSome?_eq_none_iff.2 fun mark hmark => by
      rw [lineAt?, hno (hregular.lineMarks mark hmark)]
      rfl
  have hquote : (b == '\''.toUInt8) = false := by
    rw [beq_eq_false_iff_ne]
    exact (toUInt8_ne_of_le (by decide) hb).symm
  have hquotes : (ofText (ofList lexicon.quotes)).contains b = false := by
    rw [← Bool.not_eq_true, contains_iff_mem, ofText_eq_ofChars, toList_ofList, ofChars, mem_flatMap]
    rintro ⟨q, hq, hmem⟩
    have hascii := (hregular.quotes q hq).1
    rw [utf8Encode_ascii hascii, mem_singleton] at hmem
    exact toUInt8_ne_of_le hascii hb hmem.symm
  simp only [stretchAt, hblock, hline, unmarkedStretch, hquote, hquotes, Bool.and_false, Bool.false_eq_true, if_false]

theorem findSome?_eq_map {f : α → Option γ} {g : α → Option β} {k : β → γ} {l : List α}
    (h : ∀ x ∈ l, f x = (g x).map k) : l.findSome? f = (l.findSome? g).map k := by
  induction l with
  | nil => rfl
  | cons x l ih =>
    rw [findSome?_cons, findSome?_cons, h x mem_cons_self, ih (forall_mem_cons.1 h).2]
    cases g x <;> rfl

/-- **A step over bytes is the piece that stands there**, unless that is one character of several
bytes. -/
theorem stretchAt_eq (hregular : lexicon.Regular)
    (h : Reads bytes i (c :: cs)) (hbefore : boundaryAt bytes i = isBoundary before)
    (hb : bytes[i]? = some b) (keep : Bool) (hpiece : IsAscii c ∨ pieceAt lexicon before (c :: cs) ≠ .code) :
    stretchAt lexicon keep bytes i b =
      stretchOf (pieceAt lexicon before (c :: cs)) keep i (c :: cs) := by
  have hblock : lexicon.blockMarks.findSome? (blockAt? bytes i) =
      (lexicon.blockMarks.findSome? (blockComment? · (c :: cs))).map (stretchOf · keep i (c :: cs)) :=
    findSome?_eq_map fun marks hmarks => blockAt?_eq h (hregular.blockMarks marks hmarks) keep
  have hline : lexicon.lineMarks.findSome? (lineAt? lexicon bytes i) =
      (lexicon.lineMarks.findSome? (lineComment? lexicon before · (c :: cs))).map
        (stretchOf · keep i (c :: cs)) :=
    findSome?_eq_map fun mark hmark => lineAt?_eq h hbefore (hregular.lineMarks mark hmark) keep
  have hascii : IsAscii c := hpiece.elim id fun hne =>
    Classical.byContradiction fun hc => hne (pieceAt_of_not_markChar hregular (fun hmark => hc hmark.1) before cs)
  obtain rfl : b = c.toUInt8 := by
    have := h.getElem?_eq 0
    rw [Nat.add_zero, hb, ofChars_cons, utf8Encode_ascii hascii] at this
    simpa using this
  cases hmarks : lexicon.blockMarks.findSome? (blockComment? · (c :: cs)) with
  | some piece => simp only [stretchAt, pieceAt, hblock, hmarks, map_some]
  | none =>
    cases hmark : lexicon.lineMarks.findSome? (lineComment? lexicon before · (c :: cs)) with
    | some piece => simp only [stretchAt, pieceAt, hblock, hline, hmarks, hmark, map_some, map_none]
    | none =>
      simp only [stretchAt, pieceAt, hblock, hline, hmarks, hmark, map_none]
      exact unmarkedStretch_eq hregular hascii h keep

end Steps

/-! ## The whole walk -/

theorem ofChars_blankChar (c : Char) : ofChars (blankChar c) = (utf8EncodeChar c).map blankByte := by
  by_cases hc : c = '\n'
  · subst hc
    decide
  · have hblank : ∀ b ∈ utf8EncodeChar c, blankByte b = ' '.toUInt8 := by
      obtain ⟨b, tail, htail, hhigh, hiff⟩ := exists_utf8EncodeChar c
      intro x hx
      rw [htail, mem_cons] at hx
      refine if_neg ?_
      rcases hx with rfl | hx
      · exact fun h => hc ((hiff '\n' (by decide)).1 h)
      · exact (toUInt8_ne_of_le (by decide) (hhigh x hx)).symm
    have hspaces (n : Nat) : ofChars (List.replicate n ' ') = List.replicate n ' '.toUInt8 := by
      induction n with
      | zero => rfl
      | succ n ih => rw [replicate_succ, ofChars_cons, ih, utf8Encode_ascii (by decide)]; rfl
    rw [blankChar_of_ne hc, hspaces, map_congr_left hblank, map_const', String.length_utf8EncodeChar]

theorem ofChars_blanks (cs : List Char) : ofChars (cs.flatMap blankChar) = (ofChars cs).map blankByte := by
  induction cs with
  | nil => rfl
  | cons c cs ih => rw [flatMap_cons, ofChars_append, ofChars_blankChar, ih, ofChars_cons, map_append]

theorem blank?_append (before middle after : Bytes) :
    blank? (before ++ (middle ++ after)) before.length (before.length + middle.length) =
      some (before ++ (middle.map blankByte ++ after)) := by
  have hle : before.length + middle.length ≤ (before ++ (middle ++ after)).length := by simp
  rw [blank?]
  simp only [Nat.min_eq_left hle, Nat.le_add_right, if_true, Nat.add_sub_cancel_left, take_left, drop_left,
    ← drop_drop, append_assoc]

theorem render_of_hidden_eq_none (hlen : piece.length = xs.length)
    (hhidden : (stretchOf piece keep i cs).hidden = none) :
    piece.render keep xs = xs := by
  refine Eq.trans ?_ (Piece.parts hlen)
  cases hk : piece.kind <;> cases keep <;> simp [stretchOf, hk, Piece.render] at hhidden ⊢

theorem blank?_stretchOf (hlen : piece.length = xs.length) {start stop : Nat} (done : Bytes)
    (hhidden : (stretchOf piece keep done.length (xs ++ ys)).hidden = some (start, stop)) :
    blank? (done ++ ofChars (xs ++ ys)) start stop =
      some (done ++ ofChars (piece.render keep xs) ++ ofChars ys) := by
  have hparts := Piece.parts hlen
  obtain ⟨opening, hopening⟩ : ∃ l, l = xs.take piece.opening := ⟨_, rfl⟩
  obtain ⟨body, hbody⟩ : ∃ l, l = (xs.drop piece.opening).take piece.body := ⟨_, rfl⟩
  obtain ⟨closing, hclosing⟩ : ∃ l, l = (xs.drop (piece.opening + piece.body)).take piece.closing := ⟨_, rfl⟩
  rw [← hopening, ← hbody, ← hclosing] at hparts
  have hstart : (xs ++ ys).take piece.opening = opening := by
    rw [hopening, take_append_of_le_length (by rw [← hlen, Piece.length]; omega)]
  have hstop : (xs ++ ys).take (piece.opening + piece.body) = opening ++ body := by
    rw [take_append_of_le_length (by rw [← hlen, Piece.length]; omega), take_add, hopening, hbody]
  have hrender : piece.render keep xs = opening ++ body.flatMap blankChar ++ closing := by
    rw [Piece.render, ← hopening, ← hbody, ← hclosing]
    cases hk : piece.kind <;> cases keep <;> simp [stretchOf, hk] at hhidden ⊢
  have hrange : (start, stop) = (done.length + (ofChars opening).length,
      done.length + (ofChars (opening ++ body)).length) := by
    unfold stretchOf at hhidden
    dsimp only at hhidden
    split at hhidden
    · rw [hstart, hstop] at hhidden
      exact (Option.some.inj hhidden).symm
    · cases hhidden
  cases hrange
  have hblank := blank?_append (done ++ ofChars opening) (ofChars body) (ofChars closing ++ ofChars ys)
  rw [hrender, ← hparts]
  simp only [ofChars_append, ofChars_blanks, append_assoc, length_append, Nat.add_assoc] at hblank ⊢
  exact hblank

theorem maskFrom?_of_stretch
    (hb : bytes[i]? = some b) (fuel : Nat) (out : Bytes) : maskFrom? lexicon keep bytes (fuel + 1) i out =
      match (stretchAt lexicon keep bytes i b).hidden with
      | none => maskFrom? lexicon keep bytes fuel (stretchAt lexicon keep bytes i b).next out
      | some (start, stop) => (blank? out start stop).bind
          (maskFrom? lexicon keep bytes fuel (stretchAt lexicon keep bytes i b).next) := by
  rw [maskFrom?, hb]

theorem maskFrom?_of_le (hregular : lexicon.Regular) (keep : Bool)
    {xs ys : Bytes} (hxs : ∀ x ∈ xs, 128 ≤ x.toNat) (hdrop : bytes.drop i = xs ++ ys) (fuel : Nat) (out : Bytes) :
    maskFrom? lexicon keep bytes (fuel + xs.length) i out =
      maskFrom? lexicon keep bytes fuel (i + xs.length) out := by
  induction xs generalizing i with
  | nil => rfl
  | cons x xs ih =>
    rw [cons_append] at hdrop
    have hx : bytes[i]? = some x := by
      rw [← Nat.add_zero i, ← getElem?_drop, hdrop, getElem?_cons_zero]
    have hrest : bytes.drop (i + 1) = xs ++ ys := by
      rw [← drop_drop, hdrop, drop_one, tail_cons]
    rw [length_cons, ← Nat.add_assoc, maskFrom?_of_stretch hx,
      stretchAt_of_le hregular keep (hxs x mem_cons_self) hdrop]
    dsimp only
    rw [ih (forall_mem_cons.1 hxs).2 hrest, Nat.add_assoc, Nat.add_comm 1]

theorem exists_getLast?_ofChars (xs : List Char) (x : Char) : ∃ b, (ofChars (xs ++ [x])).getLast? = some b ∧
    ∀ d, IsAscii d → (b = d.toUInt8 ↔ x = d) := by
  obtain ⟨b, tail, htail, hhigh, hiff⟩ := exists_utf8EncodeChar x
  rw [ofChars_append, ofChars_cons, ofChars_nil, append_nil, htail]
  cases hlast : tail.getLast? with
  | none =>
    obtain rfl := getLast?_eq_none_iff.1 hlast
    exact ⟨b, by simp, hiff⟩
  | some y =>
    refine ⟨y, by simp [getLast?_append, getLast?_cons, hlast], fun d hd => iff_of_false ?_ ?_⟩
    · exact (toUInt8_ne_of_le hd (hhigh y (mem_of_getLast? hlast))).symm
    · rintro rfl
      rw [utf8Encode_ascii hd, List.cons.injEq] at htail
      rw [← htail.2] at hlast
      cases hlast

theorem boundaryAt_eq (h : Reads bytes i (xs ++ ys)) (hne : xs ≠ []) :
    boundaryAt bytes (i + (ofChars xs).length) = isBoundary xs.getLast? := by
  obtain ⟨init, x, rfl⟩ : ∃ init x, xs = init ++ [x] :=
    ⟨xs.dropLast, xs.getLast hne, (dropLast_append_getLast hne).symm⟩
  obtain ⟨b, hb, hiff⟩ := exists_getLast?_ofChars init x
  have hpos : 0 < (ofChars (init ++ [x])).length := by
    rw [length_pos_iff]
    intro hnil
    rw [hnil] at hb
    cases hb
  have hbyte : bytes[i + (ofChars (init ++ [x])).length - 1]? = some b := by
    rw [getLast?_eq_getElem?] at hb
    rw [Nat.add_sub_assoc hpos, h.getElem?_eq, ofChars_append (init ++ [x]), getElem?_append_left (by omega), hb]
  rw [boundaryAt, hbyte, decide_eq_false (by omega), Bool.false_or, getLast?_concat, isBoundary, any_some,
    Bool.eq_iff_iff]
  simp only [Bool.or_eq_true, decide_eq_true_eq, beq_iff_eq]
  rw [hiff ' ' (by decide), hiff '\t' (by decide), hiff '\n' (by decide), hiff '\r' (by decide),
    hiff '\x0c' (by decide), hiff ';' (by decide)]

end Bytes

/-- **In the place of a byte there is the byte or, unless it is a line feed, a blank.** -/
theorem Masked.forall₂ (h : Masked cs ds) :
    Forall₂ (fun b d => d = b ∨ d = ' '.toUInt8 ∧ b ≠ '\n'.toUInt8) (ofChars cs) (ofChars ds) := by
  induction h with
  | nil => exact .nil
  | keep c _ ih =>
    rw [ofChars_cons, ofChars_cons]
    exact rel_append (forall₂_same.2 fun b _ => .inl rfl) ih
  | hide c _ ih =>
    rw [ofChars_cons, ofChars_append, ofChars_blankChar]
    refine rel_append ?_ ih
    rw [forall₂_map_right_iff, forall₂_same]
    intro b _
    unfold blankByte
    split
    · exact .inl rfl
    · exact .inr ⟨rfl, ‹_›⟩

namespace Bytes

theorem maskFrom?_ofChars (hregular : lexicon.Regular) (keep : Bool) {bytes : Bytes}
    {before : Option Char} {cs : List Char} {fuel i : Nat} {done : Bytes} (h : Reads bytes i cs)
    (hbefore : boundaryAt bytes i = isBoundary before) (hdone : done.length = i) (hfuel : (ofChars cs).length ≤ fuel) :
    maskFrom? lexicon keep bytes fuel i (done ++ ofChars cs) =
      some (done ++ ofChars (masked lexicon keep before cs)) := by
  induction before, cs using pieces_induction hregular generalizing fuel i done with
  | nil before =>
    have hend : bytes.length = i := h.length_eq
    rw [masked_nil, ofChars_nil, append_nil]
    cases fuel with
    | zero => rw [maskFrom?, if_neg (by omega)]
    | succ fuel => rw [maskFrom?, getElem?_eq_none (by omega)]
  | piece before xs ys hne hlen ih =>
    have ih {fuel' : Nat} {done' : Bytes} (hdone' : done'.length = i + (ofChars xs).length)
        (hfuel' : (ofChars ys).length ≤ fuel') := ih h.right (boundaryAt_eq h hne) hdone' hfuel'
    obtain ⟨x, xs, rfl⟩ := exists_cons_of_ne_nil hne
    obtain ⟨b, tail, htail, hhigh, hb, hdrop, -, -⟩ := Reads.cons (show Reads bytes i (x :: (xs ++ ys)) from h)
    have hsize : (ofChars (x :: xs)).length = tail.length + 1 + (ofChars xs).length := by
      rw [ofChars_cons, htail, length_append, length_cons]
    have hrender := (Masked.render hlen keep).forall₂.length_eq
    rw [ofChars_append, length_append] at hfuel
    rw [masked_append hregular hne hlen, ofChars_append _ (masked _ _ _ _), ← append_assoc]
    by_cases hpiece : IsAscii x ∨ pieceAt lexicon before (x :: xs ++ ys) ≠ .code
    · obtain ⟨fuel, rfl⟩ : ∃ m, fuel = m + 1 := ⟨fuel - 1, by omega⟩
      have hstep : stretchAt lexicon keep bytes i b =
          stretchOf (pieceAt lexicon before (x :: xs ++ ys)) keep i (x :: xs ++ ys) :=
        stretchAt_eq hregular h hbefore hb keep hpiece
      have hnext : (stretchOf (pieceAt lexicon before (x :: xs ++ ys)) keep i (x :: xs ++ ys)).next =
          i + (ofChars (x :: xs)).length := by
        rw [stretchOf, hlen, take_left]
      rw [maskFrom?_of_stretch hb, hstep, hnext]
      split
      · rename_i hhidden
        rw [render_of_hidden_eq_none hlen hhidden, ofChars_append, ← append_assoc,
          ih (by rw [length_append, hdone]) (by omega)]
      · rename_i start stop hhidden
        rw [← hdone] at hhidden
        rw [blank?_stretchOf hlen done hhidden, bind_some, ih (by rw [length_append, hdone, hrender]) (by omega)]
    · -- one character of several bytes, which the walk takes one by one
      rw [not_or, not_not] at hpiece
      obtain rfl : xs = [] := by
        rw [hpiece.2, Piece.length_code, length_cons] at hlen
        exact length_eq_zero_iff.1 (by omega)
      have hall : ∀ y ∈ b :: tail, 128 ≤ y.toNat := fun y hy => le_of_mem_utf8EncodeChar hpiece.1 (htail ▸ hy)
      have hbytes : bytes.drop i = (b :: tail) ++ ofChars ys := by
        rw [h.drop, ofChars_append, ofChars_cons, htail, ofChars_nil, append_nil]
      obtain ⟨fuel, rfl⟩ : ∃ m, fuel = m + (b :: tail).length := ⟨fuel - (tail.length + 1), by
        rw [length_cons]; omega⟩
      have hcode : Piece.code.render keep [x] = [x] := rfl
      have hnext : i + (b :: tail).length = i + (ofChars [x]).length := by rw [hsize]; rfl
      rw [maskFrom?_of_le hregular keep hall hbytes, hnext, hpiece.2, hcode, ofChars_append,
        ← append_assoc, ih (by rw [length_append, hdone])]
      rw [length_cons] at hfuel
      omega

/-- **On a text the walk ends, and gives the bytes of the masked text.** -/
theorem mask?_ofText (hregular : lexicon.Regular) (keep : Bool) (text : String) :
    mask? lexicon keep (ofText text) = some (ofText (mask lexicon keep text)) := by
  rw [ofText_eq_ofChars, ofText_eq_ofChars, toList_mask]
  exact maskFrom?_ofChars hregular keep ⟨Nat.zero_le _, rfl⟩ rfl length_nil (Nat.le_refl _)

end Bytes

theorem Masked.getElem? (h : Masked cs ds) (i : Nat) : (ofChars ds)[i]? = (ofChars cs)[i]? ∨
      (ofChars ds)[i]? = some ' '.toUInt8 ∧ (ofChars cs)[i]? ≠ some '\n'.toUInt8 := by
  obtain ⟨hlen, hall⟩ := forall₂_iff_get.1 h.forall₂
  by_cases hi : i < (ofChars cs).length
  · have hi' := hlen ▸ hi
    rw [getElem?_eq_getElem hi, getElem?_eq_getElem hi', Option.some.injEq, Option.some.injEq, ne_eq, Option.some.injEq]
    exact hall i hi hi'
  · rw [getElem?_eq_none (Nat.le_of_not_lt hi), getElem?_eq_none (hlen ▸ Nat.le_of_not_lt hi)]
    exact .inl rfl

/-- **Masking keeps every offset.** The walk over the bytes of a text ends and stays within them. What
it gives is a text again, as long as the first, in which each byte is that of the first or a blank and
the line feeds are where they were; and where literals are hidden, what is left is as if they were
kept. -/
theorem mask_keeps_offsets {lexicon : Lexicon} (h : lexicon ∈ Lexicon.known) (text : String) :
    (∀ keep, ∃ out, Bytes.mask? lexicon keep (Bytes.ofText text) = some out ∧
      out.text? = some (mask lexicon keep text) ∧ out.lossyText = mask lexicon keep text ∧
      out.length = (Bytes.ofText text).length ∧
      (∀ i : Nat, out[i]? = (Bytes.ofText text)[i]? ∨ out[i]? = some ' '.toUInt8) ∧
      ∀ i : Nat, out[i]? = some '\n'.toUInt8 ↔ (Bytes.ofText text)[i]? = some '\n'.toUInt8) ∧
    ∀ kept hidden, Bytes.mask? lexicon true (Bytes.ofText text) = some kept →
      Bytes.mask? lexicon false (Bytes.ofText text) = some hidden →
      ∀ i : Nat, hidden[i]? ≠ some ' '.toUInt8 → kept[i]? = hidden[i]? := by
  have hregular := Lexicon.regular_of_known h
  refine ⟨fun keep => ⟨_, Bytes.mask?_ofText hregular keep text, Bytes.text?_ofText _,
    Bytes.lossyText_ofText _, ?_⟩, fun kept hidden hkept hhidden i hi => ?_⟩
  · have hmasked := Masked.masked hregular keep none text.toList
    rw [← toList_mask] at hmasked
    rw [Bytes.ofText_eq_ofChars, Bytes.ofText_eq_ofChars]
    refine ⟨hmasked.forall₂.length_eq.symm, fun i => (hmasked.getElem? i).imp_right And.left, fun i => ?_⟩
    rcases hmasked.getElem? i with hsame | ⟨hblank, hfeed⟩
    · rw [hsame]
    · exact iff_of_false (by rw [hblank]; decide) hfeed
  · rw [Bytes.mask?_ofText hregular, Option.some.injEq] at hkept hhidden
    have hmore := masked_true_false hregular none text.toList
    rw [← toList_mask, ← toList_mask] at hmore
    rw [← hkept, ← hhidden, Bytes.ofText_eq_ofChars, Bytes.ofText_eq_ofChars] at *
    exact ((hmore.getElem? i).resolve_right fun hblank => hi hblank.1).symm

/-- An escape whose second byte is inside a character, and a comment that ends in one. -/
theorem mask_keeps_offsets_escape : Lexicon.slashed ∈ Lexicon.known ∧
    ∃ out, Bytes.mask? .slashed false (Bytes.ofText "\"\\é\" // é\n") = some out ∧
      out.text? = some "\"   \"      \n" ∧ out.length = (Bytes.ofText "\"\\é\" // é\n").length := by
  have hmask : mask .slashed false "\"\\é\" // é\n" = "\"   \"      \n" := by decide
  have hknown : Lexicon.slashed ∈ Lexicon.known := by decide
  obtain ⟨out, hout, htext, -, hlen, -⟩ := (mask_keeps_offsets hknown "\"\\é\" // é\n").1 false
  exact ⟨hknown, out, hout, hmask ▸ htext, hlen⟩

end Deadwood
