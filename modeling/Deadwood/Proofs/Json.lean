import Deadwood.Data.Json
import Deadwood.Proofs.Digits
import Deadwood.Proofs.Text

/-!
# Reading what was written as JSON

* `Json.Readable`: values without fractions whose numbers have at most 64 bits and that do not nest too
  deep;
* `Json.readText?_quote`: a text in quotes is read back;
* `Json.read?_pretty`: a readable value is read back.
-/

namespace Deadwood.Json

open Option List

variable {c : Char} {j : Json} {fields : List (String × Json)} {cs rest tail : List Char} {items : List Json}
  {depth fuel n outer : Nat}

/-! ## White space -/

/-- The text goes on with something that is not white space. -/
def StartsWord (cs : List Char) : Prop := ∃ c rest, cs = c :: rest ∧ isGap c = false

theorem startsWord_cons (h : isGap c = false) (rest : List Char) : StartsWord (c :: rest) :=
  ⟨c, rest, rfl, h⟩

theorem skip_of_startsWord (h : StartsWord cs) : skip cs = cs := by
  obtain ⟨c, rest, rfl, hc⟩ := h
  simp [skip, hc]

theorem skip_newLine (depth : Nat) (h : StartsWord cs) : skip ((newLine depth).toList ++ cs) = cs := by
  have hgap : ∀ c ∈ (newLine depth).toList, isGap c = true := by
    intro c hc
    rw [newLine, String.toList_ofList, mem_cons] at hc
    rcases hc with rfl | hc
    · rfl
    · rw [(mem_replicate.1 hc).2]
      rfl
  rw [skip, dropWhile_append_of_pos hgap]
  exact skip_of_startsWord h

/-! ## Texts -/

theorem readEscapedUnit?_control (h : n < 0x20) (rest : List Char) :
    readEscapedUnit? ('0' :: '0' :: hexDigit (n / 16) :: hexDigit (n % 16) :: rest) = some (Char.ofNat n, rest) := by
  have hall : ∀ n < 0x20, hexValue? (hexDigit (n / 16)) = some (n / 16) ∧
      hexValue? (hexDigit (n % 16)) = some (n % 16) := by decide
  obtain ⟨h₁, h₂⟩ := hall n h
  have h₀ : hexValue? '0' = some 0 := by decide
  have hunit : readUnit? ('0' :: '0' :: hexDigit (n / 16) :: hexDigit (n % 16) :: rest) = some (n, rest) := by
    simp only [readUnit?, h₀, h₁, h₂, bind_eq_bind, bind_some, Option.pure_def]
    rw [show ((0 * 16 + 0) * 16 + n / 16) * 16 + n % 16 = n by omega]
  simp only [readEscapedUnit?, hunit, bind_eq_bind, bind_some]
  rw [if_neg (by simp; omega), if_neg (by simp; omega)]
  rfl

/-- A character stands for itself, or it is written with a letter or with digits after a backslash. -/
theorem escape_cases (c : Char) : (escape c = [c] ∧ c ≠ '"' ∧ c ≠ '\\' ∧ ¬ c.toNat < 0x20) ∨
      (∃ e, escape c = ['\\', e] ∧ e ≠ 'u' ∧ escaped? e = some c) ∨
      (escape c = ['\\', 'u', '0', '0', hexDigit (c.toNat / 16), hexDigit (c.toNat % 16)] ∧ c.toNat < 0x20) := by
  by_cases hspecial : c ∈ ['"', '\\', '\x08', '\x0c', '\n', '\r', '\t']
  · refine .inr (.inl ?_)
    simp only [mem_cons, not_mem_nil, or_false] at hspecial
    obtain rfl | rfl | rfl | rfl | rfl | rfl | rfl := hspecial
    · exact ⟨'"', rfl, by decide, rfl⟩
    · exact ⟨'\\', rfl, by decide, rfl⟩
    · exact ⟨'b', rfl, by decide, rfl⟩
    · exact ⟨'f', rfl, by decide, rfl⟩
    · exact ⟨'n', rfl, by decide, rfl⟩
    · exact ⟨'r', rfl, by decide, rfl⟩
    · exact ⟨'t', rfl, by decide, rfl⟩
  · simp only [mem_cons, not_mem_nil, or_false, not_or] at hspecial
    obtain ⟨h₁, h₂, h₃, h₄, h₅, h₆, h₇⟩ := hspecial
    unfold escape
    rw [if_neg h₁, if_neg h₂, if_neg h₃, if_neg h₄, if_neg h₅, if_neg h₆, if_neg h₇]
    split
    · exact .inr (.inr ⟨rfl, ‹_›⟩)
    · exact .inl ⟨rfl, h₁, h₂, ‹_›⟩

theorem readText?_backslash (fuel : Nat) (read rest : List Char) {e d : Char} (he : e ≠ 'u')
    (hd : escaped? e = some d) : readText? (fuel + 1) read ('\\' :: e :: rest) = readText? fuel (d :: read) rest := by
  rw [readText?, if_neg (by decide), if_neg (by decide), if_pos rfl, hd]
  exact he

theorem readText?_escape (fuel : Nat) (read : List Char) (c : Char) (rest : List Char) :
    readText? (fuel + 1) read (escape c ++ rest) = readText? fuel (c :: read) rest := by
  rcases escape_cases c with ⟨h, hquote, hback, hcontrol⟩ | ⟨e, h, hu, he⟩ | ⟨h, hcontrol⟩
  · rw [h, singleton_append, readText?.eq_def]
    simp only [if_neg hquote, if_neg hcontrol, if_neg hback]
  · rw [h]
    exact readText?_backslash fuel read rest hu he
  · rw [h]
    have hunit := readEscapedUnit?_control hcontrol rest
    rw [Char.ofNat_toNat] at hunit
    simp only [cons_append, nil_append]
    rw [readText?, if_neg (by decide), if_neg (by decide), if_pos rfl, hunit]

theorem readText?_escapes (read cs rest : List Char) (hfuel : cs.length < fuel) :
    readText? fuel read (cs.flatMap escape ++ '"' :: rest) =
      some (String.ofList (read.reverse ++ cs), rest) := by
  induction cs generalizing fuel read with
  | nil =>
    obtain ⟨fuel, rfl⟩ := Nat.exists_eq_succ_of_ne_zero (Nat.ne_of_gt hfuel)
    rw [flatMap_nil, nil_append, readText?.eq_def, append_nil]
    rfl
  | cons c cs ih =>
    obtain ⟨fuel, rfl⟩ := Nat.exists_eq_succ_of_ne_zero (Nat.ne_of_gt (Nat.lt_of_le_of_lt (Nat.zero_le _) hfuel))
    rw [flatMap_cons, append_assoc, readText?_escape, ih _ (Nat.lt_of_succ_lt_succ hfuel)]
    simp

theorem length_escapes (cs : List Char) : cs.length ≤ (cs.flatMap escape).length := by
  induction cs with
  | nil => simp
  | cons c cs ih =>
    have hone : 1 ≤ (escape c).length := by
      rcases escape_cases c with ⟨h, -⟩ | ⟨e, h, -⟩ | ⟨h, -⟩ <;> simp [h]
    rw [flatMap_cons, length_append, length_cons]
    omega

/-- **A text in quotes is read back.** -/
theorem readText?_quote (s : String) (rest : List Char) :
    ∃ cs, (quote s).toList = '"' :: cs ∧ readText? ((cs ++ rest).length + 1) [] (cs ++ rest) = some (s, rest) := by
  refine ⟨s.toList.flatMap escape ++ ['"'], by rw [quote, String.toList_ofList, cons_append], ?_⟩
  have hlen := length_escapes s.toList
  rw [append_assoc, singleton_append, readText?_escapes]
  · simp
  · rw [length_append, length_cons]
    omega

/-! ## Numbers -/

theorem head?_toDigits (h : 0 < n) : (Nat.toDigits 10 n).head? ≠ some '0' := by
  induction n using Nat.strongRecOn with
  | ind n ih =>
    rw [Nat.toDigits_eq_if (by decide)]
    split
    · rename_i hlt
      have hall : ∀ n < 10, 0 < n → n.digitChar ≠ '0' := by decide
      simpa using hall n hlt h
    · rename_i hge
      rw [head?_append, or_of_isSome (by simp)]
      exact ih (n / 10) (by omega) (by omega)

/-- What follows a number does not go on with it. -/
def EndsNumber (rest : List Char) : Prop :=
  ∀ c, rest.head? = some c → Text.isAsciiDigit c = false ∧ c ≠ '.' ∧ c ≠ 'e' ∧ c ≠ 'E'

theorem readFraction?_end (h : EndsNumber rest) : readFraction? rest = some ([], rest) := by
  unfold readFraction?
  split
  · exact absurd rfl (h '.' rfl).2.1
  · rfl

theorem readPower?_end (h : EndsNumber rest) : readPower? rest = some (none, rest) := by
  unfold readPower?
  split
  · exact absurd rfl (h 'e' rfl).2.2.1
  · exact absurd rfl (h 'E' rfl).2.2.2
  · rfl

theorem ofParts?_natural (h : n < 2 ^ 64) : ofParts? false (Nat.toDigits 10 n) [] none = some (integer n) := by
  have hrange : -Int.pow 2 63 ≤ (n : Int) ∧ (n : Int) < Int.pow 2 64 := by
    constructor
    · exact Int.le_trans (by decide) (Int.natCast_nonneg n)
    · exact Int.ofNat_lt.2 h
  unfold ofParts?
  simp only [Bool.false_eq_true, if_false, digitsValue_toDigits, isEmpty_nil, isNone_none,
    Bool.and_self, Bool.false_and, Bool.not_false, Bool.true_and]
  rw [if_pos (by simpa using hrange)]

theorem readNumber?_digits {ds : List Char} {value : Json} (hne : ds ≠ [])
    (hds : ∀ c ∈ ds, Text.isAsciiDigit c = true) (hzero : 1 < ds.length → ¬ ds.head? = some '0')
    (hrest : EndsNumber rest) (hvalue : ofParts? false ds [] none = some value) :
    readNumber? (ds ++ rest) = some (value, rest) := by
  have hends : EndsDigits rest := fun c hc => (hrest c hc).1
  have hread : readDigits? (ds ++ rest) = some (ds, rest) := by
    unfold readDigits?
    rw [takeWhile_digits hds hends, Text.dropWhile_append_eq hds hends]
    simp [hne]
  have hsign : ∀ rest', ds ++ rest ≠ '-' :: rest' := by
    intro rest' heq
    obtain ⟨c, cs, rfl⟩ := exists_cons_of_ne_nil hne
    have := hds c mem_cons_self
    rw [(List.cons.inj heq).1] at this
    cases this
  unfold readNumber?
  split
  rename_i negative cs heq
  split at heq
  · rename_i rest' heq'
    exact absurd heq' (hsign rest')
  · cases heq
    refine bind_eq_some_iff.2 ⟨(ds, rest), hread, ?_⟩
    have hlead : ¬ (decide (ds.length > 1) && ds.head? == some '0') = true := by simpa using hzero
    refine (if_neg hlead).trans ?_
    refine bind_eq_some_iff.2 ⟨([], rest), readFraction?_end hrest, ?_⟩
    refine bind_eq_some_iff.2 ⟨(none, rest), readPower?_end hrest, ?_⟩
    exact bind_eq_some_iff.2 ⟨value, hvalue, rfl⟩

theorem readNumber?_natural (h : n < 2 ^ 64) (hrest : EndsNumber rest) :
    readNumber? (Nat.toDigits 10 n ++ rest) = some (integer n, rest) := by
  refine readNumber?_digits (by simp) (isAsciiDigit_toDigits n) (fun hlen => ?_) hrest (ofParts?_natural h)
  refine head?_toDigits (Nat.pos_of_ne_zero ?_)
  rintro rfl
  exact absurd hlen (by decide)

/-! ## Values -/

/-- Values that are read back: all numbers have at most 64 bits and no fraction, and lists and objects
nest less deep than a bound. -/
inductive Readable : (depth : Nat) → Json → Prop
  | null {depth : Nat} : Readable (depth + 1) .null
  | bool {depth : Nat} (b : Bool) : Readable (depth + 1) (.bool b)
  | natural {depth n : Nat} (h : n < 2 ^ 64) : Readable (depth + 1) (.natural n)
  | string {depth : Nat} (s : String) : Readable (depth + 1) (.string s)
  | array {depth : Nat} {items : List Json} (hdepth : depth ≠ 0) (h : ∀ item ∈ items, Readable depth item) :
      Readable (depth + 1) (.array items)
  | object {depth : Nat} {fields : List (String × Json)} (hdepth : depth ≠ 0)
      (h : ∀ field ∈ fields, Readable depth field.2) : Readable (depth + 1) (.object fields)

theorem prettyItems_eq (depth : Nat) (items : List Json) : prettyItems depth items = items.map (prettyAt depth) := by
  induction items with
  | nil => rfl
  | cons item items ih => rw [prettyItems, ih, map_cons]

def fieldText (depth : Nat) (field : String × Json) : String := quote field.1 ++ ": " ++ prettyAt depth field.2

theorem prettyFields_eq (depth : Nat) (fields : List (String × Json)) :
    prettyFields depth fields = fields.map (fieldText depth) := by
  induction fields with
  | nil => rfl
  | cons field fields ih => rw [prettyFields, ih, map_cons, fieldText]

theorem endsNumber_cons (h : Text.isAsciiDigit c = false ∧ c ≠ '.' ∧ c ≠ 'e' ∧ c ≠ 'E')
    (rest : List Char) : EndsNumber (c :: rest) := by
  intro d hd
  cases hd
  exact h

theorem endsNumber_newLine (depth : Nat) (rest : List Char) : EndsNumber ((newLine depth).toList ++ rest) := by
  rw [newLine, String.toList_ofList]
  exact endsNumber_cons (by decide) _

theorem toList_join_cons (depth : Nat) (part : String) (parts : List String) (rest : List Char) :
    (Text.join ("," ++ newLine depth) (part :: parts)).toList ++ rest = part.toList ++ if parts = [] then rest
        else ',' :: ((newLine depth).toList ++ ((Text.join ("," ++ newLine depth) parts).toList ++ rest)) := by
  by_cases h : parts = []
  · subst h
    simp [Text.join]
  · rw [Text.join_cons h, if_neg h]
    simp

theorem length_le_join (depth : Nat) (parts : List String) :
    parts.length ≤ (Text.join ("," ++ newLine depth) parts).toList.length + 1 := by
  induction parts with
  | nil => exact Nat.zero_le _
  | cons part parts ih =>
    have hcons := congrArg List.length (toList_join_cons depth part parts [])
    rw [append_nil] at hcons
    rw [hcons]
    split
    · next hnil => simp [hnil]
    · simp only [append_nil, length_append, length_cons]
      omega

/-- A part of a list or an object is read as a whole, before a comma and before the closing character. -/
structure ReadsPart (close : Char) (part : α → String) (loop : Nat → List α → List Char → Option (List α × List Char))
    (a : α) : Prop where
  head : ∃ c cs, (part a).toList = c :: cs ∧ isGap c = false ∧ c ≠ close
  more {fuel : Nat} {read : List α} {cs rest : List Char} (hcs : skip cs = (part a).toList ++ ',' :: rest) :
    loop (fuel + 1) read cs = loop fuel (a :: read) rest
  last {fuel outer : Nat} {read : List α} {cs rest : List Char}
    (hcs : skip cs = (part a).toList ++ ((newLine outer).toList ++ close :: rest)) :
    loop (fuel + 1) read cs = some ((a :: read).reverse, rest)

section Parts

variable {α : Type} {close o : Char} {part : α → String} {opening closing : String} {parts : List α}
  {loop : Nat → List α → List Char → Option (List α × List Char)}

theorem ReadsPart.startsWord {a : α} (h : ReadsPart close part loop a) (rest : List Char) :
    StartsWord ((part a).toList ++ rest) := by
  obtain ⟨c, cs, hcs, hc, -⟩ := h.head
  rw [hcs]
  exact startsWord_cons hc _

theorem loop_join (h : ∀ a ∈ parts, ReadsPart close part loop a) (read : List α) (hne : parts ≠ [])
    (hfuel : parts.length ≤ fuel) (hcs : skip cs = (Text.join ("," ++ newLine depth) (parts.map part)).toList ++
      ((newLine outer).toList ++ close :: rest)) :
    loop fuel read cs = some (read.reverse ++ parts, rest) := by
  induction parts generalizing fuel read cs with
  | nil => exact absurd rfl hne
  | cons a parts ih =>
    obtain ⟨ha, hparts⟩ := forall_mem_cons.1 h
    obtain ⟨fuel, rfl⟩ := Nat.exists_eq_succ_of_ne_zero (Nat.ne_of_gt (Nat.lt_of_lt_of_le (Nat.zero_lt_succ _) hfuel))
    rw [map_cons, toList_join_cons] at hcs
    by_cases hnil : parts = []
    · subst hnil
      rw [map_nil, if_pos rfl] at hcs
      rw [ha.last hcs, reverse_cons]
    · rw [if_neg (by simpa using hnil)] at hcs
      rw [ha.more hcs, ih hparts _ hnil (Nat.le_of_succ_le_succ hfuel)]
      · simp
      · refine skip_newLine depth ?_
        obtain ⟨b, parts, rfl⟩ := exists_cons_of_ne_nil hnil
        rw [map_cons, toList_join_cons]
        exact (hparts b mem_cons_self).startsWord _

section

variable (ho : opening.toList = [o]) (hc : closing.toList = [close])
include ho hc

theorem toList_enclose_nil (depth : Nat) : (enclose depth opening closing []).toList = [o, close] := by
  simp [enclose, ho, hc]

theorem toList_enclose (depth : Nat) {parts : List String} (h : parts ≠ []) :
    (enclose depth opening closing parts).toList = o :: ((newLine (depth + 1)).toList ++
      ((Text.join ("," ++ newLine (depth + 1)) parts).toList ++ ((newLine depth).toList ++ [close]))) := by
  rw [enclose, if_neg (by simpa using h)]
  simp [ho, hc]

theorem head_enclose (depth : Nat) (parts : List String) :
    ∃ cs, (enclose depth opening closing parts).toList = o :: cs := by
  by_cases h : parts = []
  · exact ⟨_, h ▸ toList_enclose_nil ho hc depth⟩
  · exact ⟨_, toList_enclose ho hc depth h⟩

/-- **Parts are read back**, after the opening character. -/
theorem exists_enclose (h : ∀ a ∈ parts, ReadsPart close part loop a) (hne : parts ≠ []) (d : Nat) (rest : List Char) :
    ∃ cs tail, (enclose d opening closing (parts.map part)).toList ++ rest = o :: cs ∧ skip cs = tail ∧
      tail.head? ≠ some close ∧ loop (tail.length + 1) [] tail = some (parts, rest) := by
  obtain ⟨a, others, rfl⟩ := exists_cons_of_ne_nil hne
  obtain ⟨c, cs, hcs, hgap, hclose⟩ := (h a mem_cons_self).head
  rw [toList_enclose ho hc d (by simp)]
  simp only [cons_append, append_assoc, nil_append]
  generalize htail : (Text.join ("," ++ newLine (d + 1)) ((a :: others).map part)).toList ++
    ((newLine d).toList ++ close :: rest) = tail
  obtain ⟨cs', hhead⟩ : ∃ cs', tail = c :: cs' := ⟨_, by rw [← htail, map_cons, toList_join_cons, hcs]; rfl⟩
  have hstart : StartsWord tail := hhead ▸ startsWord_cons hgap _
  refine ⟨_, tail, rfl, skip_newLine (d + 1) hstart, by simpa [hhead] using hclose, ?_⟩
  refine loop_join h [] hne ?_ (by rw [skip_of_startsWord hstart, htail])
  have hlength := length_le_join (d + 1) ((a :: others).map part)
  rw [length_map] at hlength
  rw [← htail, length_append]
  omega

theorem readValue?_enclose {mk : List α → Json} (h : ∀ a ∈ parts, ReadsPart close part loop a)
    (hnone : ∀ rest, readValue? depth (o :: close :: rest) = some (mk [], rest))
    (hsome : ∀ {cs tail}, skip cs = tail → tail.head? ≠ some close →
      loop (tail.length + 1) [] tail = some (parts, rest) →
      readValue? depth (o :: cs) = some (mk parts, rest)) (d : Nat) :
    readValue? depth ((enclose d opening closing (parts.map part)).toList ++ rest) = some (mk parts, rest) := by
  by_cases hnil : parts = []
  · rw [hnil, map_nil, toList_enclose_nil ho hc]
    exact hnone rest
  · obtain ⟨cs, tail, htext, hskip, hhead, hloop⟩ := exists_enclose ho hc h hnil d rest
    rw [htext]
    exact hsome hskip hhead hloop

end

end Parts

theorem toList_fieldText (depth : Nat) (field : String × Json) (rest : List Char) :
    ∃ cs, (fieldText depth field).toList ++ rest = '"' :: cs ∧ readText? (cs.length + 1) [] cs =
      some (field.1, ':' :: ' ' :: ((prettyAt depth field.2).toList ++ rest)) := by
  obtain ⟨cs, hcs, hread⟩ := readText?_quote field.1 (':' :: ' ' :: ((prettyAt depth field.2).toList ++ rest))
  refine ⟨_, ?_, hread⟩
  rw [fieldText, String.toList_append, String.toList_append, hcs]
  simp

theorem toList_natural (depth n : Nat) : (prettyAt depth (natural n)).toList = Nat.toDigits 10 n := by
  rw [natural, prettyAt]
  change (Nat.repr n).toList = _
  rw [Nat.repr_eq_ofList_toDigits, String.toList_ofList]

theorem head_prettyAt (h : Readable depth j) (d : Nat) :
    ∃ c cs, (prettyAt d j).toList = c :: cs ∧ isGap c = false ∧ c ≠ ']' := by
  cases h with
  | null => exact ⟨'n', _, by rw [prettyAt]; rfl, by decide⟩
  | bool b =>
    cases b with
    | false => exact ⟨'f', _, by rw [prettyAt]; rfl, by decide⟩
    | true => exact ⟨'t', _, by rw [prettyAt]; rfl, by decide⟩
  | @natural _ n _ =>
    obtain ⟨c, cs, hcs⟩ := exists_cons_of_ne_nil (l := Nat.toDigits 10 n) (by simp)
    have hc : Text.isAsciiDigit c = true := isAsciiDigit_toDigits n c (by simp [hcs])
    refine ⟨c, cs, by rw [toList_natural, hcs], ?_, ?_⟩
    · refine Bool.eq_false_iff.2 fun hgap => ?_
      simp only [isGap, Bool.or_eq_true, beq_iff_eq] at hgap
      obtain ((rfl | rfl) | rfl) | rfl := hgap <;> cases hc
    · rintro rfl
      cases hc
  | string s =>
    obtain ⟨cs, hcs, -⟩ := readText?_quote s []
    exact ⟨'"', cs, by rw [prettyAt, hcs], by decide⟩
  | array _ _ =>
    rw [prettyAt]
    obtain ⟨cs, hcs⟩ := head_enclose (show "[".toList = ['['] from rfl) (show "]".toList = [']'] from rfl) d _
    exact ⟨'[', cs, hcs, by decide⟩
  | object _ _ =>
    rw [prettyAt]
    obtain ⟨cs, hcs⟩ := head_enclose (show "\x7b".toList = ['\x7b'] from rfl)
      (show "\x7d".toList = ['\x7d'] from rfl) d _
    exact ⟨'\x7b', cs, hcs, by decide⟩

theorem startsWord_prettyAt (h : Readable depth j) (d : Nat) (rest : List Char) :
    StartsWord ((prettyAt d j).toList ++ rest) := by
  obtain ⟨c, cs, hcs, hc, -⟩ := head_prettyAt h d
  rw [hcs]
  exact startsWord_cons hc _

/-! What a value starts with says how it is read. -/

theorem readValue?_array (hdepth : depth ≠ 0) (hskip : skip cs = rest) (hhead : rest.head? ≠ some ']')
    (hitems : readItems? (readValue? depth) (rest.length + 1) [] rest = some (items, tail)) :
    readValue? (depth + 1) ('[' :: cs) = some (array items, tail) := by
  subst hskip
  rw [readValue?, if_neg hdepth]
  split
  · rename_i heq
    rw [heq] at hhead
    exact absurd rfl hhead
  · rw [hitems]
    rfl

theorem readValue?_object (hdepth : depth ≠ 0) (hskip : skip cs = rest) (hhead : rest.head? ≠ some '\x7d')
    (hfields : readFields? (readValue? depth) (rest.length + 1) [] rest = some (fields, tail)) :
    readValue? (depth + 1) ('\x7b' :: cs) = some (object fields, tail) := by
  subst hskip
  rw [readValue?, if_neg hdepth]
  split
  · rename_i heq
    rw [heq] at hhead
    exact absurd rfl hhead
  · rw [hfields]
    rfl

theorem readsPart_item {item : Json} (h : Readable depth item) (hvalue : ∀ rest, EndsNumber rest →
      readValue? depth ((prettyAt d item).toList ++ rest) = some (item, rest)) :
    ReadsPart ']' (prettyAt d) (readItems? (readValue? depth)) item where
  head := head_prettyAt h d
  more hcs := by
    rw [readItems?, hcs, hvalue _ (endsNumber_cons (by decide) _)]
    simp only [skip_of_startsWord (startsWord_cons (show isGap ',' = false by decide) _)]
  last hcs := by
    rw [readItems?, hcs, hvalue _ (endsNumber_newLine _ _)]
    simp only [skip_newLine _ (startsWord_cons (show isGap ']' = false by decide) _)]

theorem readsPart_field {field : String × Json} (h : Readable depth field.2) (hvalue : ∀ rest, EndsNumber rest →
      readValue? depth ((prettyAt d field.2).toList ++ rest) = some (field.2, rest)) :
    ReadsPart '\x7d' (fieldText d) (readFields? (readValue? depth)) field := by
  have hblank (rest : List Char) : skip (' ' :: ((prettyAt d field.2).toList ++ rest)) =
      (prettyAt d field.2).toList ++ rest := skip_of_startsWord (startsWord_prettyAt h d rest)
  have hcolon (rest : List Char) : skip (':' :: rest) = ':' :: rest :=
    skip_of_startsWord (startsWord_cons (by decide) rest)
  refine ⟨?_, fun hcs => ?_, fun hcs => ?_⟩
  · obtain ⟨cs, hcs, -⟩ := toList_fieldText d field []
    exact ⟨'"', cs, by simpa using hcs, by decide⟩
  · obtain ⟨tail, htail, hread⟩ := toList_fieldText d field (',' :: _)
    rw [readFields?, hcs.trans htail]
    simp only [hread, hcolon, hblank, hvalue _ (endsNumber_cons (c := ',') (by decide) _),
      skip_of_startsWord (startsWord_cons (show isGap ',' = false by decide) _)]
  · obtain ⟨tail, htail, hread⟩ := toList_fieldText d field ((newLine _).toList ++ '\x7d' :: _)
    rw [readFields?, hcs.trans htail]
    simp only [hread, hcolon, hblank, hvalue _ (endsNumber_newLine _ _),
      skip_newLine _ (startsWord_cons (show isGap '\x7d' = false by decide) _)]

/-- **Every readable value is read back from its text.** -/
theorem readValue?_prettyAt (h : Readable depth j) (d : Nat)
    (hrest : EndsNumber rest) : readValue? depth ((prettyAt d j).toList ++ rest) = some (j, rest) := by
  induction h generalizing d rest with
  | null => rw [prettyAt]; rfl
  | bool b => cases b <;> rw [prettyAt] <;> rfl
  | @natural _ n h =>
    obtain ⟨c, cs, hcs⟩ := exists_cons_of_ne_nil (l := Nat.toDigits 10 n) (by simp)
    have hc : Text.isAsciiDigit c = true := isAsciiDigit_toDigits n c (by simp [hcs])
    rw [toList_natural, hcs, cons_append, readValue?_digit hc, ← cons_append, ← hcs]
    exact readNumber?_natural h hrest
  | string s =>
    obtain ⟨cs, hcs, hread⟩ := readText?_quote s rest
    rw [prettyAt, hcs, cons_append, readValue?]
    rw [hread]
    rfl
  | array hdepth h ih =>
    rw [prettyAt, prettyItems_eq]
    refine readValue?_enclose rfl rfl (fun item hitem => readsPart_item (h item hitem) fun _ => ih item hitem (d + 1))
      (fun rest => ?_) (readValue?_array hdepth) d
    rw [readValue?, if_neg hdepth]
    rfl
  | object hdepth h ih =>
    rw [prettyAt, prettyFields_eq]
    refine readValue?_enclose rfl rfl
      (fun field hfield => readsPart_field (h field hfield) fun _ => ih field hfield (d + 1))
      (fun rest => ?_) (readValue?_object hdepth) d
    rw [readValue?, if_neg hdepth]
    rfl

theorem read?_pretty (h : Readable depthLimit j) : read? j.pretty = some j := by
  have hvalue := readValue?_prettyAt h 0 (show EndsNumber [] from nofun)
  rw [append_nil] at hvalue
  have hskip := skip_of_startsWord (startsWord_prettyAt h 0 [])
  rw [append_nil] at hskip
  rw [read?, pretty, hskip, hvalue]
  rfl

end Deadwood.Json
