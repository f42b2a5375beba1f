import Deadwood.Text.Basic

/-!
# Texts and their parts

What the operations on texts say about texts put together from parts.
-/

namespace Deadwood.Text

open Option List
open String (singleton toList_singleton)
open String (ofList ofList_toList toList_append toList_inj toList_ofList)

variable {c : Char} {p : Char → Bool} {after before cs head needle piece xs ys : List Char} {a core s sep : String}

/-! ## Starts and ends -/

theorem startsWith_iff {head : String} : startsWith s head = true ↔ ∃ rest, s = head ++ rest := by
  rw [startsWith, isPrefixOf_iff_prefix]
  constructor
  · rintro ⟨rest, h⟩
    exact ⟨ofList rest, by rw [← toList_inj, toList_append, toList_ofList, h]⟩
  · rintro ⟨rest, rfl⟩
    exact ⟨rest.toList, by rw [toList_append]⟩

theorem endsWith_iff {tail : String} : endsWith s tail = true ↔ ∃ before, s = before ++ tail := by
  rw [endsWith, isSuffixOf_iff_suffix]
  constructor
  · rintro ⟨before, h⟩
    exact ⟨ofList before, by rw [← toList_inj, toList_append, toList_ofList, h]⟩
  · rintro ⟨before, rfl⟩
    exact ⟨before.toList, by rw [toList_append]⟩

theorem append_right_inj_of_size {r d e : String} (h : r ++ d = s ++ e)
    (hsize : d.utf8ByteSize = e.utf8ByteSize) : d = e := by
  have hlist : r.toList ++ d.toList = s.toList ++ e.toList := by
    rw [← toList_append, ← toList_append, h]
  have hcut {a b x : List Char} (hab : a = x ++ b)
      (hsame : (ofList a).utf8ByteSize = (ofList b).utf8ByteSize) : a = b := by
    rw [hab, String.ofList_append, String.utf8ByteSize_append] at hsame
    have hx : (ofList x).utf8ByteSize = 0 := by omega
    rw [String.utf8ByteSize_eq_zero_iff] at hx
    have : x = [] := by rw [← toList_ofList (l := x), hx, String.toList_empty]
    rw [hab, this, nil_append]
  rw [← ofList_toList (s := d), ← ofList_toList (s := e)] at hsize ⊢
  rcases append_eq_append_iff.1 hlist with ⟨x, -, hx⟩ | ⟨x, -, hx⟩
  · rw [hcut hx (by simpa using hsize)]
  · rw [← hcut hx (by simpa using hsize.symm)]

/-! ## Trimming -/

theorem beq_eq_false_of_notMem (h : c ∉ cs) : ∀ d ∈ cs, (d == c) = false := by
  intro d hd
  rw [beq_eq_false_iff_ne]
  rintro rfl
  exact h hd

theorem dropWhile_append_eq {core : List Char} (hbefore : ∀ c ∈ before, p c = true)
    (hcore : ∀ c ∈ core.head?, p c = false) : (before ++ core).dropWhile p = core := by
  rw [dropWhile_append_of_pos hbefore]
  cases core with
  | nil => rfl
  | cons c core => simp [hcore c rfl]

theorem dropWhileEnd_append_eq {core : List Char} (hcore : ∀ c ∈ core.getLast?, p c = false)
    (hafter : ∀ c ∈ after, p c = true) : dropWhileEnd p (core ++ after) = core := by
  rw [dropWhileEnd, reverse_append, dropWhile_append_eq, reverse_reverse]
  · simpa using hafter
  · simpa using hcore

theorem dropWhile_append_of_head (xs : List Char) (h : ∀ c ∈ ys.head?, p c = false) :
    (xs ++ ys).dropWhile p = xs.dropWhile p ++ ys := by
  have hys : ([] ++ ys).dropWhile p = ys := dropWhile_append_eq nofun h
  rw [dropWhile_append]
  split
  · rename_i hempty
    exact hys.trans (by rw [List.isEmpty_iff.1 hempty, nil_append])
  · rfl

theorem dropWhileEnd_append_of_last (h : ∀ c ∈ xs.getLast?, p c = false) (ys : List Char) :
    dropWhileEnd p (xs ++ ys) = xs ++ dropWhileEnd p ys := by
  rw [dropWhileEnd, reverse_append, dropWhile_append_of_head _ (by simpa using h), reverse_append, reverse_reverse]
  rfl

theorem exists_dropWhileEnd_append (p : Char → Bool) (cs : List Char) : ∃ rest, dropWhileEnd p cs ++ rest = cs :=
  ⟨(cs.reverse.takeWhile p).reverse, by
    rw [dropWhileEnd, ← reverse_append, takeWhile_append_dropWhile, reverse_reverse]⟩

theorem mem_head?_of_dropWhileEnd (h : c ∈ (dropWhileEnd p xs).head?) : c ∈ xs.head? := by
  obtain ⟨rest, hrest⟩ := exists_dropWhileEnd_append p xs
  rw [← hrest, head?_append, Option.mem_def.1 h]
  rfl

theorem trimStartWhere_singleton_append (h : c ∉ s.toList) : trimStartWhere (· == c) (singleton c ++ s) = s := by
  have hhead : ∀ d ∈ s.toList.head?, (d == c) = false := fun d hd =>
    beq_eq_false_of_notMem h d (mem_of_mem_head? hd)
  have hdrop : ([c] ++ s.toList).dropWhile (· == c) = s.toList := dropWhile_append_eq (by simp) hhead
  rw [trimStartWhere, toList_append, toList_singleton, hdrop, ofList_toList]

theorem trimEndWhere_append_of_notMem {after : String} (h : c ∉ s.toList)
    (hafter : ∀ d ∈ after.toList, (d == c) = true) : trimEndWhere (· == c) (s ++ after) = s := by
  have hlast : ∀ d ∈ s.toList.getLast?, (d == c) = false := fun d hd =>
    beq_eq_false_of_notMem h d (mem_of_getLast? hd)
  rw [trimEndWhere, toList_append, dropWhileEnd_append_eq hlast hafter, ofList_toList]

/-- A text that begins and ends with something other than white space. -/
structure IsSolid (s : String) : Prop where
  first : ∃ c, s.toList.head? = some c ∧ isBlank c = false
  last : ∃ c, s.toList.getLast? = some c ∧ isBlank c = false

theorem IsSolid.ne_empty (h : IsSolid s) : s ≠ "" := by
  obtain ⟨c, hc, -⟩ := h.first
  rintro rfl
  cases hc

theorem IsSolid.singleton (h : isBlank c = false) : IsSolid (singleton c) :=
  ⟨⟨c, by simp, h⟩, ⟨c, by simp, h⟩⟩

theorem IsSolid.around {t : String} (hs : IsSolid s) (ht : IsSolid t) (between : String) :
    IsSolid (s ++ between ++ t) where
  first := by
    obtain ⟨c, hc, hblank⟩ := hs.first
    exact ⟨c, by simp [head?_append, hc], hblank⟩
  last := by
    obtain ⟨c, hc, hblank⟩ := ht.last
    exact ⟨c, by simp [getLast?_append, hc], hblank⟩

theorem IsSolid.trim_between {before : String} (h : IsSolid core) (hbefore : ∀ c ∈ before.toList, isBlank c = true)
    (after : String) : trim (before ++ core ++ after) = core ++ ofList (dropWhileEnd isBlank after.toList) := by
  obtain ⟨a, ha, hablank⟩ := h.first
  obtain ⟨b, hb, hbblank⟩ := h.last
  have hstart : ∀ c ∈ (core.toList ++ after.toList).head?, isBlank c = false := by
    simp [head?_append, ha, hablank]
  have hstop : ∀ c ∈ core.toList.getLast?, isBlank c = false := by simp [hb, hbblank]
  rw [trim, trimWhere, toList_append, toList_append, append_assoc, dropWhile_append_eq hbefore hstart,
    dropWhileEnd_append_of_last hstop, String.ofList_append, ofList_toList]

/-- **Trimming takes away the white space around a solid text.** -/
theorem IsSolid.trim_padded {before after : String} (h : IsSolid core)
    (hbefore : ∀ c ∈ before.toList, isBlank c = true) (hafter : ∀ c ∈ after.toList, isBlank c = true) :
    trim (before ++ core ++ after) = core := by
  have hblank : dropWhileEnd isBlank ([] ++ after.toList) = [] := dropWhileEnd_append_eq (by simp) hafter
  rw [h.trim_between hbefore, ← nil_append after.toList, hblank, String.ofList_nil, String.append_empty]

theorem IsSolid.trim_append {after : String} (h : IsSolid core)
    (hafter : ∀ c ∈ after.toList, isBlank c = true) : trim (core ++ after) = core := by
  have hpadded : trim ("" ++ core ++ after) = core := h.trim_padded (by simp) hafter
  rwa [String.empty_append] at hpadded

theorem IsSolid.trim_eq (h : IsSolid s) : trim s = s := by
  have happend : trim (s ++ "") = s := h.trim_append (by simp)
  rwa [String.append_empty] at happend

theorem trim_blanks (h : ∀ c ∈ s.toList, isBlank c = true) : trim s = "" := by
  have hdrop : (s.toList ++ []).dropWhile isBlank = [] := dropWhile_append_eq h (by simp)
  rw [append_nil] at hdrop
  rw [trim, trimWhere, hdrop]
  rfl

/-! ## Cutting at every occurrence -/

theorem splitList_ne_nil (p : Char → Bool) (cs : List Char) : splitList p cs ≠ [] := by
  cases cs with
  | nil => exact cons_ne_nil _ _
  | cons c cs =>
    rw [splitList]
    split
    · exact cons_ne_nil _ _
    · split <;> exact cons_ne_nil _ _

theorem splitList_cons_of_pos (hc : p c) (cs : List Char) : splitList p (c :: cs) = [] :: splitList p cs := by
  rw [splitList]
  cases h : splitList p cs with
  | nil => exact absurd h (splitList_ne_nil p cs)
  | cons piece pieces => simp [hc]

theorem splitList_cons_of_neg (hc : p c = false) {pieces : List (List Char)} (h : splitList p cs = piece :: pieces) :
    splitList p (c :: cs) = (c :: piece) :: pieces := by
  rw [splitList, h]
  simp [hc]

theorem splitList_append (hc : p c) (xs ys : List Char) :
    splitList p (xs ++ c :: ys) = splitList p xs ++ splitList p ys := by
  induction xs with
  | nil => exact splitList_cons_of_pos hc ys
  | cons x xs ih =>
    rw [cons_append]
    by_cases hx : p x
    · rw [splitList_cons_of_pos hx, splitList_cons_of_pos hx, ih, cons_append]
    · rw [Bool.not_eq_true] at hx
      obtain ⟨piece, pieces, h⟩ := exists_cons_of_ne_nil (splitList_ne_nil p xs)
      rw [h, cons_append] at ih
      rw [splitList_cons_of_neg hx ih, splitList_cons_of_neg hx h, cons_append]

theorem splitList_eq_singleton (h : ∀ c ∈ cs, p c = false) : splitList p cs = [cs] := by
  induction cs with
  | nil => rfl
  | cons c cs ih =>
    have ih := ih (forall_mem_cons.1 h).2
    exact splitList_cons_of_neg (h c mem_cons_self) ih

theorem not_mem_of_mem_splitList (h : piece ∈ splitList p cs) : ∀ c ∈ piece, p c = false := by
  induction cs generalizing piece with
  | nil =>
    obtain rfl := mem_singleton.1 h
    simp
  | cons c cs ih =>
    cases hc : p c with
    | true =>
      rw [splitList_cons_of_pos hc, mem_cons] at h
      rcases h with rfl | h
      · simp
      · exact ih h
    | false =>
      obtain ⟨first, rest, hsplit⟩ := exists_cons_of_ne_nil (splitList_ne_nil p cs)
      rw [splitList_cons_of_neg hc hsplit, mem_cons] at h
      rw [hsplit] at ih
      rcases h with rfl | h
      · exact forall_mem_cons.2 ⟨hc, ih mem_cons_self⟩
      · exact ih (mem_cons_of_mem _ h)

theorem splitAt_append (c : Char) (a b : String) :
    splitAt c (a ++ singleton c ++ b) = splitAt c a ++ splitAt c b := by
  have hlist : (a ++ singleton c ++ b).toList = a.toList ++ c :: b.toList := by simp
  rw [splitAt, splitWhere, hlist, splitList_append (by simp), map_append]
  rfl

theorem splitAt_eq_singleton (h : c ∉ s.toList) : splitAt c s = [s] := by
  rw [splitAt, splitWhere, splitList_eq_singleton (beq_eq_false_of_notMem h), map_singleton, ofList_toList]

theorem join_cons {rest : List String} (h : rest ≠ []) : join sep (s :: rest) = s ++ sep ++ join sep rest := by
  cases rest with
  | nil => exact absurd rfl h
  | cons r rest => rfl

theorem join_append {a b : List String} (ha : a ≠ []) (hb : b ≠ []) :
    join sep (a ++ b) = join sep a ++ sep ++ join sep b := by
  induction a with
  | nil => exact absurd rfl ha
  | cons s a ih =>
    by_cases hnil : a = []
    · subst hnil
      exact join_cons hb
    · rw [cons_append, join_cons (by simp [hnil]), ih hnil, join_cons hnil]
      simp only [String.append_assoc]

/-- **Cutting takes apart what was put together.** -/
theorem splitAt_join {pieces : List String} (hne : pieces ≠ [])
    (h : ∀ s ∈ pieces, c ∉ s.toList) : splitAt c (join (singleton c) pieces) = pieces := by
  induction pieces with
  | nil => exact absurd rfl hne
  | cons s pieces ih =>
    have hs := splitAt_eq_singleton (h s mem_cons_self)
    by_cases hnil : pieces = []
    · subst hnil
      exact hs
    · rw [join_cons hnil, splitAt_append, hs, ih hnil (forall_mem_cons.1 h).2]
      rfl

theorem join_splitList (c : Char) (cs : List Char) :
    join (singleton c) ((splitList (· == c) cs).map ofList) = ofList cs := by
  induction cs with
  | nil => rfl
  | cons d cs ih =>
    have hne : (splitList (· == c) cs).map ofList ≠ [] := by simp [splitList_ne_nil]
    by_cases hd : d = c
    · subst hd
      rw [splitList_cons_of_pos (by simp), map_cons, join_cons hne, ih, ← toList_inj]
      simp
    · obtain ⟨piece, pieces, hsplit⟩ := exists_cons_of_ne_nil (splitList_ne_nil (· == c) cs)
      rw [splitList_cons_of_neg (by simpa using hd) hsplit]
      rw [hsplit] at ih
      cases pieces with
      | nil => simp_all [join]
      | cons next rest =>
        have hcons : ofList (d :: cs) = singleton d ++ ofList cs := by
          rw [← toList_inj]
          simp
        rw [hcons, ← ih, ← toList_inj]
        simp [join]

/-- **Putting together undoes cutting.** -/
theorem join_splitAt (c : Char) (s : String) : join (singleton c) (splitAt c s) = s :=
  (join_splitList c s.toList).trans ofList_toList

/-! ## Cutting at one occurrence -/

theorem afterHead?_eq_some_iff {rest : List Char} : afterHead? head cs = some rest ↔ cs = head ++ rest := by
  induction head generalizing cs with
  | nil => simp [afterHead?]
  | cons h head ih =>
    cases cs with
    | nil => simp [afterHead?]
    | cons c cs =>
      rw [afterHead?, cons_append, List.cons.injEq]
      split
      · rename_i heq
        rw [ih]
        simp [heq]
      · rename_i hne
        simp [Ne.symm hne]

theorem dropHead?_eq_some_iff {head rest : String} : dropHead? s head = some rest ↔ s = head ++ rest := by
  rw [dropHead?, map_eq_some_iff, ← toList_inj, toList_append]
  constructor
  · rintro ⟨cs, hcs, rfl⟩
    rw [toList_ofList, afterHead?_eq_some_iff.1 hcs]
  · intro h
    exact ⟨rest.toList, afterHead?_eq_some_iff.2 h, ofList_toList⟩

theorem isSome_afterHead?_iff : (afterHead? head cs).isSome = true ↔ head <+: cs := by
  simp only [isSome_iff_exists, afterHead?_eq_some_iff]
  exact ⟨fun ⟨rest, h⟩ => ⟨rest, h.symm⟩, fun ⟨rest, h⟩ => ⟨rest, h.symm⟩⟩

theorem afterHead?_eq_none_iff : afterHead? head cs = none ↔ ¬ head <+: cs := by
  rw [← isSome_afterHead?_iff, Bool.not_eq_true, isSome_eq_false_iff, isNone_iff_eq_none]

theorem eq_append_of_breakAt? (h : breakAt? needle cs = some (before, after)) : cs = before ++ (needle ++ after) := by
  induction cs generalizing before with
  | nil =>
    rw [breakAt?] at h
    split at h
    · rename_i hempty
      cases h
      rw [List.isEmpty_iff.1 hempty]
      rfl
    · cases h
  | cons c cs ih =>
    rw [breakAt?] at h
    split at h
    · rename_i rest hrest
      cases h
      rw [nil_append, afterHead?_eq_some_iff.1 hrest]
    · obtain ⟨⟨b, a⟩, hb, h⟩ := map_eq_some_iff.1 h
      cases h
      rw [cons_append, ← ih hb]

/-- **The first occurrence of a word does not depend on what follows it.** -/
theorem breakAt?_append {ys : List Char} (h : breakAt? needle (xs ++ ys) = some (before, after))
    (hin : before.length + needle.length ≤ xs.length) (zs : List Char) :
    ∃ rest, breakAt? needle (xs ++ zs) = some (before, rest) := by
  induction xs generalizing before with
  | nil =>
    rw [length_nil] at hin
    obtain rfl : needle = [] := length_eq_zero_iff.1 (by omega)
    obtain rfl : before = [] := length_eq_zero_iff.1 (by omega)
    cases zs <;> simp [breakAt?, afterHead?]
  | cons x xs ih =>
    have hhead (rest : List Char) : needle <+: x :: (xs ++ rest) ↔ needle <+: x :: xs := by
      have hlen : needle.length ≤ (x :: xs).length := by omega
      rw [← cons_append]
      exact ⟨fun hp => prefix_of_prefix_length_le hp (prefix_append _ _) hlen, fun hp => hp.trans (prefix_append _ _)⟩
    rw [cons_append, breakAt?] at h ⊢
    cases hthere : afterHead? needle (x :: (xs ++ ys)) with
    | some rest =>
      rw [hthere] at h
      cases h
      have hp : needle <+: x :: (xs ++ zs) :=
        (hhead zs).2 ((hhead ys).1 (isSome_afterHead?_iff.1 (by rw [hthere]; rfl)))
      obtain ⟨rest, hrest⟩ := isSome_iff_exists.1 (isSome_afterHead?_iff.2 hp)
      exact ⟨rest, by rw [hrest]⟩
    | none =>
      have hp : ¬ needle <+: x :: (xs ++ zs) := fun hp =>
        afterHead?_eq_none_iff.1 hthere ((hhead ys).2 ((hhead zs).1 hp))
      rw [hthere] at h
      obtain ⟨⟨b, a⟩, hb, h⟩ := map_eq_some_iff.1 h
      cases h
      obtain ⟨rest, hrest⟩ := ih hb (by simp at hin ⊢; omega)
      exact ⟨rest, by rw [afterHead?_eq_none_iff.2 hp, hrest]; rfl⟩

theorem breakAt?_append_of_notMem {word : List Char} (h : c ∉ xs) (ys : List Char) :
    breakAt? (c :: word) (xs ++ (c :: word ++ ys)) = some (xs, ys) := by
  induction xs with
  | nil =>
    have hhere : afterHead? (c :: word) (c :: (word ++ ys)) = some ys := afterHead?_eq_some_iff.2 rfl
    simp [breakAt?, hhere]
  | cons x xs ih =>
    have hx : c ≠ x := fun heq => h (heq ▸ mem_cons_self)
    have ih := ih fun hc => h (mem_cons_of_mem _ hc)
    have hnot : afterHead? (c :: word) (x :: (xs ++ (c :: word ++ ys))) = none := by simp [afterHead?, hx]
    rw [cons_append, breakAt?, hnot, ih]
    rfl

theorem breakAt?_singleton_append (h : c ∉ xs) (ys : List Char) : breakAt? [c] (xs ++ c :: ys) = some (xs, ys) :=
  breakAt?_append_of_notMem h ys

theorem breakAt?_singleton_eq_none (h : c ∉ xs) : breakAt? [c] xs = none := by
  rw [eq_none_iff_forall_ne_some]
  rintro ⟨before, after⟩ hbreak
  exact h (eq_append_of_breakAt? hbreak ▸ by simp)

theorem breakAt?_singleton : breakAt? [c] xs = some (before, after) ↔ xs = before ++ c :: after ∧ c ∉ before := by
  constructor
  · intro h
    by_cases hc : c ∈ xs
    · obtain ⟨b, a, rfl, hb⟩ := eq_append_cons_of_mem hc
      rw [breakAt?_singleton_append hb] at h
      cases h
      exact ⟨rfl, hb⟩
    · rw [breakAt?_singleton_eq_none hc] at h
      cases h
  · rintro ⟨rfl, hno⟩
    exact breakAt?_singleton_append hno after

theorem splitOnce?_append {w : String} (h : c ∉ a.toList) (b : String) :
    splitOnce? (a ++ (singleton c ++ w) ++ b) (singleton c ++ w) = some (a, b) := by
  have hlist : (a ++ (singleton c ++ w) ++ b).toList = a.toList ++ (c :: w.toList ++ b.toList) := by simp
  have hword : (singleton c ++ w).toList = c :: w.toList := by simp
  rw [splitOnce?, hlist, hword, breakAt?_append_of_notMem h]
  simp

theorem splitOnce?_eq_none {word : String} (h : s.toList.count c < word.toList.count c) : splitOnce? s word = none := by
  rw [splitOnce?, map_eq_none_iff, eq_none_iff_forall_ne_some]
  rintro ⟨before, after⟩ hbreak
  rw [eq_append_of_breakAt? hbreak, count_append, count_append] at h
  omega

/-- **A text is cut at the last occurrence of a character.** -/
theorem splitLast?_eq_some {b : String} : splitLast? s (singleton c) = some (a, b) ↔
      s = a ++ singleton c ++ b ∧ c ∉ b.toList := by
  have hsep : (singleton c).toList.reverse = [c] := by simp
  rw [splitLast?, hsep, map_eq_some_iff]
  constructor
  · rintro ⟨⟨x, y⟩, hxy, h⟩
    obtain ⟨hs, hno⟩ := breakAt?_singleton.1 hxy
    cases h
    refine ⟨?_, by simpa using hno⟩
    rw [← toList_inj, ← reverse_inj, hs]
    simp
  · rintro ⟨rfl, hno⟩
    refine ⟨(b.toList.reverse, a.toList.reverse), ?_, by simp⟩
    rw [breakAt?_singleton]
    exact ⟨by simp, by simpa using hno⟩

theorem splitLast?_eq_none : splitLast? s (singleton c) = none ↔ c ∉ s.toList := by
  constructor
  · intro hnone hc
    obtain ⟨before, after, hs, hno⟩ := eq_append_cons_of_mem (mem_reverse.2 hc)
    have hsome :
        splitLast? s (singleton c) = some (ofList after.reverse, ofList before.reverse) := by
      rw [splitLast?_eq_some, ← toList_inj, ← reverse_inj, hs]
      simp [hno]
    rw [hnone] at hsome
    cases hsome
  · intro hno
    have hsep : (singleton c).toList.reverse = [c] := by simp
    rw [splitLast?, hsep, breakAt?_singleton_eq_none (by simpa using hno)]
    rfl

theorem contains_singleton_iff : contains s (singleton c) = true ↔ c ∈ s.toList := by
  rw [contains, toList_singleton]
  by_cases hc : c ∈ s.toList
  · obtain ⟨before, after, hs, hno⟩ := eq_append_cons_of_mem hc
    rw [hs, breakAt?_singleton_append hno]
    simp
  · simp [breakAt?_singleton_eq_none hc, hc]

/-! ## Replacing -/

theorem replaceList_eq_map (c d : Char) {fuel : Nat} (h : cs.length ≤ fuel) :
    replaceList [c] [d] fuel cs = cs.map fun x => if x = c then d else x := by
  induction fuel generalizing cs with
  | zero =>
    rw [length_eq_zero_iff.1 (Nat.le_zero.1 h)]
    rfl
  | succ fuel ih =>
    have hkeep {xs : List Char} (hno : c ∉ xs) : (xs.map fun x => if x = c then d else x) = xs := by
      refine (map_congr_left fun x hx => ?_).trans (map_id xs)
      have hne : x ≠ c := fun heq => hno (heq ▸ hx)
      exact if_neg hne
    by_cases hc : c ∈ cs
    · obtain ⟨before, after, rfl, hno⟩ := eq_append_cons_of_mem hc
      rw [length_append, length_cons] at h
      rw [replaceList, breakAt?_singleton_append hno]
      simp only [map_append, map_cons, if_pos, hkeep hno, ih (show after.length ≤ fuel by omega)]
      simp
    · rw [replaceList, breakAt?_singleton_eq_none hc, hkeep hc]

theorem toList_replace (c d : Char) (s : String) : (replace s (singleton c) (singleton d)).toList =
      s.toList.map fun x => if x = c then d else x := by
  have hne : (singleton c).isEmpty = false := by simp
  rw [replace, hne, toList_singleton, toList_singleton]
  simp only [Bool.false_eq_true, if_false, toList_ofList]
  exact replaceList_eq_map c d (Nat.le_of_eq String.length_toList)

end Deadwood.Text
