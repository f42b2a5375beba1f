import Deadwood.Proofs.Masking
import Deadwood.Proofs.Offsets
import Deadwood.Text.Lines

/-!
# Lines and their numbers

A text is cut after its line feeds, and its lines put together are the text. Every offset lies on
some line, and the offset behind a part of a text lies on the line that the line feeds of the part
count. Masking keeps line feeds where they are, so it keeps line numbers.
-/

namespace Deadwood

open Text List

variable {cs ds : List Char}

namespace Text

/-! ## Line starts -/

theorem lineStartsFrom_append (start : Nat) (xs ys : List Char) :
    lineStartsFrom start (xs ++ ys) = lineStartsFrom start xs ++ lineStartsFrom (start + byteLength xs) ys := by
  induction xs generalizing start with
  | nil => rfl
  | cons c xs ih =>
    simp only [cons_append, lineStartsFrom, byteLength_cons, ih, Nat.add_assoc]
    split <;> simp

theorem length_lineStartsFrom (start : Nat) (cs : List Char) :
    (lineStartsFrom start cs).length = cs.countP (· == '\n') := by
  induction cs generalizing start with
  | nil => rfl
  | cons c cs ih =>
    rw [lineStartsFrom, countP_cons]
    split <;> simp [*]

theorem lineStartsFrom_bounds {start : Nat} {cs : List Char} {n : Nat} (h : n ∈ lineStartsFrom start cs) :
    start < n ∧ n ≤ start + byteLength cs := by
  induction cs generalizing start with
  | nil => cases h
  | cons c cs ih =>
    have hpos := c.utf8Size_pos
    have hlater (hn : n ∈ lineStartsFrom (start + c.utf8Size) cs) : start < n ∧ n ≤ start + byteLength (c :: cs) := by
      have := ih hn
      rw [byteLength_cons]
      omega
    rw [lineStartsFrom] at h
    split at h
    · rcases mem_cons.1 h with rfl | h
      · rw [byteLength_cons]
        omega
      · exact hlater h
    · exact hlater h

theorem ascending_lineStartsFrom (start : Nat) (cs : List Char) : (lineStartsFrom start cs).Pairwise (· < ·) := by
  induction cs generalizing start with
  | nil => exact .nil
  | cons c cs ih =>
    rw [lineStartsFrom]
    split
    · exact pairwise_cons.2 ⟨fun n hn => (lineStartsFrom_bounds hn).1, ih _⟩
    · exact ih _

/-! ## Searching -/

section Search

variable {numbers : List Nat} {target n i : Nat}

/-- In ascending numbers, those up to a target come first. -/
theorem le_iff_lt_countP (target : Nat) (h : numbers.Pairwise (· < ·)) (hi : numbers[i]? = some n) :
    n ≤ target ↔ i < numbers.countP (· ≤ target) := by
  induction numbers generalizing i with
  | nil => cases hi
  | cons m numbers ih =>
    obtain ⟨hfirst, hrest⟩ := pairwise_cons.1 h
    rw [countP_cons]
    cases i with
    | zero =>
      obtain rfl : m = n := by simpa using hi
      by_cases hm : m ≤ target
      · simp [hm]
      · have hzero : numbers.countP (· ≤ target) = 0 := by
          rw [countP_eq_zero]
          intro k hk
          have := hfirst k hk
          simp only [decide_eq_true_eq]
          omega
        simp [hm, hzero]
    | succ i =>
      have hmn : m < n := hfirst n (mem_of_getElem? hi)
      rw [ih hrest hi]
      by_cases hm : m ≤ target
      · simp [hm]
      · have hn : ¬ n ≤ target := by omega
        rw [ih hrest hi] at hn
        simp only [hm, decide_false, Bool.false_eq_true, if_false]
        omega

/-- Halving keeps the last of the numbers up to the target within the range. -/
theorem narrow_spec (target : Nat) (h : numbers.Pairwise (· < ·)) {fuel base size : Nat} (hfuel : size ≤ fuel)
    (hrange : base + size ≤ numbers.length) (hbase : base = 0 ∨ base < numbers.countP (· ≤ target))
    (hcount : numbers.countP (· ≤ target) ≤ base + size) :
    let last := narrow numbers target fuel base size
    (last = 0 ∨ last < numbers.countP (· ≤ target)) ∧ numbers.countP (· ≤ target) ≤ last + 1 := by
  induction fuel generalizing base size with
  | zero => exact ⟨hbase, by rw [narrow]; omega⟩
  | succ fuel ih =>
    rw [narrow]
    split
    · exact ⟨hbase, by omega⟩
    have hmiddle : base + size / 2 < numbers.length := by omega
    have hiff := le_iff_lt_countP target h (getElem?_eq_getElem hmiddle)
    dsimp only
    rw [getD_eq_getElem?_getD, getElem?_eq_getElem hmiddle, Option.getD_some]
    split
    · rename_i hle
      exact ih (by omega) (by omega) (.inr (hiff.1 hle)) (by omega)
    · rename_i hlt
      rw [hiff] at hlt
      exact ih (by omega) (by omega) hbase (by omega)

/-- What a search promises: a hit is where the number is; before a miss all numbers are smaller, and from there on
all are greater. -/
def SearchResult.Fits (numbers : List Nat) (target : Nat) : SearchResult → Prop
  | hit i => numbers[i]? = some target
  | miss i => i ≤ numbers.length ∧ (∀ n ∈ numbers.take i, n < target) ∧ ∀ n ∈ numbers.drop i, target < n

/-- **A search keeps its promise** on ascending numbers. -/
theorem search_fits (h : numbers.Pairwise (· < ·)) (target : Nat) : (search numbers target).Fits numbers target := by
  have hlength : numbers.countP (· ≤ target) ≤ numbers.length := countP_le_length
  obtain ⟨hlast, hcount⟩ := narrow_spec target h (Nat.le_refl numbers.length) (by omega) (.inl rfl)
    (by omega)
  unfold search
  generalize narrow numbers target numbers.length 0 numbers.length = last at hlast hcount
  dsimp only
  cases hn : numbers[last]? with
  | none =>
    have hnone := getElem?_eq_none_iff.1 hn
    obtain rfl : numbers = [] := length_eq_zero_iff.1 (by omega)
    exact ⟨Nat.le_refl _, by simp⟩
  | some n =>
    dsimp only
    split
    · rename_i heq
      exact heq ▸ hn
    rename_i hne
    have hiff := le_iff_lt_countP target h hn
    have hposition : (if n < target then last + 1 else last) = numbers.countP (· ≤ target) := by
      split
      · have := hiff.1 (by omega)
        omega
      · have := mt hiff.2 (by omega)
        omega
    rw [hposition]
    refine ⟨hlength, fun m hm => ?_, fun m hm => Nat.lt_of_not_le fun hle => ?_⟩
    · obtain ⟨i, hi, rfl⟩ := mem_take_iff_getElem.1 hm
      obtain ⟨hlt, rfl⟩ := List.getElem?_eq_some_iff.1 hn
      have hle := (le_iff_lt_countP target h (getElem?_eq_getElem (i := i) (by omega))).2 (by omega)
      -- the last of the numbers up to the target is smaller, and so are those before it
      have hlast' := hiff.2 (by omega)
      rcases Nat.lt_or_eq_of_le (by omega : i ≤ last) with hlt' | rfl
      · have := pairwise_iff_getElem.1 h i last (by omega) hlt hlt'
        omega
      · omega
    · obtain ⟨i, hi, rfl⟩ := mem_drop_iff_getElem.1 hm
      have := (le_iff_lt_countP target h (getElem?_eq_getElem (by omega))).1 hle
      omega

/-- **Lines are counted by their starts**, whatever the search. -/
theorem SearchResult.Fits.line_eq {result : SearchResult} (hfits : result.Fits numbers target)
    (h : numbers.Pairwise (· < ·)) : result.line = numbers.countP (· ≤ target) := by
  cases result with
  | hit i =>
    have hle := (le_iff_lt_countP _ h hfits).1 (Nat.le_refl target)
    have hlength : numbers.countP (· ≤ target) ≤ numbers.length := countP_le_length
    refine Nat.le_antisymm hle (Nat.le_of_not_lt fun (hlt : i + 1 < _) => ?_)
    -- a number behind the hit is greater
    obtain ⟨hi, hnumber⟩ := List.getElem?_eq_some_iff.1 hfits
    have hnext := (le_iff_lt_countP target h (getElem?_eq_getElem (i := i + 1) (by omega))).2 hlt
    have := pairwise_iff_getElem.1 h i (i + 1) hi (by omega) (by omega)
    omega
  | miss i =>
    obtain ⟨hi, hbefore, hbehind⟩ := hfits
    rw [SearchResult.line, ← take_append_drop i numbers, countP_append, countP_eq_length.2, countP_eq_zero.2,
      length_take, Nat.min_eq_left hi, Nat.add_zero]
    · exact fun n hn => by simpa using hbehind n hn
    · exact fun n hn => by simpa using Nat.le_of_lt (hbefore n hn)

end Search

namespace LineIndex

theorem lineOf_eq_countP (s : String) (offset : Nat) :
    (ofText s).lineOf offset = (ofText s).starts.countP (· ≤ offset) := by
  have hascending : (ofText s).starts.Pairwise (· < ·) :=
    pairwise_cons.2 ⟨fun n hn => (lineStartsFrom_bounds hn).1, ascending_lineStartsFrom 0 s.toList⟩
  exact (search_fits hascending offset).line_eq hascending

theorem one_le_lineOf (s : String) (offset : Nat) : 1 ≤ (ofText s).lineOf offset := by
  rw [lineOf_eq_countP]
  simp [ofText]

theorem lineOf_le (s : String) (offset : Nat) : (ofText s).lineOf offset ≤ 1 + feeds s := by
  have hle := countP_le_length (p := fun n => decide (n ≤ offset)) (l := lineStartsFrom 0 s.toList)
  rw [length_lineStartsFrom] at hle
  rw [lineOf_eq_countP]
  simp only [ofText, countP_cons, Nat.zero_le, decide_true, ↓reduceIte, feeds]
  omega

/-- **The line of a place is counted by the line feeds before it.** -/
theorem lineOf_byteLength {s : String} {head tail : List Char} (h : s.toList = head ++ tail) :
    (ofText s).lineOf (byteLength head) = 1 + head.countP (· == '\n') := by
  have hbefore : (lineStartsFrom 0 head).countP (· ≤ byteLength head) = head.countP (· == '\n') := by
    rw [← length_lineStartsFrom 0 head, countP_eq_length]
    intro n hn
    have := (lineStartsFrom_bounds hn).2
    simp only [decide_eq_true_eq]
    omega
  have hafter : (lineStartsFrom (0 + byteLength head) tail).countP (· ≤ byteLength head) = 0 := by
    rw [countP_eq_zero]
    intro n hn
    have := (lineStartsFrom_bounds hn).1
    simp only [decide_eq_true_eq]
    omega
  rw [lineOf_eq_countP, ofText, h, lineStartsFrom_append, countP_cons, countP_append, hbefore, hafter]
  simp [Nat.add_comm]

end LineIndex

/-! ## Lines -/

/-- Lines as a text is cut into: each ends with the one line feed in it, which only the last may lack. -/
inductive IsLines : List (List Char) → Prop where
  | nil : IsLines []
  | last {line : List Char} (hne : line ≠ []) (hfeed : '\n' ∉ line) : IsLines [line]
  | cons {body : List Char} {lines : List (List Char)} (hfeed : '\n' ∉ body) (hlines : IsLines lines) :
      IsLines ((body ++ ['\n']) :: lines)

theorem isLines_splitAfterFeeds (cs : List Char) : IsLines (splitAfterFeeds cs) := by
  induction cs with
  | nil => exact .nil
  | cons c cs ih =>
    rw [splitAfterFeeds]
    split
    · rename_i hc
      rw [beq_iff_eq.1 hc]
      exact .cons not_mem_nil ih
    · rename_i hc
      have hfeed : '\n' ≠ c := fun heq => hc (beq_iff_eq.2 heq.symm)
      generalize splitAfterFeeds cs = lines at ih
      cases ih with
      | nil => exact .last (cons_ne_nil _ _) (by simpa using hfeed)
      | last _ hline => exact .last (cons_ne_nil _ _) (by simp [hfeed, hline])
      | @cons body _ hbody hlines =>
        have hcons : '\n' ∉ c :: body := by simp [hfeed, hbody]
        exact .cons hcons hlines

theorem flatten_splitAfterFeeds (cs : List Char) : (splitAfterFeeds cs).flatten = cs := by
  induction cs with
  | nil => rfl
  | cons c cs ih =>
    rw [splitAfterFeeds]
    split
    · rw [flatten_cons, ih]
      rfl
    · split
      · rename_i hnil
        rw [hnil] at ih
        simp [← ih]
      · rename_i hcons
        rw [hcons] at ih
        simp [← ih]

theorem splitAfterFeeds_line {body : List Char} (h : '\n' ∉ body) (cs : List Char) :
    splitAfterFeeds (body ++ '\n' :: cs) = (body ++ ['\n']) :: splitAfterFeeds cs := by
  induction body with
  | nil => simp [splitAfterFeeds]
  | cons c body ih =>
    obtain ⟨hc, hbody⟩ : '\n' ≠ c ∧ '\n' ∉ body := by simpa using h
    rw [cons_append, splitAfterFeeds, if_neg (by simpa using hc.symm), ih hbody]
    rfl

theorem splitAfterFeeds_last {line : List Char} (hne : line ≠ []) (h : '\n' ∉ line) :
    splitAfterFeeds line = [line] := by
  induction line with
  | nil => exact absurd rfl hne
  | cons c line ih =>
    obtain ⟨hc, hline⟩ : '\n' ≠ c ∧ '\n' ∉ line := by simpa using h
    rw [splitAfterFeeds, if_neg (by simpa using hc.symm)]
    cases line with
    | nil => rfl
    | cons d line => rw [ih (cons_ne_nil _ _) hline]

theorem splitAfterFeeds_flatten {lines : List (List Char)} (h : IsLines lines) :
    splitAfterFeeds lines.flatten = lines := by
  induction h with
  | nil => rfl
  | last hne hfeed => simpa using splitAfterFeeds_last hne hfeed
  | @cons body lines hfeed _ ih =>
    rw [flatten_cons, append_assoc, singleton_append, splitAfterFeeds_line hfeed, ih]

theorem length_splitAfterFeeds_le (cs : List Char) : (splitAfterFeeds cs).length ≤ 1 + cs.countP (· == '\n') := by
  induction cs with
  | nil => simp [splitAfterFeeds]
  | cons c cs ih =>
    rw [splitAfterFeeds, countP_cons]
    split
    · simp only [length_cons]
      omega
    · split
      · simp
      · rename_i hsplit
        rw [hsplit] at ih
        simp only [length_cons] at ih ⊢
        omega

theorem length_lines_le (s : String) : (lines s).length ≤ 1 + feeds s := by
  rw [lines, length_map]
  exact length_splitAfterFeeds_le s.toList

/-! ## Masked text -/

theorem lineStartsFrom_blankChar (start : Nat) (c : Char) (cs : List Char) :
    lineStartsFrom start (blankChar c ++ cs) = lineStartsFrom start (c :: cs) := by
  have hblanks (n : Nat) : byteLength (List.replicate n ' ') = n ∧
      ∀ k, lineStartsFrom k (List.replicate n ' ') = [] := by
    induction n with
    | zero => simp [lineStartsFrom]
    | succ n ih =>
      have hblank : ' '.utf8Size = 1 := rfl
      refine ⟨by rw [replicate_succ, byteLength_cons, ih.1]; omega, fun k => ?_⟩
      rw [replicate_succ, lineStartsFrom, if_neg (by decide), ih.2]
  unfold blankChar
  split
  · rfl
  · rename_i hc
    rw [lineStartsFrom_append, (hblanks _).1, (hblanks _).2, nil_append, lineStartsFrom, if_neg hc]

end Text

theorem Masked.lineStartsFrom_eq (h : Masked cs ds) (start : Nat) :
    lineStartsFrom start ds = lineStartsFrom start cs := by
  induction h generalizing start with
  | nil => rfl
  | keep c _ ih => simp only [lineStartsFrom, ih]
  | hide c _ ih =>
    rw [lineStartsFrom_blankChar]
    simp only [lineStartsFrom, ih]

theorem Masked.ne_nil (h : Masked cs ds) (hne : cs ≠ []) : ds ≠ [] := by
  cases h with
  | nil => exact hne
  | keep c _ => exact cons_ne_nil _ _
  | hide c _ => exact append_ne_nil_of_left_ne_nil (blankChar_ne_nil c) _

theorem Masked.feed_not_mem (h : Masked cs ds) (hfeed : '\n' ∉ cs) : '\n' ∉ ds := by
  induction h with
  | nil => exact hfeed
  | keep c _ ih =>
    obtain ⟨hc, hcs⟩ : '\n' ≠ c ∧ '\n' ∉ _ := by simpa using hfeed
    simp [hc, ih hcs]
  | hide c _ ih =>
    obtain ⟨hc, hcs⟩ : '\n' ≠ c ∧ '\n' ∉ _ := by simpa using hfeed
    rw [blankChar_of_ne hc.symm]
    simp [ih hcs]

theorem Masked.exists_line {body : List Char} (h : Masked (body ++ ['\n']) ds) (hfeed : '\n' ∉ body) :
    ∃ body', ds = body' ++ ['\n'] ∧ '\n' ∉ body' := by
  induction body generalizing ds with
  | nil =>
    refine ⟨[], ?_, not_mem_nil⟩
    cases h with
    | keep _ h => rw [h.eq_nil]; rfl
    | hide _ h => rw [h.eq_nil]; rfl
  | cons c body ih =>
    obtain ⟨hc, hbody⟩ : '\n' ≠ c ∧ '\n' ∉ body := by simpa using hfeed
    cases h with
    | keep _ h =>
      obtain ⟨body', rfl, hbody'⟩ := ih h hbody
      exact ⟨c :: body', rfl, by simp [hc, hbody']⟩
    | hide _ h =>
      obtain ⟨body', rfl, hbody'⟩ := ih h hbody
      rw [blankChar_of_ne hc.symm]
      exact ⟨List.replicate c.utf8Size ' ' ++ body', (append_assoc ..).symm, by simp [hbody']⟩

namespace Text

variable {lexicon : Lexicon}

variable (h : lexicon.Regular) (keep : Bool) (text : String)
include h keep text

theorem lineStartsFrom_mask :
    lineStartsFrom 0 (mask lexicon keep text).toList = lineStartsFrom 0 text.toList := by
  rw [toList_mask]
  exact (Masked.masked h keep none text.toList).lineStartsFrom_eq 0

theorem LineIndex.ofText_mask : LineIndex.ofText (mask lexicon keep text) = LineIndex.ofText text := by
  rw [ofText, ofText, lineStartsFrom_mask h]

theorem feeds_mask : feeds (mask lexicon keep text) = feeds text := by
  rw [feeds, feeds, ← length_lineStartsFrom 0, ← length_lineStartsFrom 0, lineStartsFrom_mask h]

end Text

end Deadwood
