import Deadwood.Proofs.Offsets
import Deadwood.Source.Blocks

/-!
# Where blocks end and how deep lines are

One way to find the depths of lines counts braces line by line, the other keeps a stack and leaves out the braces of
statements that hold certain words.

* **`depths_count_braces`**: both count the braces that are open before a line, also where braces do not match.
-/

namespace Deadwood

open List Text

variable {cs before : List Char} {lines : List String} {i n offset start : Nat} {text : String} {excuse : Prop}

/-! ## Braces -/

theorem placeFrom_spec (start offset : Nat) (cs : List Char) : ∃ head, cs = head ++ (placeFrom start offset cs).2 ∧
      (placeFrom start offset cs).1 = offset + byteLength head ∧
      ((placeFrom start offset cs).2 ≠ [] → start ≤ (placeFrom start offset cs).1) := by
  fun_induction placeFrom start offset cs with
  | case1 offset => exact ⟨[], rfl, rfl, nofun⟩
  | case2 offset c rest hlt ih =>
    obtain ⟨head, hcs, hoffset, hle⟩ := ih
    exact ⟨c :: head, congrArg (c :: ·) hcs, by rw [hoffset, byteLength_cons, Nat.add_assoc], hle⟩
  | case3 offset c rest hge => exact ⟨[], rfl, rfl, fun _ => Nat.le_of_not_lt hge⟩

/-- The end of a block, found by the open braces and brackets alone. -/
def endByDepth (depth brackets offset : Nat) : List Char → Option Nat
  | [] => none
  | c :: rest =>
    match c with
    | '(' | '[' => endByDepth depth (brackets + 1) (offset + 1) rest
    | ')' | ']' => endByDepth depth (brackets - 1) (offset + 1) rest
    | '{' => endByDepth (depth + 1) brackets (offset + 1) rest
    | '}' => if depth ≤ 1 then some offset else endByDepth (depth - 1) brackets (offset + 1) rest
    | ';' =>
      if depth = 0 && brackets = 0 then some offset
      else endByDepth depth brackets (offset + 1) rest
    | _ => endByDepth depth brackets (offset + c.utf8Size) rest

/-- **A brace has been opened as long as one is open**: with the last one that is closed the block ends. -/
theorem blockEndFrom_eq (depth brackets offset : Nat) (cs : List Char) :
    blockEndFrom depth (decide (0 < depth)) brackets offset cs = endByDepth depth brackets offset cs := by
  fun_induction endByDepth depth brackets offset cs with
  | case1 => rfl
  | case2 _ _ _ _ ih => exact ih
  | case3 _ _ _ _ ih => exact ih
  | case4 _ _ _ _ ih => exact ih
  | case5 _ _ _ _ ih => exact ih
  | case6 depth brackets offset rest ih => simpa [blockEndFrom] using ih
  | case7 depth brackets offset rest hle =>
    rw [blockEndFrom, if_pos]
    simp only [Bool.or_eq_true, Bool.and_eq_true, decide_eq_true_eq]
    omega
  | case8 depth brackets offset rest hgt ih =>
    have hopen : 0 < depth ∧ 0 < depth - 1 := by omega
    rw [blockEndFrom, if_neg, ← ih, decide_eq_true hopen.1, decide_eq_true hopen.2]
    simp only [Bool.or_eq_true, Bool.and_eq_true, decide_eq_true_eq]
    omega
  | case9 depth brackets offset rest hend => simp_all [blockEndFrom]
  | case10 depth brackets offset rest hend ih => simp_all [blockEndFrom, Nat.pos_iff_ne_zero]
  | case11 _ _ _ _ _ _ _ _ _ _ _ _ ih => simp_all [blockEndFrom]

theorem blockEnd?_eq (text : String) (start : Nat) : blockEnd? text start =
    endByDepth 0 0 (placeFrom start 0 text.toList).1 (placeFrom start 0 text.toList).2 := blockEndFrom_eq 0 0 _ _

theorem endByDepth_eq_some {depth brackets : Nat} (h : endByDepth depth brackets offset cs = some n) :
    ∃ head c tail, cs = head ++ c :: tail ∧ n = offset + byteLength head ∧ (c = '}' ∨ c = ';') := by
  -- a character that does not end the block is passed with all its bytes
  have hpass {c : Char} {rest : List Char} {offset size : Nat} (hsize : size = c.utf8Size)
      (h : ∃ head d tail, rest = head ++ d :: tail ∧ n = offset + size + byteLength head ∧ (d = '}' ∨ d = ';')) :
      ∃ head d tail, c :: rest = head ++ d :: tail ∧ n = offset + byteLength head ∧ (d = '}' ∨ d = ';') := by
    obtain ⟨head, d, tail, rfl, rfl, hd⟩ := h
    exact ⟨c :: head, d, tail, rfl, by rw [byteLength_cons, hsize, Nat.add_assoc], hd⟩
  have hstop {c : Char} {rest : List Char} {offset : Nat} (hc : c = '}' ∨ c = ';') (h : some offset = some n) :
      ∃ head d tail, c :: rest = head ++ d :: tail ∧ n = offset + byteLength head ∧ (d = '}' ∨ d = ';') :=
    ⟨[], c, rest, rfl, (Option.some.inj h).symm, hc⟩
  fun_induction endByDepth depth brackets offset cs with
  | case1 => cases h
  | case2 _ _ _ _ ih => exact hpass rfl (ih h)
  | case3 _ _ _ _ ih => exact hpass rfl (ih h)
  | case4 _ _ _ _ ih => exact hpass rfl (ih h)
  | case5 _ _ _ _ ih => exact hpass rfl (ih h)
  | case6 _ _ _ _ ih => exact hpass rfl (ih h)
  | case7 => exact hstop (.inl rfl) h
  | case8 _ _ _ _ _ ih => exact hpass rfl (ih h)
  | case9 => exact hstop (.inr rfl) h
  | case10 _ _ _ _ _ ih => exact hpass rfl (ih h)
  | case11 _ _ _ _ _ _ _ _ _ _ _ _ ih => exact hpass rfl (ih h)

section

variable (h : blockEnd? text start = some n)
include h

theorem blockEnd?_eq_some :
    start ≤ n ∧ ∃ head c tail, text.toList = head ++ c :: tail ∧ byteLength head = n ∧ (c = '}' ∨ c = ';') := by
  obtain ⟨before, htext, hoffset, hle⟩ := placeFrom_spec start 0 text.toList
  rw [blockEnd?_eq] at h
  obtain ⟨head, c, tail, hrest, rfl, hc⟩ := endByDepth_eq_some h
  have hstart := hle (by rw [hrest]; simp)
  refine ⟨by omega, before ++ head, c, tail, ?_, ?_, hc⟩
  · rw [append_assoc, ← hrest]
    exact htext
  · rw [hoffset, byteLength_append, Nat.zero_add]

theorem isBoundary_blockEnd? : Text.IsBoundary text n := by
  obtain ⟨-, head, c, tail, htext, hn, -⟩ := blockEnd?_eq_some h
  exact ⟨head, c :: tail, htext, hn⟩

end

/-! ## Lines -/

theorem indentEndFrom_mem {base last : Nat} (h : last < i) :
    last ≤ indentEndFrom base last i lines ∧ indentEndFrom base last i lines < i + lines.length := by
  fun_induction indentEndFrom base last i lines with
  | case1 => simpa using h
  | case2 last i line rest _ ih =>
    have := ih (by omega)
    rw [length_cons]
    omega
  | case3 last i line rest =>
    rw [length_cons]
    omega
  | case4 last i line rest _ _ ih =>
    have := ih (Nat.lt_succ_self i)
    rw [length_cons]
    omega

theorem indentBlockEnd_mem (h : start < lines.length) :
    start ≤ indentBlockEnd lines start ∧ indentBlockEnd lines start < lines.length := by
  simp only [indentBlockEnd, getElem?_eq_getElem h]
  refine ⟨(indentEndFrom_mem (Nat.lt_succ_self start)).1, ?_⟩
  refine Nat.lt_of_lt_of_eq (indentEndFrom_mem (Nat.lt_succ_self start)).2 ?_
  rw [length_drop]
  omega

theorem keywordEndFrom_mem {openers : List String} {closer : String} {depth : Int}
    (h : keywordEndFrom openers closer start i depth lines = some n) :
    i ≤ n ∧ n < i + lines.length := by
  fun_induction keywordEndFrom openers closer start i depth lines with
  | case1 => cases h
  | case2 i depth line rest =>
    cases h
    simp
  | case3 i depth line rest =>
    cases h
    simp
  | case4 i depth line rest _ _ _ ih =>
    have := ih h
    rw [length_cons]
    omega

theorem keywordBlockEnd_mem (h : start < lines.length) (openers : List String)
    (closer : String) : start ≤ keywordBlockEnd lines start openers closer ∧
      keywordBlockEnd lines start openers closer < lines.length := by
  rw [keywordBlockEnd]
  cases hend : keywordEndFrom openers closer start start 0 (lines.drop start) with
  | none =>
    simp only [Option.getD_none]
    omega
  | some n =>
    have hmem := keywordEndFrom_mem hend
    rw [length_drop] at hmem
    simp only [Option.getD_some]
    omega

/-! ## Depths -/

def endsStatement (c : Char) : Bool := c == '{' || c == '}' || c == ';'

/-- The text since the last brace or semicolon. What stands `before` is written backwards here and below. -/
def statementHead (before : List Char) : String := .ofList (before.takeWhile (!endsStatement ·)).reverse

/-- The heads of the statements whose braces are open, where `closed` braces are closed again behind the text. -/
def openHeads (closed : Nat) : (before : List Char) → List String
  | [] => []
  | c :: before =>
    if c = '}' then openHeads (closed + 1) before
    else if c = '{' then
      if closed = 0 then statementHead before :: openHeads 0 before else openHeads (closed - 1) before
    else openHeads closed before

/-- What stands before each line but the first. -/
def beforeLines (before : List Char) : List Char → List (List Char)
  | [] => []
  | c :: cs => if c = '\n' then (c :: before) :: beforeLines (c :: before) cs else beforeLines (c :: before) cs

theorem openHeads_eq_drop (closed : Nat) (before : List Char) :
    openHeads closed before = (openHeads 0 before).drop closed := by
  induction before generalizing closed with
  | nil => simp [openHeads]
  | cons c before ih =>
    rw [openHeads, openHeads]
    split
    · rw [ih, ih (0 + 1), drop_drop]
      congr 1
      omega
    split
    · cases closed with
      | zero => rfl
      | succ closed => simpa using ih closed
    · exact ih closed

theorem openHeads_cons (c : Char) (before : List Char) : openHeads 0 (c :: before) =
    if c = '{' then statementHead before :: openHeads 0 before else if c = '}' then (openHeads 0 before).tail
    else openHeads 0 before := by
  rw [openHeads, openHeads_eq_drop (0 + 1), ← drop_one]
  by_cases hclosing : c = '}' <;> simp [hclosing]

theorem braceDepthsFrom_splitList (before cs : List Char) : ∃ line lines, splitList (· == '\n') cs = line :: lines ∧
    braceDepthsFrom (depthAfter (openHeads 0 before).length line) lines =
      (beforeLines before cs).map fun before => (openHeads 0 before).length := by
  induction cs generalizing before with
  | nil => exact ⟨[], [], rfl, rfl⟩
  | cons c cs ih =>
    obtain ⟨line, lines, hsplit, hdepths⟩ := ih (c :: before)
    rw [openHeads_cons] at hdepths
    by_cases hfeed : c = '\n'
    · subst hfeed
      refine ⟨[], line :: lines, by rw [splitList_cons_of_pos (by rfl), hsplit], ?_⟩
      rw [beforeLines, if_pos rfl, map_cons, ← hdepths, openHeads_cons]
      rfl
    · refine ⟨c :: line, lines, splitList_cons_of_neg (by simpa using hfeed) hsplit, ?_⟩
      rw [beforeLines, if_neg hfeed, ← hdepths, depthAfter, foldl_cons, ← depthAfter]
      congr 2
      by_cases hopening : c = '{' <;> by_cases hclosing : c = '}' <;> simp [hopening, hclosing]

/-- **The depth of a line is the number of the braces open before it.** -/
theorem braceDepths_eq (text : String) :
    braceDepths text = ([] :: beforeLines [] text.toList).map fun before => (openHeads 0 before).length := by
  obtain ⟨line, lines, hsplit, hdepths⟩ := braceDepthsFrom_splitList [] text.toList
  rw [braceDepths, hsplit, braceDepthsFrom, map_cons, ← hdepths]
  rfl

def statementStart (before : List Char) : Nat := byteLength (before.dropWhile (!endsStatement ·)).reverse

theorem textBetween_statementStart (htext : text.toList = before.reverse ++ cs) :
    textBetween text (statementStart before) (byteLength before.reverse) = .ok (statementHead before) := by
  have hparts : before.reverse = (before.dropWhile (!endsStatement ·)).reverse ++ (statementHead before).toList := by
    rw [statementHead, String.toList_ofList, ← reverse_append, takeWhile_append_dropWhile]
  have hcut : cut? text (statementStart before) (byteLength before.reverse) = some (statementHead before) :=
    cut?_eq_some_iff.2 ⟨_, cs, by rw [htext, hparts, append_assoc], rfl, by rw [hparts]; simp [statementStart]⟩
  rw [textBetween, hcut]

/-- The brace behind the head counts, since none of the words stands in it. -/
abbrev counts (transparent : List String) (head : String) : Bool := !(words head).any transparent.contains

theorem scopeDepthsFrom_eq (transparent : List String) (htext : text.toList = before.reverse ++ cs) :
    scopeDepthsFrom transparent text ((openHeads 0 before).map (counts transparent)) (statementStart before)
      (byteLength before.reverse) cs =
        .ok ((beforeLines before cs).map fun before => (openHeads 0 before).countP (counts transparent)) := by
  induction cs generalizing before with
  | nil => rfl
  | cons c cs ih =>
    have hnext : text.toList = (c :: before).reverse ++ cs := by simpa using htext
    have ih := ih hnext
    have hsize : byteLength (c :: before).reverse = byteLength before.reverse + c.utf8Size := by simp
    have hstatement : statementStart (c :: before) =
        if endsStatement c then byteLength before.reverse + c.utf8Size else statementStart before := by
      rw [← hsize, statementStart, dropWhile_cons]
      cases endsStatement c <;> rfl
    rw [hstatement, hsize, openHeads_cons] at ih
    rw [beforeLines, scopeDepthsFrom]
    by_cases hopening : c = '{'
    · subst hopening
      simp only [beq_self_eq_true, if_true, textBetween_statementStart htext]
      exact ih
    by_cases hclosing : c = '}'
    · subst hclosing
      simpa [endsStatement, map_tail] using ih
    by_cases hsemicolon : c = ';'
    · subst hsemicolon
      exact ih
    have hends : endsStatement c = false := by simp [endsStatement, hopening, hclosing, hsemicolon]
    rw [hends, if_neg hopening, if_neg hclosing, if_neg Bool.false_ne_true] at ih
    simp only [beq_iff_eq, hopening, hclosing, hsemicolon, if_false, ih]
    split
    · rename_i hfeed
      subst hfeed
      rw [map_cons, openHeads_cons, countP_map]
      rfl
    · rfl

theorem scopeDepths_eq (transparent : List String) (text : String) : scopeDepths transparent text =
    .ok (([] :: beforeLines [] text.toList).map fun before => (openHeads 0 before).countP (counts transparent)) := by
  have htext : text.toList = ([] : List Char).reverse ++ text.toList := rfl
  have hdepths := scopeDepthsFrom_eq transparent htext
  exact congrArg (fun depths => depths >>= fun depths => pure (0 :: depths)) hdepths

theorem yields_scopeDepths (transparent : List String) (text : String) :
    Yields excuse (scopeDepths transparent text) fun _ => True := by
  rw [scopeDepths_eq]
  exact yields_pure.2 trivial

theorem length_beforeLines (before cs : List Char) : (beforeLines before cs).length = cs.countP (· == '\n') := by
  induction cs generalizing before with
  | nil => rfl
  | cons c cs ih =>
    rw [beforeLines, countP_cons]
    split <;> simp_all

/-- **Both ways to find depths count open braces**, of whatever text. Each line has a depth; without transparent words
both ways agree, and else the depth of a line is the number of the braces open before it whose statement holds none
of the words. -/
theorem depths_count_braces (transparent : List String) (text : String) :
    scopeDepths [] text = .ok (braceDepths text) ∧ (braceDepths text).length = feeds text + 1 ∧
    braceDepths text = ([] :: beforeLines [] text.toList).map (fun before => (openHeads 0 before).length) ∧
    ∃ depths, scopeDepths transparent text = .ok depths ∧ depths.length = feeds text + 1 ∧
      depths = ([] :: beforeLines [] text.toList).map (fun before => (openHeads 0 before).countP (counts transparent)) ∧
      ∀ i (h : i < depths.length), ∃ d, (braceDepths text)[i]? = some d ∧ depths[i] ≤ d := by
  have hlength : ([] :: beforeLines [] text.toList).length = feeds text + 1 := by
    rw [length_cons, length_beforeLines, feeds]
  rw [scopeDepths_eq, scopeDepths_eq, braceDepths_eq]
  refine ⟨by simp, by rw [length_map, hlength], rfl, _, rfl, by rw [length_map, hlength], rfl, fun i hi => ?_⟩
  rw [length_map] at hi
  exact ⟨_, by rw [getElem?_map, getElem?_eq_getElem hi, Option.map_some], by rw [getElem_map]; exact countP_le_length⟩

end Deadwood
