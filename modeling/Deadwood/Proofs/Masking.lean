import Deadwood.Source.Mask
import Deadwood.Proofs.Text

/-!
# What masking keeps

Masking cuts a text into pieces from left to right. A piece has at least one character and does not
look at what was hidden before it, so a text whose comments are hidden is cut as the text itself.

* **`mask_mask`**: hiding comments first does not change what is hidden later.
-/

namespace Deadwood

open Text Option List Piece

variable {c quote : Char} {lexicon : Lexicon} {cs rest xs ys zs : List Char} {budget n : Nat}
  {before before' : Option Char} {piece : Piece} {mark : String}

/-! ## Lexicons -/

def Lexicon.known : List Lexicon := [slashed, rust, swift, python, ruby, shell, php, lua, css, html]

/-- Marks are written in ASCII, without blanks, line feeds and backslashes. -/
def IsMarkChar (c : Char) : Prop := c.toNat < 128 ∧ c ≠ ' ' ∧ c ≠ '\n' ∧ c ≠ '\\'

instance : DecidablePred IsMarkChar := fun _ => inferInstanceAs (Decidable (_ ∧ _))

def IsMark (mark : String) : Prop := mark.toList ≠ [] ∧ ∀ c ∈ mark.toList, IsMarkChar c

-- the characters of the mark are looked at, not all characters there are
instance : DecidablePred IsMark := fun mark => @instDecidableAnd _ _ inferInstance (List.decidableBAll _ mark.toList)

/-- The marks of a lexicon are marks, and where a comment looks at the character before it, all
comments run to the end of the line. -/
structure Lexicon.Regular (lexicon : Lexicon) : Prop where
  lineMarks : ∀ mark ∈ lexicon.lineMarks, IsMark mark
  blockMarks : ∀ marks ∈ lexicon.blockMarks, IsMark marks.1 ∧ IsMark marks.2
  quotes : ∀ c ∈ lexicon.quotes, IsMarkChar c
  boundary : lexicon.hashAtBoundary = true → lexicon.blockMarks = []

theorem Lexicon.regular_of_known (h : lexicon ∈ known) : lexicon.Regular := by
  have hall : ∀ l ∈ known, (∀ mark ∈ l.lineMarks, IsMark mark) ∧
      (∀ marks ∈ l.blockMarks, IsMark marks.1 ∧ IsMark marks.2) ∧
      l.quotes.all (fun c => decide (IsMarkChar c)) = true ∧ (l.hashAtBoundary = true → l.blockMarks = []) := by decide
  obtain ⟨hline, hblock, hquotes, hboundary⟩ := hall lexicon h
  exact ⟨hline, hblock, fun c hc => of_decide_eq_true (all_eq_true.1 hquotes c hc), hboundary⟩

/-! ## Pieces -/

@[simp] theorem Piece.length_code : code.length = 1 := rfl

@[simp] theorem Piece.length_comment (n : Nat) : (comment n).length = n := by simp [comment, length]

theorem length_lengthTo_le (mark : String) (cs : List Char) :
    (lengthTo mark cs).1 + (if (lengthTo mark cs).2 then mark.length else 0) ≤ cs.length := by
  unfold lengthTo
  split
  · rename_i before after h
    have hcs := congrArg List.length (eq_append_of_breakAt? h)
    simp only [length_append, String.length_toList] at hcs
    simp only [if_pos]
    omega
  · simp

theorem fst_lengthTo_of_not_closed (h : (lengthTo mark cs).2 = false) : (lengthTo mark cs).1 = cs.length := by
  unfold lengthTo at h ⊢
  split at h
  · cases h
  · rfl

theorem lengthTo_append (hclosed : (lengthTo mark (xs ++ ys)).2 = true)
    (hin : (lengthTo mark (xs ++ ys)).1 + mark.length ≤ xs.length) (zs : List Char) :
    lengthTo mark (xs ++ zs) = lengthTo mark (xs ++ ys) := by
  unfold lengthTo at hclosed hin ⊢
  cases h : breakAt? mark.toList (xs ++ ys) with
  | none => simp [h] at hclosed
  | some found =>
    obtain ⟨before, after⟩ := found
    rw [h] at hin
    obtain ⟨rest, hrest⟩ := breakAt?_append h (by rwa [String.length_toList]) zs
    rw [hrest]

theorem literalBody_le (quote : Char) (cs : List Char) : literalBody quote cs ≤ cs.length := by
  fun_induction literalBody quote cs <;> grind

theorem literalBody_cons (hc : c ≠ '\\') (cs : List Char) : literalBody quote (c :: cs) =
      if (c == '\n' && quote != '`') || c == quote then 0 else literalBody quote cs + 1 := by
  rw [literalBody] <;> simp [hc]

theorem literalBody_append {quote : Char} {xs ys : List Char} (h : literalBody quote (xs ++ ys) < xs.length)
    (zs : List Char) : literalBody quote (xs ++ zs) = literalBody quote (xs ++ ys) := by
  match xs with
  | [] => exact absurd h (Nat.not_lt_zero _)
  | [c] =>
    by_cases hc : c = '\\'
    · subst hc
      cases ys <;> simp [literalBody] at h
    · simp only [cons_append, literalBody_cons hc, length_singleton] at h ⊢
      split at h <;> simp_all
  | c :: x :: xs =>
    by_cases hc : c = '\\'
    · subst hc
      simp only [cons_append, literalBody, length_cons] at h ⊢
      have hin : literalBody quote (xs ++ ys) < xs.length := by omega
      rw [literalBody_append hin zs]
    · have ih : literalBody quote (x :: xs ++ ys) < (x :: xs).length →
          literalBody quote (x :: xs ++ zs) = literalBody quote (x :: xs ++ ys) :=
        fun hin => literalBody_append hin zs
      simp only [cons_append, literalBody_cons hc, length_cons] at h ih ⊢
      split at h
      · rename_i hstop
        rw [if_pos hstop, if_pos hstop]
      · rename_i hgo
        rw [if_neg hgo, if_neg hgo, ih (by omega)]

theorem quoteWithin_append (h : quoteWithin budget (xs ++ ys) = some n)
    (hin : n < xs.length) (zs : List Char) : quoteWithin budget (xs ++ zs) = some n := by
  induction xs generalizing budget n with
  | nil => exact absurd hin (Nat.not_lt_zero n)
  | cons x xs ih =>
    rw [cons_append, quoteWithin] at h ⊢
    split at h
    · cases h
    split at h
    · rename_i hquote
      simp_all
    · rename_i hbudget hquote
      obtain ⟨m, hm, rfl⟩ := map_eq_some_iff.1 h
      rw [if_neg hbudget, if_neg hquote, ih hm (by simpa using hin)]
      rfl

def Unmarked (lexicon : Lexicon) (before : Option Char) (cs : List Char) : Prop :=
  (∀ marks ∈ lexicon.blockMarks, ¬ marks.1.toList <+: cs) ∧ ∀ mark ∈ lexicon.lineMarks, mark.toList <+: cs →
      mark = "#" ∧ lexicon.hashAtBoundary = true ∧ isBoundary before = false

def unmarkedAt (lexicon : Lexicon) (c : Char) (rest : List Char) : Piece :=
  if lexicon.charLiterals && c == '\'' then
    match charBody? rest with
    | some n => ⟨.literal, 1, n, 1⟩
    | none => .code
  else if lexicon.quotes.contains c then literalAt lexicon c rest
  else .code

theorem blockComment?_eq_none_iff {marks : String × String} :
    blockComment? marks cs = none ↔ ¬ marks.1.toList <+: cs := by
  rw [blockComment?, map_eq_none_iff, afterHead?_eq_none_iff]

theorem lineComment?_eq_none_iff : lineComment? lexicon before mark cs = none ↔ (mark.toList <+: cs →
      mark = "#" ∧ lexicon.hashAtBoundary = true ∧ isBoundary before = false) := by
  rw [lineComment?, ← isSome_afterHead?_iff]
  simp [and_assoc]

theorem pieceAt_of_unmarked
    (h : Unmarked lexicon before (c :: cs)) : pieceAt lexicon before (c :: cs) = unmarkedAt lexicon c cs := by
  have hblock : lexicon.blockMarks.findSome? (blockComment? · (c :: cs)) = none :=
    findSome?_eq_none_iff.2 fun marks hmarks => blockComment?_eq_none_iff.2 (h.1 marks hmarks)
  have hline : lexicon.lineMarks.findSome? (lineComment? lexicon before · (c :: cs)) = none :=
    findSome?_eq_none_iff.2 fun mark hmark => lineComment?_eq_none_iff.2 (h.2 mark hmark)
  simp only [pieceAt, hblock, hline]
  rfl

/-- A comment is not empty and, where a comment may look at the character before it, does not end
before a `#`. -/
theorem unmarked_or_comment (h : lexicon.Regular) (before : Option Char) (cs : List Char) :
    Unmarked lexicon before cs ∨ ∃ xs ys, cs = xs ++ ys ∧ xs ≠ [] ∧ pieceAt lexicon before cs = .comment xs.length ∧
      (lexicon.hashAtBoundary = true → ys.head? ≠ some '#') := by
  cases hblock : lexicon.blockMarks.findSome? (blockComment? · cs) with
  | some piece =>
    obtain ⟨marks, hmarks, hpiece⟩ := exists_of_findSome?_eq_some hblock
    obtain ⟨rest, hrest, hpiece⟩ := map_eq_some_iff.1 hpiece
    have hcs := congrArg List.length (afterHead?_eq_some_iff.1 hrest)
    have hlen := length_lengthTo_le marks.2 rest
    have hpos := length_pos_iff.2 (h.blockMarks marks hmarks).1.1
    simp only [length_append, String.length_toList] at hcs hpos
    obtain ⟨n, hn⟩ : ∃ n, n = marks.1.length + (lengthTo marks.2 rest).1 +
      if (lengthTo marks.2 rest).2 = true then marks.2.length else 0 := ⟨_, rfl⟩
    refine .inr ⟨cs.take n, cs.drop n, (take_append_drop n cs).symm, ?_, ?_, ?_⟩
    · rw [← length_pos_iff, length_take]
      omega
    · simp only [length_take, Nat.min_eq_left (show n ≤ cs.length by omega), pieceAt, hblock]
      rw [← hpiece, hn]
    · intro hboundary
      rw [h.boundary hboundary] at hmarks
      cases hmarks
  | none =>
    cases hline : lexicon.lineMarks.findSome? (lineComment? lexicon before · cs) with
    | some piece =>
      obtain ⟨mark, hmark, hpiece⟩ := exists_of_findSome?_eq_some hline
      rw [lineComment?] at hpiece
      split at hpiece
      · rename_i hthere
        rw [Bool.and_eq_true] at hthere
        obtain ⟨rest, rfl⟩ := isSome_afterHead?_iff.1 hthere.1
        obtain ⟨hne, hchars⟩ := h.lineMarks mark hmark
        obtain ⟨c, tail, hmark⟩ := exists_cons_of_ne_nil hne
        have hc : c ≠ '\n' := (hchars c (by rw [hmark]; exact mem_cons_self)).2.2.1
        refine .inr ⟨(mark.toList ++ rest).takeWhile (· != '\n'), (mark.toList ++ rest).dropWhile (· != '\n'),
          takeWhile_append_dropWhile.symm, ?_, ?_, fun _ hhash => ?_⟩
        · rw [hmark, cons_append, takeWhile_cons_of_pos (by simpa using hc)]
          exact cons_ne_nil _ _
        · simp only [pieceAt, hblock, hline]
          exact (Option.some.inj hpiece).symm
        · have hstop := head?_dropWhile_not (· != '\n') (mark.toList ++ rest)
          rw [hhash] at hstop
          cases hstop
      · cases hpiece
    | none =>
      exact .inl ⟨fun marks hmarks => blockComment?_eq_none_iff.1 (findSome?_eq_none_iff.1 hblock marks hmarks),
        fun mark hmark => lineComment?_eq_none_iff.1 (findSome?_eq_none_iff.1 hline mark hmark)⟩

/-- A literal within three quotation marks on either side, after the first. -/
def tripled (quote : Char) (rest : List Char) : Piece :=
  let (n, closed) := lengthTo (String.ofList [quote, quote, quote]) (rest.drop 2)
  ⟨.literal, 3, n, if closed then 3 else 0⟩

theorem literalAt_eq_tripled (htriple : lexicon.tripleQuotes = true) (h : [quote, quote] <+: rest) :
    literalAt lexicon quote rest = tripled quote rest := by
  obtain ⟨inner, rfl⟩ := h
  simp [literalAt, htriple, tripled]

theorem literalAt_eq_ordinary (h : ¬ (lexicon.tripleQuotes = true ∧ [quote, quote] <+: rest)) :
    literalAt lexicon quote rest = literalAt.ordinary quote rest := by
  unfold literalAt
  split
  · rename_i second third inner htriple
    rw [if_neg]
    intro hquotes
    simp only [Bool.and_eq_true, beq_iff_eq] at hquotes
    exact h ⟨htriple, inner, by rw [hquotes.1, hquotes.2]; rfl⟩
  · rfl

theorem lt_of_quoteWithin (h : quoteWithin budget cs = some n) : n < cs.length := by
  induction cs generalizing budget n with
  | nil => cases h
  | cons c cs ih =>
    rw [quoteWithin] at h
    split at h
    · cases h
    split at h
    · cases h
      exact Nat.succ_pos _
    · obtain ⟨m, hm, rfl⟩ := map_eq_some_iff.1 h
      exact Nat.succ_lt_succ (ih hm)

theorem lt_of_charBody? (h : charBody? cs = some n) : n < cs.length := by
  unfold charBody? at h
  split at h
  · obtain ⟨m, hm, rfl⟩ := map_eq_some_iff.1 h
    exact Nat.succ_lt_succ (lt_of_quoteWithin hm)
  · cases h
    simp
  · cases h

theorem literalAt_length (quote : Char) (rest : List Char) :
    0 < (literalAt lexicon quote rest).length ∧ (literalAt lexicon quote rest).length ≤ rest.length + 1 := by
  by_cases h : lexicon.tripleQuotes = true ∧ [quote, quote] <+: rest
  · have hlen := length_lengthTo_le (String.ofList [quote, quote, quote]) (rest.drop 2)
    have htwo := h.2.length_le
    rw [literalAt_eq_tripled h.1 h.2]
    simp only [tripled, Piece.length, String.length_ofList, length_drop, length_cons,
      length_nil, Nat.reduceAdd] at hlen htwo ⊢
    omega
  · have hlen := literalBody_le quote rest
    rw [literalAt_eq_ordinary h]
    simp only [literalAt.ordinary, Piece.length]
    split <;> omega

theorem literalAt_of_open (hopen : (literalAt lexicon quote rest).closing = 0) :
    (literalAt lexicon quote rest).length = rest.length + 1 := by
  by_cases h : lexicon.tripleQuotes = true ∧ [quote, quote] <+: rest
  · have htwo := h.2.length_le
    rw [literalAt_eq_tripled h.1 h.2] at hopen ⊢
    simp only [tripled, Piece.length] at hopen ⊢
    have hclosed : (lengthTo (String.ofList [quote, quote, quote]) (rest.drop 2)).2 = false := by
      split at hopen
      · cases hopen
      · rwa [Bool.not_eq_true] at *
    rw [hopen, fst_lengthTo_of_not_closed hclosed, length_drop]
    simp only [length_cons, length_nil] at htwo
    omega
  · have hlen := literalBody_le quote rest
    rw [literalAt_eq_ordinary h] at hopen ⊢
    simp only [literalAt.ordinary, Piece.length] at hopen ⊢
    rw [hopen]
    split at hopen
    · cases hopen
    · omega

theorem unmarkedAt_length (lexicon : Lexicon) (c : Char) (rest : List Char) :
    0 < (unmarkedAt lexicon c rest).length ∧ (unmarkedAt lexicon c rest).length ≤ rest.length + 1 := by
  have hcode : 0 < Piece.code.length ∧ Piece.code.length ≤ rest.length + 1 := by simp
  unfold unmarkedAt
  split
  · split
    · rename_i n hn
      have := lt_of_charBody? hn
      simp only [Piece.length]
      omega
    · exact hcode
  · split
    · exact literalAt_length c rest
    · exact hcode

/-- **A piece is not empty and lies within the text.** -/
theorem pieceAt_length (h : lexicon.Regular) (before : Option Char) (hne : cs ≠ []) :
    0 < (pieceAt lexicon before cs).length ∧ (pieceAt lexicon before cs).length ≤ cs.length := by
  rcases unmarked_or_comment h before cs with hun | ⟨xs, ys, rfl, hxs, hpiece, -⟩
  · obtain ⟨c, cs, rfl⟩ := exists_cons_of_ne_nil hne
    rw [pieceAt_of_unmarked hun]
    exact unmarkedAt_length lexicon c cs
  · have := length_pos_iff.2 hxs
    rw [hpiece, length_comment, length_append]
    omega

/-! ## Masking piece by piece -/

theorem pieces_induction {lexicon : Lexicon} (h : lexicon.Regular) {motive : Option Char → List Char → Prop}
    (nil : ∀ before, motive before [])
    (piece : ∀ before xs ys, xs ≠ [] → (pieceAt lexicon before (xs ++ ys)).length = xs.length →
      motive xs.getLast? ys → motive before (xs ++ ys)) (before : Option Char) (cs : List Char) :
    motive before cs := by
  by_cases hne : cs = []
  · exact hne ▸ nil before
  · obtain ⟨hpos, hle⟩ := pieceAt_length h before hne
    obtain ⟨n, hn⟩ : ∃ n, n = (pieceAt lexicon before cs).length := ⟨_, rfl⟩
    have hlen : (cs.take n).length = n := length_take_of_le (by omega)
    have ih := pieces_induction h nil piece (cs.take n).getLast? (cs.drop n)
    rw [← take_append_drop n cs]
    refine piece before _ _ (length_pos_iff.1 (by omega)) ?_ ih
    rw [take_append_drop, hlen, hn]
termination_by cs.length
decreasing_by
  rw [length_drop]
  omega

def masked (lexicon : Lexicon) (keep : Bool) (before : Option Char) (cs : List Char) : List Char :=
  maskList lexicon keep cs.length before cs

theorem toList_mask (lexicon : Lexicon) (keep : Bool) (text : String) :
    (mask lexicon keep text).toList = masked lexicon keep none text.toList := by
  rw [mask, masked, String.toList_ofList, String.length_toList]

@[simp] theorem masked_nil (lexicon : Lexicon) (keep : Bool) (before : Option Char) :
    masked lexicon keep before [] = [] := rfl

theorem Piece.render_append (hlen : piece.length = xs.length) (keep : Bool)
    (ys : List Char) : piece.render keep (xs ++ ys) = piece.render keep xs := by
  rw [length] at hlen
  have hopening : (xs ++ ys).take piece.opening = xs.take piece.opening :=
    take_append_of_le_length (by omega)
  have hbody : ((xs ++ ys).drop piece.opening).take piece.body = (xs.drop piece.opening).take piece.body := by
    rw [drop_append_of_le_length (by omega), take_append_of_le_length (by rw [length_drop]; omega)]
  have hclosing : ((xs ++ ys).drop (piece.opening + piece.body)).take piece.closing =
      (xs.drop (piece.opening + piece.body)).take piece.closing := by
    rw [drop_append_of_le_length (by omega), take_append_of_le_length (by rw [length_drop]; omega)]
  simp only [render, hopening, hbody, hclosing]

theorem maskList_append (hne : xs ≠ [])
    (hlen : (pieceAt lexicon before (xs ++ ys)).length = xs.length) (keep : Bool) (fuel : Nat) :
    maskList lexicon keep (fuel + 1) before (xs ++ ys) =
      (pieceAt lexicon before (xs ++ ys)).render keep xs ++
        maskList lexicon keep fuel xs.getLast? ys := by
  obtain ⟨x, xs, rfl⟩ := exists_cons_of_ne_nil hne
  rw [cons_append, maskList, ← cons_append, render_append hlen, hlen, take_left, drop_left]

theorem maskList_fuel (h : lexicon.Regular) (keep : Bool) (before : Option Char)
    (cs : List Char) : ∀ m n, cs.length ≤ m → cs.length ≤ n →
      maskList lexicon keep m before cs = maskList lexicon keep n before cs := by
  intro m n hm hn
  induction before, cs using pieces_induction h generalizing m n with
  | nil before => cases m <;> cases n <;> rfl
  | piece before xs ys hne hlen ih =>
    have hpos := length_pos_iff.2 hne
    rw [length_append] at hm hn
    obtain ⟨m, rfl⟩ : ∃ k, m = k + 1 := ⟨m - 1, by omega⟩
    obtain ⟨n, rfl⟩ : ∃ k, n = k + 1 := ⟨n - 1, by omega⟩
    rw [maskList_append hne hlen, maskList_append hne hlen, ih m n (by omega) (by omega)]

/-- **Masking goes piece by piece.** -/
theorem masked_append (h : lexicon.Regular)
    (hne : xs ≠ []) (hlen : (pieceAt lexicon before (xs ++ ys)).length = xs.length) (keep : Bool) :
    masked lexicon keep before (xs ++ ys) =
      (pieceAt lexicon before (xs ++ ys)).render keep xs ++ masked lexicon keep xs.getLast? ys := by
  have hpos := length_pos_iff.2 hne
  obtain ⟨m, hm⟩ : ∃ m, (xs ++ ys).length = m + 1 := ⟨(xs ++ ys).length - 1, by rw [length_append]; omega⟩
  rw [masked, hm, maskList_append hne hlen, masked]
  rw [length_append] at hm
  rw [maskList_fuel h keep _ ys m ys.length (by omega) (Nat.le_refl _)]

/-! ## Blanks in the place of characters -/

theorem blankChar_feed : blankChar '\n' = ['\n'] := rfl

theorem blankChar_of_ne (hc : c ≠ '\n') : blankChar c = List.replicate c.utf8Size ' ' := by
  simp [blankChar, hc]

theorem mem_blankChar {d : Char} (h : d ∈ blankChar c) : d = ' ' ∨ d = '\n' := by
  by_cases hc : c = '\n'
  · subst hc
    exact .inr (mem_singleton.1 h)
  · rw [blankChar_of_ne hc] at h
    exact .inl (eq_of_mem_replicate h)

theorem blankChar_ne_nil (c : Char) : blankChar c ≠ [] := by
  by_cases hc : c = '\n'
  · simp [hc, blankChar_feed]
  · have := c.utf8Size_pos
    rw [blankChar_of_ne hc, ← length_pos_iff, length_replicate]
    exact this

theorem length_blankChar (c : Char) : (blankChar c).length = c.utf8Size := by
  by_cases hc : c = '\n'
  · subst hc
    decide
  · rw [blankChar_of_ne hc, length_replicate]

theorem quoteWithin_blanks {blanks : List Char} (hblanks : ∀ b ∈ blanks, b = ' ' ∨ b = '\n')
    (h : quoteWithin budget (blanks ++ cs) ≠ none) : quoteWithin (budget - blanks.length) cs ≠ none := by
  induction blanks generalizing budget with
  | nil => exact h
  | cons b blanks ih =>
    have hb : (b == '\'') = false ∧ b.utf8Size = 1 := by
      rcases hblanks b mem_cons_self with rfl | rfl <;> decide
    rw [cons_append, quoteWithin] at h
    split at h
    · exact absurd rfl h
    · rw [hb.1, hb.2] at h
      simp only [Bool.false_eq_true, if_false, ne_eq, map_eq_none_iff] at h
      have := ih (forall_mem_cons.1 hblanks).2 h
      rwa [Nat.sub_sub, Nat.add_comm 1] at this

/-- The second list has blanks in the place of some characters of the first. -/
inductive Masked : List Char → List Char → Prop where
  | nil : Masked [] []
  | keep (c : Char) {cs ds : List Char} : Masked cs ds → Masked (c :: cs) (c :: ds)
  | hide (c : Char) {cs ds : List Char} : Masked cs ds → Masked (c :: cs) (blankChar c ++ ds)

namespace Masked

variable {cs ds : List Char}

theorem refl (cs : List Char) : Masked cs cs := by
  induction cs with
  | nil => exact .nil
  | cons c cs ih => exact .keep c ih

theorem blanks (cs : List Char) : Masked cs (cs.flatMap blankChar) := by
  induction cs with
  | nil => exact .nil
  | cons c cs ih => exact .hide c ih

theorem append {cs' ds' : List Char} (h : Masked cs ds) (h' : Masked cs' ds') : Masked (cs ++ cs') (ds ++ ds') := by
  induction h with
  | nil => exact h'
  | keep c _ ih => exact .keep c ih
  | hide c _ ih =>
    rw [append_assoc]
    exact .hide c ih

/-- **What is no blank in the masked list stands in the list.** -/
theorem isPrefix {word : List Char} (h : Masked cs ds) (hword : ∀ c ∈ word, c ≠ ' ' ∧ c ≠ '\n')
    (hp : word <+: ds) : word <+: cs := by
  induction h generalizing word with
  | nil => exact hp
  | keep c _ ih =>
    cases word with
    | nil => exact nil_prefix
    | cons w word =>
      rw [cons_prefix_cons] at hp ⊢
      exact ⟨hp.1, ih (forall_mem_cons.1 hword).2 hp.2⟩
  | hide c _ ih =>
    cases word with
    | nil => exact nil_prefix
    | cons w word =>
      obtain ⟨b, blanks, hb⟩ := exists_cons_of_ne_nil (blankChar_ne_nil c)
      have hblank := mem_blankChar (show b ∈ blankChar c by rw [hb]; exact mem_cons_self)
      rw [hb, cons_append, cons_prefix_cons] at hp
      obtain ⟨hs, hf⟩ := hword w mem_cons_self
      rcases hblank with rfl | rfl
      · exact absurd hp.1 hs
      · exact absurd hp.1 hf

theorem eq_nil (h : Masked [] ds) : ds = [] := by
  cases h
  rfl

theorem isPrefix_tail {c d q : Char} (h : Masked (c :: cs) (d :: ds))
    (hq : q ≠ ' ' ∧ q ≠ '\n') (hd : [q] <+: ds) : [q] <+: cs := by
  have hkept : ∀ c ∈ [q], c ≠ ' ' ∧ c ≠ '\n' := by simpa using hq
  generalize hl : d :: ds = l at h
  cases h with
  | keep _ h =>
    cases hl
    exact h.isPrefix hkept hd
  | hide _ h =>
    -- the second blank of a character of several bytes is no `q`
    obtain ⟨b, blanks, hb⟩ := exists_cons_of_ne_nil (blankChar_ne_nil c)
    rw [hb, cons_append, List.cons.injEq] at hl
    cases blanks with
    | nil => exact h.isPrefix hkept (by rwa [hl.2] at hd)
    | cons b' blanks =>
      rw [hl.2, cons_append, cons_prefix_cons] at hd
      have := mem_blankChar (show b' ∈ blankChar c by simp [hb])
      rw [← hd.1] at this
      exact absurd this (by simp [hq])

theorem quoteWithin_ne_none (h : Masked cs ds) {budget : Nat}
    (hq : quoteWithin budget ds ≠ none) : quoteWithin budget cs ≠ none := by
  induction h generalizing budget with
  | nil => exact hq
  | keep c _ ih =>
    rw [quoteWithin] at hq ⊢
    split at hq
    · exact absurd rfl hq
    · rename_i hbudget
      rw [if_neg hbudget]
      split at hq
      · simp [*]
      · rename_i hc
        rw [if_neg hc]
        simp only [ne_eq, map_eq_none_iff] at hq ⊢
        exact ih hq
  | hide c _ ih =>
    have hbudget : budget ≠ 0 := by
      rintro rfl
      obtain ⟨b, blanks, hb⟩ := exists_cons_of_ne_nil (blankChar_ne_nil c)
      rw [hb, cons_append, quoteWithin] at hq
      exact absurd rfl hq
    have hrest := ih (quoteWithin_blanks (fun b hb => mem_blankChar hb) hq)
    rw [length_blankChar] at hrest
    rw [quoteWithin, if_neg hbudget]
    split
    · simp
    · simpa using hrest

end Masked

theorem Piece.render_comment (xs : List Char) (keep : Bool) :
    (comment xs.length).render keep xs = xs.flatMap blankChar := by
  simp [render, comment]

theorem Piece.parts (hlen : piece.length = xs.length) :
    xs.take piece.opening ++ (xs.drop piece.opening).take piece.body ++
      (xs.drop (piece.opening + piece.body)).take piece.closing = xs := by
  rw [length] at hlen
  have hclosing : (xs.drop (piece.opening + piece.body)).take piece.closing =
      xs.drop (piece.opening + piece.body) := take_of_length_le (by rw [length_drop]; omega)
  rw [hclosing, ← drop_drop, append_assoc, take_append_drop, take_append_drop]

theorem Piece.render_kept (hlen : piece.length = xs.length)
    (hkind : piece.kind ≠ .comment) : piece.render true xs = xs := by
  refine Eq.trans ?_ (parts hlen)
  cases hk : piece.kind with
  | comment => exact absurd hk hkind
  | _ => simp [render, hk]

theorem Masked.render {piece : Piece} {xs : List Char} (hlen : piece.length = xs.length) (keep : Bool) :
    Masked xs (piece.render keep xs) := by
  have hbody (hidden : Bool) (cs : List Char) : Masked cs (if hidden then cs.flatMap blankChar else cs) := by
    cases hidden
    · exact .refl cs
    · exact .blanks cs
  have hparts : Masked (xs.take piece.opening ++ (xs.drop piece.opening).take piece.body ++
      (xs.drop (piece.opening + piece.body)).take piece.closing) (piece.render keep xs) :=
    ((Masked.refl _).append (hbody _ _)).append (.refl _)
  rwa [parts hlen] at hparts

theorem Masked.render_true_false (piece : Piece) (xs : List Char) :
    Masked (piece.render true xs) (piece.render false xs) := by
  refine ((Masked.refl _).append ?_).append (.refl _)
  cases piece.kind with
  | literal => exact .blanks _
  | _ => exact .refl _

/-- **Masking puts blanks in the place of characters, and nothing else.** -/
theorem Masked.masked (h : lexicon.Regular) (keep : Bool) (before : Option Char)
    (cs : List Char) : Masked cs (masked lexicon keep before cs) := by
  induction before, cs using pieces_induction h with
  | nil before => exact .nil
  | piece before xs ys hne hlen ih =>
    rw [masked_append h hne hlen]
    exact (Masked.render hlen keep).append ih

/-- **Hiding literals puts more blanks.** -/
theorem masked_true_false (h : lexicon.Regular) (before : Option Char) (cs : List Char) :
    Masked (masked lexicon true before cs) (masked lexicon false before cs) := by
  induction before, cs using pieces_induction h with
  | nil before => exact .nil
  | piece before xs ys hne hlen ih =>
    rw [masked_append h hne hlen, masked_append h hne hlen]
    exact (Masked.render_true_false _ _).append ih

/-! ## Hiding comments first -/

section Twice

variable {lexicon : Lexicon} (h : lexicon.Regular) {c : Char} {before : Option Char}
include h

theorem unmarked_of_not_markChar (hc : ¬ IsMarkChar c) (cs : List Char) : Unmarked lexicon before (c :: cs) := by
  have hno {mark : String} (hmark : IsMark mark) : ¬ mark.toList <+: c :: cs := by
    obtain ⟨d, tail, hd⟩ := exists_cons_of_ne_nil hmark.1
    intro hp
    rw [hd, cons_prefix_cons] at hp
    exact hc (hp.1 ▸ hmark.2 d (hd ▸ mem_cons_self))
  exact ⟨fun marks hmarks => hno (h.blockMarks marks hmarks).1,
    fun mark hmark hp => absurd hp (hno (h.lineMarks mark hmark))⟩

theorem pieceAt_of_not_markChar (hc : ¬ IsMarkChar c) (before : Option Char) (cs : List Char) :
    pieceAt lexicon before (c :: cs) = .code := by
  have hquote : c ≠ '\'' := by
    rintro rfl
    exact hc (by decide)
  have hquotes : c ∉ lexicon.quotes := fun hmem => hc (h.quotes c hmem)
  rw [pieceAt_of_unmarked (unmarked_of_not_markChar h hc cs), unmarkedAt]
  simp [hquote, hquotes]

theorem masked_cons_of_code {cs : List Char} (hpiece : pieceAt lexicon before (c :: cs) = .code) (keep : Bool) :
    masked lexicon keep before (c :: cs) = c :: masked lexicon keep (some c) cs := by
  have hlen : (pieceAt lexicon before ([c] ++ cs)).length = [c].length := by simp [hpiece]
  have hstep := masked_append h (cons_ne_nil c []) hlen keep
  simpa [hpiece, render, code] using hstep

theorem masked_of_not_markChar (hc : ¬ IsMarkChar c) (keep : Bool) (before : Option Char) (cs : List Char) :
    masked lexicon keep before (c :: cs) = c :: masked lexicon keep (some c) cs :=
  masked_cons_of_code h (pieceAt_of_not_markChar h hc before cs) keep

theorem masked_blanks {blanks : List Char} (hblanks : ∀ b ∈ blanks, b = ' ' ∨ b = '\n') (keep : Bool)
    (before : Option Char) (cs : List Char) : ∃ last, masked lexicon keep before (blanks ++ cs) =
      blanks ++ masked lexicon keep last cs := by
  induction blanks generalizing before with
  | nil => exact ⟨before, rfl⟩
  | cons b blanks ih =>
    have hb : ¬ IsMarkChar b := by
      rcases hblanks b mem_cons_self with rfl | rfl <;> decide
    obtain ⟨last, hlast⟩ := ih (forall_mem_cons.1 hblanks).2 (some b)
    exact ⟨last, by rw [cons_append, masked_of_not_markChar h hb, hlast, cons_append]⟩

end Twice

theorem charBody?_escape (cs : List Char) : charBody? ('\\' :: cs) = (quoteWithin 10 cs).map (· + 1) := rfl

theorem charBody?_plain (hc : c ≠ '\\') (cs : List Char) :
    charBody? (c :: cs) = if ['\''] <+: cs then some 1 else none := by
  cases cs with
  | nil => rw [charBody?] <;> simp [hc]
  | cons d cs =>
    by_cases hd : '\'' = d
    · subst hd
      rw [charBody?] <;> simp [hc]
    · rw [charBody?] <;> simp [hc, hd, Ne.symm hd]

theorem charBody?_append (h : charBody? (xs ++ ys) = some n) (hin : n < xs.length)
    (zs : List Char) : charBody? (xs ++ zs) = some n := by
  match xs with
  | [] => exact absurd hin (Nat.not_lt_zero n)
  | c :: xs =>
    rw [cons_append] at h ⊢
    by_cases hc : c = '\\'
    · subst hc
      rw [charBody?_escape] at h ⊢
      obtain ⟨m, hm, rfl⟩ := map_eq_some_iff.1 h
      rw [quoteWithin_append hm (Nat.lt_of_succ_lt_succ hin)]
      rfl
    · rw [charBody?_plain hc] at h ⊢
      split at h
      · cases h
        rename_i hquote
        have hone : ['\''] <+: xs :=
          prefix_of_prefix_length_le hquote (prefix_append _ _) (Nat.lt_of_succ_lt_succ hin)
        rw [if_pos (hone.trans (prefix_append _ _))]
      · cases h

theorem charBody?_masked (h : lexicon.Regular) (before : Option Char)
    (hnone : charBody? cs = none) : charBody? (masked lexicon true before cs) = none := by
  cases cs with
  | nil => rfl
  | cons c cs =>
    by_cases hc : c = '\\'
    · subst hc
      -- a backslash opens no comment, so it is there in both
      rw [masked_of_not_markChar h (by decide), charBody?_escape, map_eq_none_iff]
      rw [charBody?_escape, map_eq_none_iff] at hnone
      exact Classical.byContradiction fun hsome =>
        (Masked.masked h true (some '\\') cs).quoteWithin_ne_none hsome hnone
    · have hmasked := Masked.masked h true before (c :: cs)
      generalize masked lexicon true before (c :: cs) = ds at hmasked
      cases ds with
      | nil => rfl
      | cons d ds =>
        have hd : d ≠ '\\' := by
          rintro rfl
          have hp : ['\\'] <+: c :: cs := hmasked.isPrefix (forall_mem_singleton.2 (by decide)) (by simp)
          exact hc (cons_prefix_cons.1 hp).1.symm
        rw [charBody?_plain hc, ite_eq_right_iff] at hnone
        rw [charBody?_plain hd, if_neg]
        intro hquote
        exact absurd (hnone (hmasked.isPrefix_tail (by decide) hquote)) (by simp)

theorem literalAt_masked (hquote : IsMarkChar quote)
    (hlen : (literalAt lexicon quote (xs ++ ys)).length = xs.length + 1) (hmasked : Masked ys zs) :
    literalAt lexicon quote (xs ++ zs) = literalAt lexicon quote (xs ++ ys) := by
  by_cases hclosed : (literalAt lexicon quote (xs ++ ys)).closing = 0
  · rw [literalAt_of_open hclosed, length_append] at hlen
    obtain rfl : ys = [] := length_eq_zero_iff.1 (by omega)
    rw [hmasked.eq_nil]
  · by_cases h : lexicon.tripleQuotes = true ∧ [quote, quote] <+: xs ++ ys
    · rw [literalAt_eq_tripled h.1 h.2] at hlen hclosed ⊢
      have hmark : (lengthTo (String.ofList [quote, quote, quote]) ((xs ++ ys).drop 2)).2 = true := by
        simp only [tripled] at hclosed
        split at hclosed
        · assumption
        · exact absurd rfl hclosed
      simp only [tripled, Piece.length, hmark, if_true] at hlen
      have htwo : [quote, quote] <+: xs := by
        refine prefix_of_prefix_length_le h.2 (prefix_append _ _) ?_
        simp only [length_cons, length_nil]
        omega
      obtain ⟨inner, rfl⟩ := htwo
      rw [append_assoc] at hmark hlen
      rw [literalAt_eq_tripled h.1 ⟨inner ++ zs, by rw [append_assoc]⟩]
      simp only [tripled, cons_append, nil_append, drop_succ_cons, drop_zero, length_cons] at hmark hlen ⊢
      rw [lengthTo_append hmark (by rw [String.length_ofList]; simp only [length_cons, length_nil]; omega)]
    · have hnot : ¬ (lexicon.tripleQuotes = true ∧ [quote, quote] <+: xs ++ zs) := by
        rintro ⟨htriple, hp⟩
        refine h ⟨htriple, ((Masked.refl xs).append hmasked).isPrefix (fun c hc => ?_) hp⟩
        have : c = quote := by simpa using hc
        exact this ▸ ⟨hquote.2.1, hquote.2.2.1⟩
      rw [literalAt_eq_ordinary h] at hlen hclosed ⊢
      rw [literalAt_eq_ordinary hnot]
      have hin : literalBody quote (xs ++ ys) < xs.length := by
        simp only [literalAt.ordinary, Piece.length] at hlen hclosed
        omega
      simp only [literalAt.ordinary, literalBody_append hin zs, length_append]
      rw [if_pos (by omega), if_pos (by omega)]

/-! ## Hiding comments first -/

/-- The characters before a list make no difference to whether a comment opens there. -/
def SameStart (lexicon : Lexicon) (before before' : Option Char) (cs : List Char) : Prop :=
  lexicon.hashAtBoundary = true → isBoundary before' = isBoundary before ∨ cs.head? ≠ some '#'

theorem Unmarked.of_masked (h : lexicon.Regular) (hun : Unmarked lexicon before (xs ++ ys)) (hxs : xs ≠ [])
    (hstart : SameStart lexicon before before' (xs ++ ys)) (hmasked : Masked ys zs) :
    Unmarked lexicon before' (xs ++ zs) := by
  have hback {mark : String} (hmark : IsMark mark) (hp : mark.toList <+: xs ++ zs) : mark.toList <+: xs ++ ys :=
    ((Masked.refl xs).append hmasked).isPrefix (fun c hc => (hmark.2 c hc).2.imp_right And.left) hp
  refine ⟨fun marks hmarks hp => hun.1 marks hmarks (hback (h.blockMarks marks hmarks).1 hp), fun mark hmark hp => ?_⟩
  obtain ⟨rfl, hhash, hboundary⟩ := hun.2 mark hmark (hback (h.lineMarks mark hmark) hp)
  obtain ⟨x, xs, rfl⟩ := exists_cons_of_ne_nil hxs
  have hx : '#' = x := (cons_prefix_cons.1 hp).1
  exact ⟨rfl, hhash, ((hstart hhash).resolve_right (by simp [← hx])).trans hboundary⟩

theorem unmarkedAt_masked (h : lexicon.Regular) (hlen : (unmarkedAt lexicon c (xs ++ ys)).length = xs.length + 1) :
    unmarkedAt lexicon c (xs ++ masked lexicon true (c :: xs).getLast? ys) = unmarkedAt lexicon c (xs ++ ys) := by
  unfold unmarkedAt at hlen ⊢
  split
  · cases hbody : charBody? (xs ++ ys) with
    | some n =>
      rename_i hchar
      simp only [hchar, if_true, hbody, Piece.length] at hlen
      rw [charBody?_append hbody (by omega)]
    | none =>
      rename_i hchar
      simp only [hchar, if_true, hbody, Piece.length_code] at hlen
      obtain rfl : xs = [] := length_eq_zero_iff.1 (by omega)
      rw [nil_append] at hbody ⊢
      rw [charBody?_masked h _ hbody]
  · rename_i hchar
    split
    · rename_i hquote
      rw [if_neg hchar, if_pos hquote] at hlen
      exact literalAt_masked (h.quotes c (contains_iff_mem.1 hquote)) hlen (Masked.masked h true _ ys)
    · rfl

theorem unmarkedAt_kind (lexicon : Lexicon) (c : Char) (rest : List Char) :
    (unmarkedAt lexicon c rest).kind ≠ .comment := by
  have hliteral : (literalAt lexicon c rest).kind = .literal := by
    unfold literalAt
    split
    · split <;> rfl
    · rfl
  unfold unmarkedAt
  split
  · split <;> exact PieceKind.noConfusion
  · split
    · rw [hliteral]
      exact PieceKind.noConfusion
    · exact PieceKind.noConfusion

theorem masked_masked (h : lexicon.Regular) (keep : Bool) (hstart : SameStart lexicon before before' cs) :
    masked lexicon keep before' (masked lexicon true before cs) =
      masked lexicon keep before cs := by
  -- over the pieces of the text: what the first run keeps, the second reads as the same piece, and
  -- what it blanks, the second reads as code
  induction before, cs using pieces_induction h generalizing before' with
  | nil before => rfl
  | piece before xs ys hne hlen ih =>
    rw [masked_append h hne hlen, masked_append h hne hlen]
    rcases unmarked_or_comment h before (xs ++ ys) with hun | ⟨xs', ys', hcut, -, hpiece, hhash⟩
    · obtain ⟨x, xs, rfl⟩ := exists_cons_of_ne_nil hne
      have hun' := hun.of_masked h hne hstart (Masked.masked h true (x :: xs).getLast? ys)
      rw [cons_append] at hun hun' hlen ⊢
      rw [pieceAt_of_unmarked hun] at hlen ⊢
      have hsame : pieceAt lexicon before' (x :: xs ++ masked lexicon true (x :: xs).getLast? ys) =
          unmarkedAt lexicon x (xs ++ ys) := by
        rw [cons_append, pieceAt_of_unmarked hun', unmarkedAt_masked h hlen]
      rw [render_kept hlen (unmarkedAt_kind _ _ _), masked_append h hne (by rw [hsame, hlen]), hsame,
        ih fun _ => .inl rfl]
    · have hxs : xs' = xs := by
        rw [hpiece, length_comment] at hlen
        exact (append_inj_left hcut hlen.symm).symm
      subst hxs
      obtain rfl := append_cancel_left hcut
      rw [hpiece, render_comment, render_comment]
      have hblanks : ∀ b ∈ xs'.flatMap blankChar, b = ' ' ∨ b = '\n' := by
        intro b hb
        obtain ⟨c, -, hc⟩ := mem_flatMap.1 hb
        exact mem_blankChar hc
      obtain ⟨last, hlast⟩ := masked_blanks h hblanks keep before' (masked lexicon true xs'.getLast? ys)
      rw [hlast, ih fun hb => .inr (hhash hb)]

/-- **Comments have no influence on later masking.** -/
theorem mask_mask {lexicon : Lexicon} (h : lexicon ∈ Lexicon.known) (keep : Bool) (text : String) :
    mask lexicon keep (mask lexicon true text) = mask lexicon keep text := by
  have hregular := Lexicon.regular_of_known h
  rw [← String.toList_inj, toList_mask, toList_mask, toList_mask, masked_masked hregular keep fun _ => .inl rfl]

/-- A quotation mark after a comment, where a lifetime could be taken for a literal of one character. -/
theorem mask_mask_lifetime : Lexicon.rust ∈ Lexicon.known ∧
    mask .rust true "&'/*é*/' x \"//\" // y" = "&'      ' x \"//\"     " ∧
      mask .rust false "&'      ' x \"//\"     " = mask .rust false "&'/*é*/' x \"//\" // y" := by
  have hmask : mask .rust true "&'/*é*/' x \"//\" // y" = "&'      ' x \"//\"     " := by decide
  exact ⟨by decide, hmask, hmask ▸ mask_mask (by decide) false "&'/*é*/' x \"//\" // y"⟩

end Deadwood
