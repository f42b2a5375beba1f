import Deadwood.Proofs.MaskBytes

/-!
# What masking hides

A text in a language with braces and slashes is made of segments: code, comments of both kinds, and literals. A
segment may hold the marks of the others.

* **`mask_segments`**: masking hides exactly the comments and the bodies of literals.
-/

namespace Deadwood

open Text List Bytes

variable {lexicon : Lexicon} {quote : Char} {body rest : List Char} {before : Option Char} {segments : List Segment}

/-- A stretch of a text, without the marks around its body. -/
inductive Segment where
  | code (chars : List Char)
  | lineComment (body : List Char)
  | blockComment (body : List Char)
  | literal (quote : Char) (body : List Char)

/-- The body of a literal: escapes, and characters that end nothing. Only a backtick lets a literal run
over lines. -/
inductive LiteralBody (quote : Char) : List Char → Prop where
  | nil : LiteralBody quote []
  | escape (c : Char) {body : List Char} : LiteralBody quote body → LiteralBody quote ('\\' :: c :: body)
  | plain {c : Char} {body : List Char} : c ≠ '\\' → c ≠ quote → (c = '\n' → quote = '`') →
      LiteralBody quote body → LiteralBody quote (c :: body)

namespace Segment

def chars : Segment → List Char
  | code chars => chars
  | lineComment body => '/' :: '/' :: body
  | blockComment body => '/' :: '*' :: (body ++ ['*', '/'])
  | literal quote body => quote :: (body ++ [quote])

/-- The segment can stand before `rest`. -/
def Fits (rest : List Char) : Segment → Prop
  | code chars => (∀ c ∈ chars, c ∉ ['"', '\'', '`']) ∧
      ∀ i < chars.length, ¬ ['/', '/'] <+: (chars ++ rest).drop i ∧ ¬ ['/', '*'] <+: (chars ++ rest).drop i
  | lineComment body => '\n' ∉ body ∧ (rest = [] ∨ rest.head? = some '\n')
  | blockComment body => ¬ ['*', '/'] <:+: body
  | literal quote body => quote ∈ ['"', '\'', '`'] ∧ LiteralBody quote body

/-- The bytes of a segment, with blanks for those of a comment or of the body of a literal. Line feeds
stay. -/
def hide (keep : Bool) : Segment → Bytes
  | code chars => ofChars chars
  | lineComment body => (ofChars (lineComment body).chars).map blankByte
  | blockComment body => (ofChars (blockComment body).chars).map blankByte
  | literal quote body =>
    let bytes := ofChars body
    ofChars [quote] ++ (if keep then bytes else bytes.map blankByte) ++ ofChars [quote]

end Segment

def textOf (segments : List Segment) : String := String.ofList (segments.flatMap Segment.chars)

/-- Each segment can stand where it stands. -/
def Segmented : List Segment → Prop
  | [] => True
  | s :: segments => s.Fits (segments.flatMap Segment.chars) ∧ Segmented segments

/-! ## The piece at the start of a segment -/

theorem slashed_regular : Lexicon.slashed.Regular := Lexicon.regular_of_known (by decide)

/-- Comments are written with slashes and stars, and a literal is opened by one quotation mark. -/
structure Lexicon.HasSlashes (lexicon : Lexicon) : Prop where
  regular : lexicon.Regular
  lines : lexicon.lineMarks = ["//"]
  blocks : lexicon.blockMarks = [("/*", "*/")]
  single : lexicon.tripleQuotes = false

theorem slashed_hasSlashes : Lexicon.slashed.HasSlashes := ⟨slashed_regular, rfl, rfl, rfl⟩

theorem breakAt?_closing (hbody : ¬ ['*', '/'] <:+: body) (rest : List Char) :
    breakAt? ['*', '/'] (body ++ '*' :: '/' :: rest) = some (body, rest) := by
  induction body with
  | nil => simp [breakAt?, afterHead?]
  | cons c body ih =>
    have ih := ih fun h => hbody (h.trans (infix_cons_iff.2 (.inr infix_rfl)))
    -- the mark does not start at `c`: it would be in the body, or its `/` would be the `*` that follows
    have hno : ¬ ['*', '/'] <+: c :: (body ++ '*' :: '/' :: rest) := by
      intro hp
      cases body with
      | nil => simp at hp
      | cons d body =>
        rw [cons_append, cons_prefix_cons, cons_prefix_cons] at hp
        obtain ⟨rfl, rfl, -⟩ := hp
        exact hbody ⟨[], body, rfl⟩
    rw [cons_append, breakAt?, afterHead?_eq_none_iff.2 hno, ih]
    rfl

theorem literalBody_of_closed (hquote : quote ≠ '\\')
    (h : LiteralBody quote body) (rest : List Char) : literalBody quote (body ++ quote :: rest) = body.length := by
  induction h with
  | nil =>
    rw [nil_append, literalBody_cons hquote]
    simp
  | escape c _ ih =>
    rw [cons_append, cons_append, literalBody, ih]
    rfl
  | @plain c body hc hne hfeed _ ih =>
    rw [cons_append, literalBody_cons hc, if_neg, ih, length_cons]
    simp only [Bool.or_eq_true, Bool.and_eq_true, beq_iff_eq, bne_iff_ne, not_or, not_and, not_not]
    exact ⟨hfeed, hne⟩

section

variable (h : lexicon.HasSlashes)
include h

theorem unmarked_iff {cs : List Char} : Unmarked lexicon before cs ↔ ¬ ['/', '/'] <+: cs ∧ ¬ ['/', '*'] <+: cs := by
  simp [Unmarked, h.lines, h.blocks, and_comm]

theorem pieceAt_lineComment (hbody : '\n' ∉ body) (hrest : rest = [] ∨ rest.head? = some '\n') (before : Option Char) :
    pieceAt lexicon before ('/' :: '/' :: (body ++ rest)) = .comment (body.length + 2) := by
  have hblock : blockComment? ("/*", "*/") ('/' :: '/' :: (body ++ rest)) = none := by
    rw [blockComment?_eq_none_iff]
    simp
  have hstop : rest.takeWhile (· != '\n') = [] := by
    rcases hrest with rfl | hhead
    · rfl
    · cases rest with
      | nil => rfl
      | cons c rest => simp_all
  have hall : ∀ c ∈ body, (c != '\n') = true := by
    intro c hc
    rw [bne_iff_ne]
    rintro rfl
    exact hbody hc
  have hline : lineComment? lexicon before "//" ('/' :: '/' :: (body ++ rest)) = some (.comment (body.length + 2)) := by
    simp [lineComment?, afterHead?, takeWhile_append_of_pos hall, hstop]
  simp only [pieceAt, h.blocks, h.lines, findSome?_cons, findSome?_nil, hblock, hline]

theorem pieceAt_block (rest : List Char) (before : Option Char) : pieceAt lexicon before ('/' :: '*' :: rest) =
    .comment ((lengthTo "*/" rest).1 + (if (lengthTo "*/" rest).2 then 2 else 0) + 2) := by
  have hsize : "/*".length = 2 ∧ "*/".length = 2 := by decide
  have hblock : blockComment? ("/*", "*/") ('/' :: '*' :: rest) =
      some (.comment ((lengthTo "*/" rest).1 + (if (lengthTo "*/" rest).2 then 2 else 0) + 2)) := by
    simp [blockComment?, afterHead?, hsize, Nat.add_comm, Nat.add_left_comm]
  simp only [pieceAt, h.blocks, findSome?_cons, hblock]

theorem pieceAt_blockComment (hbody : ¬ ['*', '/'] <:+: body) (rest : List Char) (before : Option Char) :
    pieceAt lexicon before ('/' :: '*' :: (body ++ '*' :: '/' :: rest)) = .comment (body.length + 4) := by
  have hclose : lengthTo "*/" (body ++ '*' :: '/' :: rest) = (body.length, true) := by
    simp [lengthTo, breakAt?_closing hbody]
  rw [pieceAt_block h, hclose]
  rfl

theorem pieceAt_of_ne_slash {c : Char} (hc : c ≠ '/') (rest : List Char) (before : Option Char) :
    pieceAt lexicon before (c :: rest) = unmarkedAt lexicon c rest :=
  pieceAt_of_unmarked ((unmarked_iff h).2 (by simp [cons_prefix_cons, hc.symm]))

theorem pieceAt_quote (hquote : quote ∈ lexicon.quotes) (hslash : quote ≠ '/')
    (hchar : lexicon.charLiterals = true → quote ≠ '\'') (rest : List Char) (before : Option Char) :
    pieceAt lexicon before (quote :: rest) = literalAt.ordinary quote rest := by
  have hplain : (lexicon.charLiterals && quote == '\'') = false := by
    rw [Bool.and_eq_false_imp]
    exact fun hchars => beq_eq_false_iff_ne.2 (hchar hchars)
  rw [pieceAt_of_ne_slash h hslash, unmarkedAt, hplain, if_neg (by decide), if_pos (contains_iff_mem.2 hquote),
    literalAt_eq_ordinary (by simp [h.single])]

theorem pieceAt_literal (hquote : quote ∈ lexicon.quotes) (hquotes : quote ∈ ['"', '\'', '`'])
    (hchar : lexicon.charLiterals = true → quote ≠ '\'') (hbody : LiteralBody quote body) (rest : List Char)
    (before : Option Char) :
    pieceAt lexicon before (quote :: (body ++ quote :: rest)) = ⟨.literal, 1, body.length, 1⟩ := by
  have hne : quote ≠ '\\' ∧ quote ≠ '/' := by
    constructor <;> rintro rfl <;> exact absurd hquotes (by decide)
  rw [pieceAt_quote h hquote hne.2 hchar, literalAt.ordinary, literalBody_of_closed hne.1 hbody, if_pos (by simp)]

theorem pieceAt_code {c : Char} (hquote : c ∉ lexicon.quotes) (hchar : lexicon.charLiterals = true → c ≠ '\'')
    (hmarks : ¬ ['/', '/'] <+: c :: rest ∧ ¬ ['/', '*'] <+: c :: rest) (before : Option Char) :
    pieceAt lexicon before (c :: rest) = .code := by
  rw [pieceAt_of_unmarked ((unmarked_iff h).2 hmarks), unmarkedAt]
  simp_all

/-! ## Masking segment by segment -/

variable (lexicon) in
/-- **A segment is masked on its own**, whatever stands before it, and then what follows it. -/
def Masks (keep : Bool) (s : Segment) (rest : List Char) (shown : Bytes) : Prop :=
  ∀ before, ∃ last, ofChars (masked lexicon keep before (s.chars ++ rest)) =
    shown ++ ofChars (masked lexicon keep last rest)

theorem masks_code {chars : List Char}
    (hplain : ∀ c ∈ chars, c ∉ lexicon.quotes ∧ (lexicon.charLiterals = true → c ≠ '\''))
    (hmarks : ∀ i < chars.length, ¬ ['/', '/'] <+: (chars ++ rest).drop i ∧ ¬ ['/', '*'] <+: (chars ++ rest).drop i)
    (keep : Bool) : Masks lexicon keep (.code chars) rest (ofChars chars) := by
  intro before
  induction chars generalizing before with
  | nil => exact ⟨before, rfl⟩
  | cons c chars ih =>
    obtain ⟨hc, hchars⟩ := forall_mem_cons.1 hplain
    have hpiece : pieceAt lexicon before (c :: (chars ++ rest)) = .code :=
      pieceAt_code h hc.1 hc.2 (hmarks 0 (by simp)) before
    obtain ⟨last, hlast⟩ := ih hchars (fun i hi => hmarks (i + 1) (by simpa using hi)) (some c)
    refine ⟨last, ?_⟩
    rw [Segment.chars, cons_append, masked_cons_of_code h.regular hpiece, ofChars_cons, ofChars_cons,
      append_assoc, ← hlast]
    rfl

theorem masked_comment {xs : List Char} (hne : xs ≠ [])
    (hpiece : pieceAt lexicon before (xs ++ rest) = .comment xs.length) (keep : Bool) :
    ofChars (masked lexicon keep before (xs ++ rest)) = (ofChars xs).map blankByte ++
      ofChars (masked lexicon keep xs.getLast? rest) := by
  rw [masked_append h.regular hne (by rw [hpiece, Piece.length_comment]), hpiece, Piece.render_comment,
    ofChars_append, ofChars_blanks]

theorem masks_lineComment (hbody : '\n' ∉ body) (hrest : rest = [] ∨ rest.head? = some '\n') (keep : Bool) :
    Masks lexicon keep (.lineComment body) rest ((Segment.lineComment body).hide keep) :=
  fun before => ⟨_, masked_comment h (cons_ne_nil _ _) (pieceAt_lineComment h hbody hrest before) keep⟩

theorem masks_blockComment (hbody : ¬ ['*', '/'] <:+: body) (keep : Bool) :
    Masks lexicon keep (.blockComment body) rest ((Segment.blockComment body).hide keep) := by
  refine fun before => ⟨_, masked_comment h (cons_ne_nil _ _) ?_ keep⟩
  simpa [Segment.chars] using pieceAt_blockComment h hbody rest before

theorem masks_literal
    (hpiece : ∀ before, pieceAt lexicon before (quote :: (body ++ quote :: rest)) = ⟨.literal, 1, body.length, 1⟩)
    (keep : Bool) :
    Masks lexicon keep (.literal quote body) rest ((Segment.literal quote body).hide keep) := by
  intro before
  have hpiece : pieceAt lexicon before (quote :: (body ++ [quote]) ++ rest) = ⟨.literal, 1, body.length, 1⟩ := by
    simpa using hpiece before
  have hrender : (⟨.literal, 1, body.length, 1⟩ : Piece).render keep (quote :: (body ++ [quote])) =
      [quote] ++ (if keep then body else body.flatMap blankChar) ++ [quote] := by
    cases keep <;> simp [Piece.render, Nat.add_comm 1]
  refine ⟨(quote :: (body ++ [quote])).getLast?, ?_⟩
  rw [Segment.chars, masked_append h.regular (cons_ne_nil _ _)
    (by rw [hpiece]; simp [Piece.length, Nat.add_comm]), hpiece, hrender, ofChars_append,
    ofChars_append, ofChars_append, Segment.hide]
  cases keep
  · simp [ofChars_blanks]
  · simp

end

/-- Each segment stands where it stands as `P` says, before the characters that follow it. -/
def Along (P : Segment → List Char → Prop) : List Segment → Prop
  | [] => True
  | s :: segments => P s (segments.flatMap Segment.chars) ∧ Along P segments

theorem Along.imp {P Q : Segment → List Char → Prop} (h : Along P segments) (himp : ∀ s rest, P s rest → Q s rest)
    : Along Q segments := by
  induction segments with
  | nil => trivial
  | cons s segments ih => exact ⟨himp _ _ h.1, ih h.2⟩

theorem Segmented.along (h : Segmented segments) : Along (fun s rest => s.Fits rest) segments := by
  induction segments with
  | nil => trivial
  | cons s segments ih => exact ⟨h.1, ih h.2⟩

/-- **A text is masked segment by segment**, if each segment is masked on its own where it stands. -/
theorem ofText_mask_textOf {keep : Bool} {shown : Segment → Bytes}
    (h : Along (fun s rest => Masks lexicon keep s rest (shown s)) segments) :
    ofText (mask lexicon keep (textOf segments)) = segments.flatMap shown := by
  rw [ofText_eq_ofChars, toList_mask, textOf, String.toList_ofList]
  -- the character before the next segment does not matter, so it is any
  generalize none = before
  induction segments generalizing before with
  | nil => rfl
  | cons s segments ih =>
    obtain ⟨last, hlast⟩ := h.1 before
    rw [flatMap_cons, flatMap_cons, hlast, ih h.2]

/-- **Masking hides exactly comments and bodies of literals.** The masked form of a text made of segments
is made of their masked forms, in which every byte of a comment or of a body gave way to a blank, but for
line feeds. -/
theorem mask_segments {segments : List Segment} (h : Segmented segments) (keep : Bool) :
    Bytes.ofText (mask .slashed keep (textOf segments)) = segments.flatMap (Segment.hide keep) := by
  refine ofText_mask_textOf (h.along.imp fun s rest hfits => ?_)
  cases s with
  | code chars =>
    exact masks_code slashed_hasSlashes (fun c hc => ⟨hfits.1 c hc, nofun⟩) hfits.2 keep
  | lineComment body => exact masks_lineComment slashed_hasSlashes hfits.1 hfits.2 keep
  | blockComment body => exact masks_blockComment slashed_hasSlashes hfits keep
  | literal quote body =>
    exact masks_literal slashed_hasSlashes
      (pieceAt_literal slashed_hasSlashes hfits.1 hfits.1 nofun hfits.2 _) keep

/-- Quotation marks in comments, marks of comments in literals, an escaped quotation mark, an escaped end
of line, and a literal over two lines. -/
theorem mask_segments_nested :
    let segments : List Segment :=
      [.code ['a', '='], .literal '"' ['\\', '"', '/', '/', '\\', '\n', 'é'], .lineComment ['\'', '/', '*'],
        .code ['\n'], .blockComment ['`', '*', '\n', '/', '/'], .literal '`' ['\n', '\''], .code ['/']]
    Segmented segments ∧
      textOf segments = "a=\"\\\"//\\\né\"//'/*\n/*`*\n//*/`\n'`/" ∧
      ∀ keep, Bytes.ofText (mask .slashed keep (textOf segments)) =
        segments.flatMap (Segment.hide keep) := by
  intro segments
  have hescapes : LiteralBody '"' ['\\', '"', '/', '/', '\\', '\n', 'é'] := by
    refine .escape _ (.plain ?_ ?_ ?_ (.plain ?_ ?_ ?_ (.escape _ (.plain ?_ ?_ ?_ .nil)))) <;> decide
  have hlines : LiteralBody '`' ['\n', '\''] := by
    refine .plain ?_ ?_ ?_ (.plain ?_ ?_ ?_ .nil) <;> decide
  have hsegmented : Segmented segments := by
    refine ⟨⟨by simp, by decide⟩, ⟨by decide, hescapes⟩, ⟨by decide, by decide⟩, ⟨by simp, by decide⟩, ?_,
      ⟨by decide, hlines⟩, ⟨by simp, by decide⟩, trivial⟩
    exact (by decide : ¬ ['*', '/'] <:+: ['`', '*', '\n', '/', '/'])
  exact ⟨hsegmented, by decide, mask_segments hsegmented⟩

end Deadwood
