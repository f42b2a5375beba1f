import Deadwood.Proofs.Lines
import Deadwood.Proofs.Segments

/-!
# Masking from left to right

A text in a language with braces and slashes is masked in one pass that remembers what it is within. So it can be
masked line by line, if it is known what each line starts within.

* **`masked_eq_masked_code`**: this is how a text is masked.
-/

namespace Deadwood

open Text List

/-- What a place of a text is within. -/
inductive Context where
  | code
  | slash
  | lineComment
  | comment
  | star
  | literal (quote : Char)
  /-- A literal, right after a backslash. -/
  | escape (quote : Char)
deriving DecidableEq

namespace Context

variable {keep : Bool} {c : Char} {cs rest : List Char}

def closes (quote c : Char) : Bool := (c == '\n' && quote != '`') || c == quote

def opened (c : Char) : Context :=
  if c = '/' then slash else if c ∈ ['"', '\'', '`'] then literal c else code

def next : Context → Char → Context
  | code, c => opened c
  | slash, c => if c = '/' then lineComment else if c = '*' then comment else opened c
  | lineComment, c => if c = '\n' then code else lineComment
  | comment, c => if c = '*' then star else comment
  | star, c => if c = '/' then code else if c = '*' then star else comment
  | literal quote, c => if c = '\\' then escape quote else if closes quote c then code else literal quote
  | escape quote, _ => literal quote

def after (context : Context) (cs : List Char) : Context := cs.foldl next context

/-- The character is hidden, given the one that follows it. -/
def hides (keep : Bool) : Context → Char → Option Char → Bool
  | code, c, following => c == '/' && (following == some '/' || following == some '*')
  | slash, c, _ => c == '/' || c == '*'
  | lineComment, _, _ => true
  | comment, _, _ => true
  | star, _, _ => true
  | literal quote, c, _ => !keep && (c == '\\' || !closes quote c)
  | escape _, _, _ => !keep

def masked (keep : Bool) : Context → List Char → List Char
  | _, [] => []
  | context, c :: cs =>
    (if context.hides keep c cs.head? then blankChar c else [c]) ++ (context.next c).masked keep cs

theorem after_append (context : Context) (xs ys : List Char) :
    context.after (xs ++ ys) = (context.after xs).after ys := foldl_append

/-- **Lines are masked one after the other.** -/
theorem masked_line_append (context : Context) (body ys : List Char) :
    context.masked keep (body ++ ['\n'] ++ ys) =
      context.masked keep (body ++ ['\n']) ++ (context.after (body ++ ['\n'])).masked keep ys := by
  induction body generalizing context with
  | nil =>
    show (if context.hides keep '\n' ys.head? then blankChar '\n' else ['\n']) ++ _ =
      (if context.hides keep '\n' none then blankChar '\n' else ['\n']) ++ [] ++ _
    rw [show context.hides keep '\n' ys.head? = context.hides keep '\n' none by cases context <;> rfl,
      append_nil]
    rfl
  | cons c body ih =>
    have hhead : (body ++ ['\n'] ++ ys).head? = (body ++ ['\n']).head? := by cases body <;> rfl
    rw [cons_append, cons_append, masked, ih, hhead]
    exact (append_assoc ..).symm

theorem masked_masked (context : Context) (cs : List Char) : Masked cs (context.masked keep cs) := by
  induction cs generalizing context with
  | nil => exact .nil
  | cons c cs ih =>
    rw [masked]
    split
    · exact .hide c (ih _)
    · exact .keep c (ih _)

/-! ## Contexts and pieces -/

theorem masked_slash (h : cs.head? ≠ some '/' ∧ cs.head? ≠ some '*') :
    slash.masked keep cs = code.masked keep cs := by
  cases cs with
  | nil => rfl
  | cons c cs =>
    simp only [head?_cons, ne_eq, Option.some.injEq] at h
    simp [masked, hides, next, h.1, h.2]

theorem masked_star (h : cs.head? ≠ some '/') : star.masked keep cs = comment.masked keep cs := by
  cases cs with
  | nil => rfl
  | cons c cs =>
    simp only [head?_cons, ne_eq, Option.some.injEq] at h
    simp [masked, hides, next, h]

theorem masked_lineComment (cs : List Char) : lineComment.masked keep cs =
    (cs.takeWhile (· != '\n')).flatMap blankChar ++ code.masked keep (cs.dropWhile (· != '\n')) := by
  induction cs with
  | nil => rfl
  | cons c cs ih =>
    by_cases hc : c = '\n'
    · subst hc
      simp [masked, hides, next, opened, blankChar_feed]
    · simp [masked, hides, next, hc, ih]

theorem masked_comment_cons (h : Text.afterHead? ['*', '/'] (c :: cs) = none) :
    comment.masked keep (c :: cs) = blankChar c ++ comment.masked keep cs := by
  by_cases hc : c = '*'
  · subst hc
    have hhead : cs.head? ≠ some '/' := by
      intro hhead
      obtain ⟨tail, rfl⟩ := head?_eq_some_iff.1 hhead
      simp [Text.afterHead?] at h
    simp [masked, hides, next, masked_star hhead]
  · simp [masked, hides, next, hc]

theorem masked_comment_closed {before : List Char} (h : Text.breakAt? ['*', '/'] cs = some (before, rest)) :
    comment.masked keep cs = (before ++ ['*', '/']).flatMap blankChar ++ code.masked keep rest := by
  induction cs generalizing before with
  | nil => simp [Text.breakAt?] at h
  | cons c cs ih =>
    rw [Text.breakAt?] at h
    split at h
    · rename_i after hafter
      cases h
      rw [afterHead?_eq_some_iff.1 hafter]
      simp [masked, hides, next]
    · rename_i hafter
      obtain ⟨⟨b, a⟩, hbreak, hpair⟩ := Option.map_eq_some_iff.1 h
      cases hpair
      rw [masked_comment_cons hafter, ih hbreak]
      simp

theorem masked_comment_open (h : Text.breakAt? ['*', '/'] cs = none) :
    comment.masked keep cs = cs.flatMap blankChar := by
  induction cs with
  | nil => rfl
  | cons c cs ih =>
    rw [Text.breakAt?] at h
    split at h
    · cases h
    · rename_i hafter
      rw [masked_comment_cons hafter, ih (Option.map_eq_none_iff.1 h), flatMap_cons]

theorem ne_backslash (hescape : ∀ d ds, c = '\\' → cs = d :: ds → False)
    (hlone : c = '\\' → cs = [] → False) : c ≠ '\\' := by
  intro hc
  cases cs with
  | nil => exact hlone hc rfl
  | cons d cs => exact hescape d cs hc rfl

theorem masked_literal (quote : Char) (cs : List Char) : (literal quote).masked keep cs =
    (if keep then cs.take (literalBody quote cs) else (cs.take (literalBody quote cs)).flatMap blankChar) ++
      ((cs.drop (literalBody quote cs)).take 1 ++ code.masked keep (cs.drop (literalBody quote cs + 1))) := by
  fun_induction literalBody quote cs with
  | case1 => cases keep <;> rfl
  | case2 c cs ih => cases keep <;> simp_all [masked, hides, next]
  | case3 => cases keep <;> simp [masked, hides]
  | case4 c cs hescape hlone hstop =>
    have hc := ne_backslash hescape hlone
    have hcloses : closes quote c = true := hstop
    cases keep <;> simp [masked, hides, next, hc, hcloses]
  | case5 c cs hescape hlone hstop ih =>
    have hc := ne_backslash hescape hlone
    have hcloses : closes quote c = false := by simpa [closes] using hstop
    cases keep <;> simp_all [masked, hides, next]

/-! ## One piece -/

/-- The piece at the start of some characters is masked on its own, and what follows it starts in code. -/
def MasksPiece (keep : Bool) (cs : List Char) (piece : Piece) : Prop :=
  code.masked keep cs = piece.render keep cs ++ code.masked keep (cs.drop piece.length)

theorem masksPiece_comment {xs ys : List Char} (h : code.masked keep (xs ++ ys) =
    xs.flatMap blankChar ++ code.masked keep ys) : MasksPiece keep (xs ++ ys) (.comment xs.length) := by
  rw [MasksPiece, Piece.render_append (Piece.length_comment _), Piece.render_comment, Piece.length_comment,
    drop_left, h]

theorem masksPiece_block (rest : List Char) (before : Option Char) :
    MasksPiece keep ('/' :: '*' :: rest) (pieceAt .slashed before ('/' :: '*' :: rest)) := by
  have hstart (cs : List Char) : code.masked keep ('/' :: '*' :: cs) =
      blankChar '/' ++ (blankChar '*' ++ comment.masked keep cs) := rfl
  rw [pieceAt_block slashed_hasSlashes]
  cases hbreak : Text.breakAt? ['*', '/'] rest with
  | none =>
    have hlength : lengthTo "*/" rest = (rest.length, false) := by simp [lengthTo, hbreak]
    have hmasks : MasksPiece keep ('/' :: '*' :: rest ++ []) (.comment ('/' :: '*' :: rest).length) := by
      apply masksPiece_comment
      rw [append_nil, hstart, masked_comment_open hbreak]
      simp [masked]
    simpa [hlength] using hmasks
  | some parts =>
    obtain ⟨body, after⟩ := parts
    have hlength : lengthTo "*/" rest = (body.length, true) := by simp [lengthTo, hbreak]
    have hmasks : MasksPiece keep ('/' :: '*' :: (body ++ ['*', '/']) ++ after)
        (.comment ('/' :: '*' :: (body ++ ['*', '/'])).length) := by
      apply masksPiece_comment
      rw [cons_append, cons_append, append_assoc, ← eq_append_of_breakAt? hbreak, hstart, masked_comment_closed hbreak]
      simp
    have hcs : '/' :: '*' :: (body ++ ['*', '/']) ++ after = '/' :: '*' :: rest := by
      simp [eq_append_of_breakAt? hbreak]
    rw [hcs] at hmasks
    simpa [hlength] using hmasks

theorem masksPiece_line (rest : List Char) (before : Option Char) :
    MasksPiece keep ('/' :: '/' :: rest) (pieceAt .slashed before ('/' :: '/' :: rest)) := by
  obtain ⟨body, hbody⟩ : ∃ body, body = rest.takeWhile (· != '\n') := ⟨_, rfl⟩
  obtain ⟨line, hline⟩ : ∃ line, line = rest.dropWhile (· != '\n') := ⟨_, rfl⟩
  have hrest : rest = body ++ line := by rw [hbody, hline, takeWhile_append_dropWhile]
  have hfeed : '\n' ∉ body := by
    rw [hbody]
    intro hmem
    simpa using all_eq_true.1 all_takeWhile '\n' hmem
  have hstop : line = [] ∨ line.head? = some '\n' := by
    have hhead := head?_dropWhile_not (· != '\n') rest
    rw [← hline] at hhead
    cases line with
    | nil => exact .inl rfl
    | cons c line => exact .inr (by simpa using hhead)
  have hmasks : MasksPiece keep ('/' :: '/' :: body ++ line) (.comment ('/' :: '/' :: body).length) := by
    apply masksPiece_comment
    rw [cons_append, cons_append, ← hrest]
    show blankChar '/' ++ (blankChar '/' ++ lineComment.masked keep rest) = _
    rw [masked_lineComment, ← hbody, ← hline]
    simp
  rw [hrest, pieceAt_lineComment slashed_hasSlashes hfeed hstop]
  exact hmasks

theorem masksPiece_quote {quote : Char} (hquote : quote ∈ ['"', '\'', '`']) (rest : List Char) (before : Option Char) :
    MasksPiece keep (quote :: rest) (pieceAt .slashed before (quote :: rest)) := by
  have hslash : quote ≠ '/' := by
    rintro rfl
    exact absurd hquote (by decide)
  have hstart : code.masked keep (quote :: rest) = quote :: (literal quote).masked keep rest := by
    simp [masked, hides, next, opened, hslash, hquote]
  rw [MasksPiece, pieceAt_quote slashed_hasSlashes hquote hslash nofun, hstart, masked_literal]
  by_cases hclosed : literalBody quote rest < rest.length
  · cases keep <;> simp [literalAt.ordinary, Piece.render, Piece.length, hclosed, Nat.add_comm 1]
  · have hall : literalBody quote rest = rest.length := by
      have := literalBody_le quote rest
      omega
    have hend : rest.drop (rest.length + 1) = [] := drop_of_length_le (by omega)
    cases keep <;> simp [literalAt.ordinary, Piece.render, Piece.length, hall, hend, Nat.add_comm 1]

theorem masksPiece_code (hquote : c ∉ ['"', '\'', '`'])
    (hmarks : ¬ ['/', '/'] <+: c :: rest ∧ ¬ ['/', '*'] <+: c :: rest) (before : Option Char) :
    MasksPiece keep (c :: rest) (pieceAt .slashed before (c :: rest)) := by
  rw [MasksPiece, pieceAt_code slashed_hasSlashes hquote nofun hmarks]
  show code.masked keep (c :: rest) = c :: code.masked keep rest
  by_cases hslash : c = '/'
  · subst hslash
    have hhead : rest.head? ≠ some '/' ∧ rest.head? ≠ some '*' := by
      cases rest <;> simp_all [cons_prefix_cons, eq_comm]
    show (if code.hides keep '/' rest.head? then blankChar '/' else ['/']) ++ slash.masked keep rest = _
    rw [masked_slash hhead]
    simp [hides, hhead]
  · simp [masked, hides, next, opened, hslash, hquote]

theorem masksPiece_pieceAt (hne : cs ≠ []) (before : Option Char) :
    MasksPiece keep cs (pieceAt .slashed before cs) := by
  by_cases hblock : ['/', '*'] <+: cs
  · obtain ⟨rest, rfl⟩ := hblock
    exact masksPiece_block rest before
  by_cases hline : ['/', '/'] <+: cs
  · obtain ⟨rest, rfl⟩ := hline
    exact masksPiece_line rest before
  obtain ⟨c, rest, rfl⟩ := exists_cons_of_ne_nil hne
  by_cases hquote : c ∈ ['"', '\'', '`']
  · exact masksPiece_quote hquote rest before
  · exact masksPiece_code hquote ⟨hline, hblock⟩ before

end Context

/-- **Masking goes from left to right**, and of what it has seen only what it is within counts. -/
theorem masked_eq_masked_code (keep : Bool) (before : Option Char) (cs : List Char) :
    masked .slashed keep before cs = Context.code.masked keep cs := by
  induction before, cs using pieces_induction slashed_regular with
  | nil before => rfl
  | piece before xs ys hne hlen ih =>
    have hpiece : Context.MasksPiece keep (xs ++ ys) (pieceAt .slashed before (xs ++ ys)) :=
      Context.masksPiece_pieceAt (append_ne_nil_of_left_ne_nil hne ys) before
    rw [Context.MasksPiece, Piece.render_append hlen, hlen, drop_left] at hpiece
    rw [masked_append slashed_regular hne hlen, ih, hpiece]

/-! ## Lines -/

namespace Context

variable {keep : Bool} {lines : List (List Char)}

def maskedLines (keep : Bool) : Context → List (List Char) → List (List Char)
  | _, [] => []
  | context, line :: lines => context.masked keep line :: maskedLines keep (context.after line) lines

theorem isLines_maskedLines (h : IsLines lines) (context : Context) :
    IsLines (context.maskedLines keep lines) := by
  induction h generalizing context with
  | nil => exact .nil
  | @last line hne hfeed =>
    have hmasked : Masked line (context.masked keep line) := context.masked_masked line
    exact .last (hmasked.ne_nil hne) (hmasked.feed_not_mem hfeed)
  | @cons body lines hfeed _ ih =>
    obtain ⟨body', hbody', hfeed'⟩ := (context.masked_masked (body ++ ['\n'])).exists_line hfeed
    rw [maskedLines, hbody']
    exact .cons hfeed' (ih _)

theorem flatten_maskedLines (h : IsLines lines) (context : Context) :
    (context.maskedLines keep lines).flatten = context.masked keep lines.flatten := by
  induction h generalizing context with
  | nil => rfl
  | last => simp [maskedLines]
  | @cons body lines _ _ ih =>
    rw [maskedLines, flatten_cons, ih, flatten_cons]
    exact (masked_line_append context body lines.flatten).symm

end Context

/-- **The lines of a masked text are its lines, each masked in its context.** -/
theorem splitAfterFeeds_masked (keep : Bool) (before : Option Char) (cs : List Char) :
    Text.splitAfterFeeds (masked .slashed keep before cs) =
      Context.code.maskedLines keep (Text.splitAfterFeeds cs) := by
  have hlines := isLines_splitAfterFeeds cs
  rw [masked_eq_masked_code, ← splitAfterFeeds_flatten (Context.isLines_maskedLines hlines _),
    Context.flatten_maskedLines hlines, flatten_splitAfterFeeds]

end Deadwood
