import Deadwood.Proofs.Contexts
import Deadwood.Proofs.Reading
import Mathlib.Data.Bool.AllAny

/-!
# Files that are left out of builds

A comment `//go:build ignore` says that builds leave a file out. It is looked for after comments have been hidden, so
it is found only where it is none: in a literal.

* **`build_ignored_iff`**: the files that count as left out; `build_comment_ignored`: a mark that does not count.
-/

namespace Deadwood

open List Summary

/-! ## Properties -/

namespace Summary

variable {key other value : String}

theorem extra?_setExtra (s : Summary) (key value : String) : (s.setExtra key value).extra? key = some value := by
  unfold setExtra extra?
  dsimp only
  induction s.extras with
  | nil => simp [putExtra]
  | cons entry rest ih =>
    obtain ⟨k, v⟩ := entry
    rw [putExtra]
    split
    · simp
    · split
      · simp
      · rename_i hne
        rw [lookup_cons, beq_eq_false_iff_ne.2 hne]
        exact ih

theorem extra?_setExtra_of_ne (s : Summary) (h : other ≠ key) :
    (s.setExtra key value).extra? other = s.extra? other := by
  have hne : (other == key) = false := beq_eq_false_iff_ne.2 h
  unfold setExtra extra?
  dsimp only
  induction s.extras with
  | nil => simp [putExtra, lookup_cons, hne]
  | cons entry rest ih =>
    obtain ⟨k, v⟩ := entry
    rw [putExtra]
    split
    · rw [lookup_cons, hne]
    · split
      · rename_i heq
        subst heq
        rw [lookup_cons, lookup_cons, hne]
      · rw [lookup_cons, lookup_cons, ih]

theorem extras_recordAll (s : Summary) (findings : List Finding) : (s.recordAll findings).extras = s.extras := by
  induction findings generalizing s with
  | nil => rfl
  | cons f findings ih =>
    refine (ih _).trans ?_
    cases f <;> simp only [record, addFunction, addType, addExport, addImport] <;> (repeat' split) <;> rfl

end Summary

namespace Go

open Text

variable {line : List Char}

/-! ## Marked lines -/

def buildMark : List Char := "//go:build ignore".toList

/-- The mark stands at the start of the line, but for white space. -/
def IsMarked (line : List Char) : Prop := buildMark <+: line.dropWhile isBlank

/-- A line starts within a literal, and it starts with the mark. -/
def MarksLiteral (text : String) : Prop :=
  ∃ before line after, splitAfterFeeds text.toList = before ++ line :: after ∧
    (∃ quote, Context.code.after before.flatten = .literal quote) ∧ IsMarked line

theorem isMarked_dropLineEnd (line : List Char) : IsMarked (dropLineEnd line) ↔ IsMarked line := by
  obtain ⟨ending, hline, hending⟩ : ∃ ending, line = dropLineEnd line ++ ending ∧
      ∀ c ∈ ending, isBlank c = true ∧ c ∉ buildMark := by
    rw [dropLineEnd]
    split <;> rename_i h
    · exact ⟨['\r', '\n'], by simpa using congrArg List.reverse h, all_iff_forall_prop.1 (by decide)⟩
    · exact ⟨['\n'], by simpa using congrArg List.reverse h, all_iff_forall_prop.1 (by decide)⟩
    · exact ⟨[], (append_nil _).symm, by simp⟩
  generalize dropLineEnd line = inner at hline
  subst hline
  rw [IsMarked, IsMarked, dropWhile_append]
  split
  · rename_i hnil
    rw [List.isEmpty_iff.1 hnil, dropWhile_eq_nil_iff.2 fun c hc => (hending c hc).1]
  · refine ⟨fun h => h.trans (prefix_append _ _), fun h => ?_⟩
    rcases prefix_or_prefix_of_prefix h (prefix_append _ _) with hmark | ⟨_ | ⟨c, extra⟩, hextra⟩
    · exact hmark
    · exact ((append_nil _).symm.trans hextra) ▸ prefix_rfl
    · rw [← hextra, prefix_append_right_inj] at h
      exact absurd (hextra ▸ by simp) (hending c (h.subset mem_cons_self)).2

end Go

/-! ## Contexts of lines -/

namespace Context

variable {context : Context} {quote : Char} {xs cs body rest : List Char}

/-- What a line can start within: literals are opened by quotation marks, and a line feed is no backslash. -/
structure StartsLine (context : Context) : Prop where
  quoted : ∀ quote, context = .literal quote ∨ context = .escape quote → quote ∈ ['"', '\'', '`']
  plain : ∀ quote, context ≠ .escape quote

theorem quoted_after (h : ∀ quote, context = .literal quote ∨ context = .escape quote → quote ∈ ['"', '\'', '`'])
    (cs : List Char) (quote : Char) (hafter : context.after cs = .literal quote ∨ context.after cs = .escape quote) :
    quote ∈ ['"', '\'', '`'] := by
  induction cs generalizing context with
  | nil => exact h quote hafter
  | cons c cs ih =>
    refine ih (fun quote hnext => ?_) hafter
    cases context <;> grind [next, opened]

theorem StartsLine.line (h : StartsLine context) (body : List Char) : StartsLine (context.after (body ++ ['\n'])) := by
  refine ⟨quoted_after h.quoted _, fun quote => ?_⟩
  rw [after_append]
  generalize context.after body = last
  cases last <;> simp [after, next, opened, apply_ite (· = escape quote)]

theorem prefix_masked_literal (h : ∀ c ∈ xs, c ≠ '\\' ∧ closes quote c = false) :
    xs <+: (literal quote).masked true cs ↔ xs <+: cs := by
  induction xs generalizing cs with
  | nil => simp
  | cons x xs ih =>
    obtain ⟨hx, hxs⟩ := forall_mem_cons.1 h
    cases cs with
    | nil => simp [masked]
    | cons c cs =>
      rw [masked]
      simp only [hides, Bool.not_true, Bool.false_and, Bool.false_eq_true, if_false, singleton_append, cons_prefix_cons]
      refine and_congr_right ?_
      rintro rfl
      rw [next, if_neg hx.1, hx.2, if_neg (by decide)]
      exact ih hxs

theorem blank_of_mem_blankChar {c d : Char} (h : d ∈ blankChar c) : Text.isBlank d = true := by
  rw [blankChar] at h
  split at h
  · rename_i hfeed
    rw [mem_singleton.1 h, beq_iff_eq.1 hfeed]
    decide
  · rw [eq_of_mem_replicate h]
    decide

theorem not_blank_of_quote (h : quote ∈ ['"', '\'', '`']) : Text.isBlank quote = false := by
  simp only [mem_cons, not_mem_nil, or_false] at h
  rcases h with rfl | rfl | rfl <;> decide

/-- Outside of literals no line starts with two slashes, since comments are hidden. -/
theorem not_slashes_masked (h : ∀ quote, context ≠ .literal quote ∧ context ≠ .escape quote) (cs : List Char) :
    ¬ ['/', '/'] <+: (context.masked true cs).dropWhile Text.isBlank := by
  induction cs generalizing context with
  | nil => simp [masked]
  | cons c cs ih =>
    rw [masked]
    split
    · rename_i hhides
      rw [dropWhile_append_of_pos fun d hd => blank_of_mem_blankChar hd]
      refine ih fun quote => ?_
      cases context <;> grind [hides, next, opened]
    · rename_i hshows
      rw [singleton_append, dropWhile_cons]
      split
      · rename_i hblank
        refine ih fun quote => ?_
        have hquote : c ∉ ['"', '\'', '`'] := mt not_blank_of_quote (by simp [hblank])
        cases context <;> grind [hides, next, opened]
      · intro hslashes
        obtain ⟨rfl, hsecond⟩ := cons_prefix_cons.1 hslashes
        -- the first slash is seen, so no second one follows it
        have hcode : context = .code := by cases context <;> grind [hides]
        subst hcode
        cases cs with
        | nil => simp [masked] at hsecond
        | cons d cs =>
          have hd : d ≠ '/' ∧ d ≠ '*' := by simpa [hides] using hshows
          simp [masked, hides, next, opened, hd.1, hd.2, cons_prefix_cons, Ne.symm hd.1] at hsecond

open Go in
theorem isMarked_masked_literal (hquote : quote ∈ ['"', '\'', '`']) (hfeed : '\n' ∉ body)
    (hrest : rest = [] ∨ rest = ['\n']) :
    IsMarked ((literal quote).masked true (body ++ rest)) ↔ IsMarked (body ++ rest) := by
  induction body with
  | nil => rcases hrest with rfl | rfl <;> simp [masked, hides]
  | cons c body ih =>
    obtain ⟨hc, hbody⟩ : '\n' ≠ c ∧ '\n' ∉ body := by simpa using hfeed
    have hplain : ∀ d ∈ buildMark, d ≠ '\\' ∧ closes quote d = false := by
      simp only [mem_cons, not_mem_nil, or_false] at hquote
      rcases hquote with rfl | rfl | rfl <;> exact all_iff_forall_prop.1 (by decide)
    have hkeep : (literal quote).masked true (c :: (body ++ rest)) =
        c :: ((literal quote).next c).masked true (body ++ rest) := by
      simp [masked, hides]
    by_cases hblank : Text.isBlank c = true
    · have hnext : (literal quote).next c = literal quote := by
        have hne : c ≠ '\\' ∧ c ≠ quote := by
          constructor <;> rintro rfl
          · exact absurd hblank (by decide)
          · exact absurd hblank (by simp [not_blank_of_quote hquote])
        simp [next, closes, hne, hc.symm]
      rw [cons_append, hkeep, hnext, IsMarked, IsMarked, dropWhile_cons_of_pos hblank, dropWhile_cons_of_pos hblank]
      exact ih hbody
    · rw [cons_append, IsMarked, IsMarked, dropWhile_cons_of_neg hblank, hkeep, dropWhile_cons_of_neg hblank, ← hkeep]
      exact prefix_masked_literal hplain

open Go in
/-- **Which lines are still marked** when comments are hidden: those that start within a literal. -/
theorem StartsLine.isMarked_masked_iff (h : StartsLine context) (hfeed : '\n' ∉ body)
    (hrest : rest = [] ∨ rest = ['\n']) : IsMarked (context.masked true (body ++ rest)) ↔
      (∃ quote, context = .literal quote) ∧ IsMarked (body ++ rest) := by
  by_cases hliteral : ∃ quote, context = .literal quote
  · obtain ⟨quote, rfl⟩ := hliteral
    rw [isMarked_masked_literal (h.quoted quote (.inl rfl)) hfeed hrest]
    exact (and_iff_right ⟨quote, rfl⟩).symm
  · refine iff_of_false (fun hmarked => ?_) fun hmarked => hliteral hmarked.1
    have hslashes : ['/', '/'] <+: buildMark := ⟨_, rfl⟩
    exact not_slashes_masked (fun quote => ⟨fun hq => hliteral ⟨quote, hq⟩, h.plain quote⟩) _ (hslashes.trans hmarked)

open Go in
theorem StartsLine.exists_isMarked {lines : List (List Char)} (hlines : Text.IsLines lines) (h : StartsLine context) :
    (∃ line ∈ context.maskedLines true lines, IsMarked line) ↔ ∃ before line after, lines = before ++ line :: after ∧
      (∃ quote, context.after before.flatten = .literal quote) ∧ IsMarked line := by
  induction hlines generalizing context with
  | nil => simp [maskedLines]
  | @last line hne hfeed =>
    have hline := h.isMarked_masked_iff hfeed (.inl rfl)
    rw [append_nil] at hline
    simp only [maskedLines, mem_singleton, exists_eq_left, hline]
    constructor
    · intro hmarked
      exact ⟨[], line, [], rfl, hmarked⟩
    · rintro ⟨before, line', after, hcons, hmarked⟩
      obtain ⟨rfl, hcons⟩ | ⟨_, -, hcons⟩ := cons_eq_append_iff.1 hcons
      · cases hcons
        exact hmarked
      · simp at hcons
  | @cons body lines hfeed _ ih =>
    simp only [maskedLines, mem_cons, exists_eq_or_imp, h.isMarked_masked_iff hfeed (.inr rfl), ih (h.line body)]
    constructor
    · rintro (hmarked | ⟨before, line, after, rfl, ⟨quote, hquote⟩, hmarked⟩)
      · exact ⟨[], _, lines, rfl, hmarked⟩
      · refine ⟨(body ++ ['\n']) :: before, line, after, rfl, ⟨quote, ?_⟩, hmarked⟩
        rw [flatten_cons, after_append, hquote]
    · rintro ⟨before, line, after, hcons, ⟨quote, hquote⟩, hmarked⟩
      obtain ⟨rfl, hcons⟩ | ⟨before', rfl, rfl⟩ := cons_eq_append_iff.1 hcons
      · cases hcons
        exact .inl ⟨⟨quote, hquote⟩, hmarked⟩
      · rw [flatten_cons, after_append] at hquote
        exact .inr ⟨before', line, after, rfl, ⟨quote, hquote⟩, hmarked⟩

end Context

/-! ## The flag -/

theorem Go.isBuildIgnored_iff (text : String) :
    isBuildIgnored (mask .slashed true text) = true ↔ MarksLiteral text := by
  have hstart : Context.code.StartsLine := ⟨fun _ h => by simp at h, fun _ => nofun⟩
  have htrim (cs : List Char) : (Text.trimStart (.ofList cs)).toList = cs.dropWhile Text.isBlank := by
    rw [Text.trimStart, Text.trimStartWhere, String.toList_ofList, String.toList_ofList]
  have hline (line : List Char) : Text.startsWith (Text.trimStart (.ofList (Text.dropLineEnd line)))
      "//go:build ignore" = true ↔ IsMarked line := by
    rw [← isMarked_dropLineEnd, Text.startsWith, isPrefixOf_iff_prefix, htrim]
    exact Iff.rfl
  rw [MarksLiteral, ← hstart.exists_isMarked (Text.isLines_splitAfterFeeds _), ← splitAfterFeeds_masked true none,
    isBuildIgnored, Text.lines, toList_mask, any_map, any_eq_true]
  simp only [Function.comp_apply, hline]

theorem Go.yields_read_flag (place : Place) (text : String) : Yields True (read place text)
    fun s => s.flag "go.build_ignore" = isBuildIgnored (MaskedSource.ofText .slashed text).literate := by
  have hpass {β : Type} {x : Except Fault β} : Yields True x fun _ => True := .of_excuse trivial x
  unfold read
  refine hpass.bind fun _ _ => hpass.bind fun _ _ => hpass.bind fun _ _ => hpass.bind fun _ _ => yields_pure.2 ?_
  have hproperties (package : Option String) (ignored : Bool) (found : List Finding) :
      ((withProperties package ignored (recordAll {} found)).extras.lookup "go.build_ignore" == some "true") =
        ignored := by
    have hfound : (recordAll {} found).extra? "go.build_ignore" = none := by
      rw [extra?, extras_recordAll]
      rfl
    have hpackage (name : String) :
        ((recordAll {} found).setExtra "go.package" name).extra? "go.build_ignore" = none := by
      rw [extra?_setExtra_of_ne _ (by decide), hfound]
    show (extra? _ _ == _) = _
    cases package <;> cases ignored <;>
      simp [withProperties, setFlag, extra?_setExtra, hfound, hpackage]
  dsimp only [flag, extra?]
  exact hproperties _ _ _

/-- **The files that count as left out of builds** are those in which a line that starts within a literal starts with
the mark. A comment never counts. -/
theorem build_ignored_iff [TreeReader] {path : Path} (hpath : Language.ofPath? path = some .go) (text : String) :
    (SourceUnit.ofText path text).summary.flag "go.build_ignore" = true ↔ Go.MarksLiteral text := by
  rw [← Go.isBuildIgnored_iff]
  rcases SourceUnit.ofText_cases (SourceUnit.language_ofText hpath text) with h | ⟨s, hs, -, hsummary⟩ | ⟨fault, h, -⟩
  · exact absurd h.1 (by decide)
  · have hflag := (Go.yields_read_flag _ text).of_ok s hs
    have hshebang : (s.setFlag "shebang").flag "go.build_ignore" = s.flag "go.build_ignore" := by
      rw [Summary.flag, Summary.flag, Summary.setFlag, Summary.extra?_setExtra_of_ne _ (by decide)]
    rcases hsummary with hsummary | hsummary <;> rw [hsummary]
    · rw [hflag]
      rfl
    · rw [hshebang, hflag]
      rfl
  · exact ((Go.yields_read _ _).of_error fault h : False).elim

/-- A mark in a literal over lines. -/
theorem build_ignored_iff_literal : Language.ofPath? ⟨"a.go"⟩ = some .go ∧
    (SourceUnit.ofText ⟨"a.go"⟩ "var x = `\n\t//go:build ignore\n`\n").summary.flag "go.build_ignore" = true := by
  have hpath : Language.ofPath? ⟨"a.go"⟩ = some .go := by decide +kernel
  refine ⟨hpath, (build_ignored_iff hpath _).2 ⟨["var x = `\n".toList], _, _, rfl, ⟨'`', by decide⟩, ?_⟩⟩
  exact ⟨['\n'], by decide⟩

/-- A file that says in a comment that builds leave it out, and does not count as such. -/
theorem build_comment_ignored : Go.IsMarked "//go:build ignore\n".toList ∧ Context.code.after [] = .code ∧
    (SourceUnit.ofText ⟨"a.go"⟩ "//go:build ignore\npackage a\n").summary.flag "go.build_ignore" = false :=
  ⟨⟨['\n'], by decide⟩, rfl, by decide +kernel⟩

end Deadwood
