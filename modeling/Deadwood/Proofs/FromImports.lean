import Deadwood.Proofs.FirstHits
import Deadwood.Proofs.Reading

/-!
# Imports of names from modules

A module is named between the words `from` and `import`, and what is imported from it behind them, on one line, which
may be continued, or in brackets.

* **`from_import_names`**: what is recorded of an import; `from_import_semicolon`: a semicolon is taken for a part of
  the name before it.
-/

namespace Deadwood

open List Lexicon CharClass

/-! ## What is recorded -/

/-- The import that is recorded. -/
def Finding.import? : Finding → Option Import
  | imported i => if (Text.trim i.target).isEmpty then none else some i
  | _ => none

theorem Summary.imports_recordAll (s : Summary) (findings : List Finding) :
    (s.recordAll findings).imports = s.imports ++ findings.filterMap (·.import?) := by
  induction findings generalizing s with
  | nil => exact (append_nil _).symm
  | cons f findings ih =>
    have hstep : (s.record f).imports = s.imports ++ f.import?.toList := by
      have hexport (name : String) (line : Nat) : (s.addExport name line).imports = s.imports := by
        unfold addExport
        split <;> rfl
      cases f with
      | function e | type e =>
        simp only [record, addFunction, addType, Finding.import?, Option.toList_none, append_nil]
        split
        · exact hexport _ _
        · rfl
      | exported name line => exact (hexport name line).trans (append_nil _).symm
      | imported i =>
        rw [record, addImport, Finding.import?]
        split <;> simp
    rw [recordAll, foldl_cons]
    refine (ih _).trans ?_
    rw [hstep]
    cases hf : f.import? <;> simp [hf]

/-- Everything is asked for, if this is an import. -/
def Finding.AsksAll (f : Finding) : Prop := ∀ i ∈ f.import?, i.names = .everything

namespace Python

open Text Pattern

/-! ## How imports are written -/

/-- A character of a name. -/
def isNameChar (c : Char) : Bool := isWord c && !isBlank c

structure Identifier where
  text : String
  nonempty : text ≠ "" := by decide
  plain : text.toList.all isNameChar = true := by decide

/-- A line, which is continued behind a backslash at its end. -/
inductive IsLine : List Char → Prop
  | nil : IsLine []
  | char {c : Char} {cs : List Char} (hc : c ≠ '\n' ∧ c ≠ '\\') (h : IsLine cs) : IsLine (c :: cs)
  | continued {cs : List Char} (h : IsLine cs) : IsLine ('\\' :: '\n' :: cs)

/-- What stands behind the word `import` and the white space after it. -/
inductive Clause where
  | line (c : Char) (cs : List Char) (hc : c ≠ '(' ∧ c ≠ ' ' ∧ c ≠ '\t') (h : IsLine (c :: cs))
  | brackets (cs : List Char) (h : ')' ∉ cs)

namespace Clause

def inner : Clause → List Char
  | line c cs _ _ => c :: cs
  | brackets cs _ => cs

def chars : Clause → List Char
  | line c cs _ _ => c :: cs
  | brackets cs _ => '(' :: (cs ++ [')'])

end Clause

/-- A piece of an import: code, or a comment and the line feed behind it. -/
inductive Fragment where
  | code (text : String) (h : text.toList.all (fun c => c != '#' && c != '"' && c != '\'') = true := by decide)
  | comment (text : String) (h : '\n' ∉ text.toList := by decide)

namespace Fragment

def chars : Fragment → List Char
  | code text _ => text.toList
  | comment text _ => '#' :: text.toList ++ ['\n']

/-- The characters with comments hidden. -/
def shown : Fragment → List Char
  | code text _ => text.toList
  | comment text _ => ('#' :: text.toList).flatMap blankChar ++ ['\n']

end Fragment

/-- What is left of a text when comments are hidden in it, and what follows a semicolon is masked. -/
def shown (fragments : List Fragment) (further : Option String) : List Char :=
  fragments.flatMap (·.shown) ++ further.elim [] fun text => ';' :: masked python false (some ';') text.toList

/-- An import from a module, perhaps with a semicolon and a further statement behind it. -/
structure FromImport where
  fragments : List Fragment
  further : Option String
  module : String
  gaps : List Char
  clause : Clause
  /-- A line feed is the last character. -/
  feed : Bool
  shown_eq : shown fragments further = "from ".toList ++ module.toList ++ " import ".toList ++ gaps ++ clause.chars ++
    if feed then ['\n'] else []
  nonempty : module ≠ "" := by decide
  dotted : module.toList.all (fun c => c == '.' || isNameChar c) = true := by decide
  blank : gaps.all (fun c => c == ' ' || c == '\t') = true := by decide

def FromImport.text (i : FromImport) : String :=
  .ofList (i.fragments.flatMap (·.chars) ++ i.further.elim [] fun text => ';' :: text.toList)

/-- White space before a name, with at most one backslash in it. -/
def isLead (lead : List Char) : Bool := lead.all (fun c => isBlank c || c == '\\') && lead.count '\\' ≤ 1

/-- What stands between two commas: a name, before it white space, and behind it nothing or white space first, such as
that before another name for it. -/
def IsPart (name : Identifier) (cs : List Char) : Prop := ',' ∉ cs ∧ ∃ lead trail,
  cs = lead ++ (name.text.toList ++ trail) ∧ isLead lead = true ∧ ∀ c ∈ trail.head?, isBlank c = true

/-- The characters list the names, with commas between them and perhaps behind the last. -/
inductive Lists : List String → List Char → Prop
  | blank {cs : List Char} (h : ∀ c ∈ cs, isBlank c = true) : Lists [] cs
  | last {name : Identifier} {cs : List Char} (h : IsPart name cs) : Lists [name.text] cs
  | cons {name : Identifier} {cs ds : List Char} {names : List String} (h : IsPart name cs) (h' : Lists names ds) :
      Lists (name.text :: names) (cs ++ ',' :: ds)

/-! ## Masked imports -/

section Masked

variable {c : Char} {before : Option Char} {keep : Bool}

theorem regular : python.Regular := regular_of_known (by decide)

theorem pieceAt_code (h : (c != '#' && c != '"' && c != '\'') = true) (before : Option Char) (cs : List Char) :
    pieceAt python before (c :: cs) = .code := by
  simp only [Bool.and_eq_true, bne_iff_ne] at h
  have hmark : ¬ ['#'] <+: c :: cs := by simp [h.1.1.symm]
  rw [pieceAt_of_unmarked ⟨by simp [python], by simp [python, hmark]⟩]
  simp [unmarkedAt, python, h]

theorem masked_python_cons (h : (c != '#' && c != '"' && c != '\'') = true) (cs : List Char) :
    masked python keep before (c :: cs) = c :: masked python keep (some c) cs :=
  masked_cons_of_code regular (pieceAt_code h before cs) keep

theorem exists_masked_fragment (before : Option Char) (f : Fragment) (cs : List Char) :
    ∃ last, masked python keep before (f.chars ++ cs) = f.shown ++ masked python keep last cs := by
  cases f with
  | code text h =>
    rw [Fragment.chars, Fragment.shown]
    generalize text.toList = xs at h
    induction xs generalizing before with
    | nil => exact ⟨before, rfl⟩
    | cons c xs ih =>
      rw [all_cons, Bool.and_eq_true] at h
      obtain ⟨last, hlast⟩ := ih (some c) h.2
      exact ⟨last, by rw [cons_append, masked_python_cons h.1, hlast]; rfl⟩
  | comment text h =>
    have hpiece : pieceAt python before ('#' :: text.toList ++ '\n' :: cs) = .comment ('#' :: text.toList).length := by
      have hline : ∀ c ∈ text.toList, (c != '\n') = true := by
        intro c hc
        rw [bne_iff_ne]
        rintro rfl
        exact h hc
      simp [pieceAt, python, lineComment?, afterHead?, takeWhile_append_of_pos hline]
    have hcomment := masked_append regular (cons_ne_nil '#' text.toList)
      (by rw [hpiece, Piece.length_comment]) keep
    rw [hpiece, Piece.render_comment] at hcomment
    refine ⟨some '\n', ?_⟩
    rw [Fragment.chars, Fragment.shown, append_assoc, append_assoc, singleton_append, hcomment,
      singleton_append, masked_python_cons rfl]

theorem FromImport.toList_mask (i : FromImport) (keep : Bool) :
    (mask python keep i.text).toList = i.fragments.flatMap (·.shown) ++
      i.further.elim [] fun text => ';' :: masked python keep (some ';') text.toList := by
  rw [Deadwood.toList_mask, text, String.toList_ofList]
  generalize none = before
  induction i.fragments generalizing before with
  | nil =>
    cases i.further with
    | none => rfl
    | some text => exact masked_python_cons rfl _
  | cons f fragments ih =>
    obtain ⟨last, hlast⟩ := exists_masked_fragment before f _
    rw [flatMap_cons, append_assoc, hlast, ih, flatMap_cons, append_assoc]

theorem ne_quote_of_mem_shown {f : Fragment} (h : c ∈ f.shown) : c ≠ '"' ∧ c ≠ '\'' := by
  cases f with
  | code text hplain =>
    have hc := all_eq_true.1 hplain c h
    simp only [Bool.and_eq_true, bne_iff_ne] at hc
    exact ⟨hc.1.2, hc.2⟩
  | comment text _ =>
    have hc : c = ' ' ∨ c = '\n' := by
      rcases mem_append.1 h with h | h
      · obtain ⟨d, -, hd⟩ := mem_flatMap.1 h
        rw [blankChar] at hd
        split at hd
        · exact .inr (by simp_all)
        · exact .inl (eq_of_mem_replicate hd)
      · exact .inr (mem_singleton.1 h)
    rcases hc with rfl | rfl <;> decide

end Masked

/-! ## The names of a clause -/

section Parts

variable {c : Char} {name : Identifier} {lead trail cs : List Char} {names : List String} {p : Char → Bool}

theorem isLead_iff : isLead lead = true ↔ (∀ c ∈ lead, isBlank c = true ∨ c = '\\') ∧ lead.count '\\' ≤ 1 := by
  simp [isLead]

theorem isNameChar_ne {d : Char} (h : isNameChar c = true) (hd : isNameChar d = false := by decide) : c ≠ d := by
  rintro rfl
  rw [h] at hd
  cases hd

theorem isBlank_of_isNameChar (h : isNameChar c = true) : isBlank c = false := by
  simp only [isNameChar, Bool.and_eq_true, Bool.not_eq_true'] at h
  exact h.2

theorem Identifier.isNameChar_of_mem (name : Identifier) (h : c ∈ name.text.toList) : isNameChar c = true :=
  all_eq_true.1 name.plain c h

theorem Identifier.toList_ne_nil (name : Identifier) : name.text.toList ≠ [] := by simp [name.nonempty]

section

variable (hp : ∀ c, isNameChar c = true → p c = false)
include hp

theorem dropWhile_part : (lead ++ (name.text.toList ++ trail)).dropWhile p =
    lead.dropWhile p ++ (name.text.toList ++ trail) := by
  refine dropWhile_append_of_head lead fun c hc => hp c (name.isNameChar_of_mem ?_)
  rw [head?_append_of_ne_nil _ name.toList_ne_nil] at hc
  exact mem_of_mem_head? hc

theorem dropWhileEnd_part : dropWhileEnd p (lead ++ (name.text.toList ++ trail)) =
    lead ++ (name.text.toList ++ dropWhileEnd p trail) := by
  rw [← append_assoc, dropWhileEnd_append_of_last (fun c hc => ?_), append_assoc]
  rw [getLast?_append_of_ne_nil _ name.toList_ne_nil] at hc
  exact hp c (name.isNameChar_of_mem (mem_of_getLast? hc))

theorem IsPart.trimStart (h : IsPart name cs) : IsPart name (cs.dropWhile p) := by
  obtain ⟨hcomma, lead, trail, rfl, hlead, htrail⟩ := h
  refine ⟨fun hc => hcomma (dropWhile_subset _ hc), lead.dropWhile p, trail, dropWhile_part hp, ?_, htrail⟩
  rw [isLead_iff] at hlead ⊢
  exact ⟨fun c hc => hlead.1 c (dropWhile_subset _ hc), Nat.le_trans ((dropWhile_sublist p).count_le _) hlead.2⟩

theorem IsPart.trimEnd (h : IsPart name cs) : IsPart name (dropWhileEnd p cs) := by
  obtain ⟨hcomma, lead, trail, rfl, hlead, htrail⟩ := h
  refine ⟨fun hc => hcomma ?_, lead, dropWhileEnd p trail, dropWhileEnd_part hp, hlead, fun c hc =>
    htrail c (mem_head?_of_dropWhileEnd hc)⟩
  obtain ⟨rest, hrest⟩ := exists_dropWhileEnd_append p (lead ++ (name.text.toList ++ trail))
  rw [← hrest]
  exact mem_append_left rest hc

theorem Lists.trimStart (h : Lists names cs) : Lists names (cs.dropWhile p) := by
  cases h with
  | blank h => exact .blank fun c hc => h c (dropWhile_subset _ hc)
  | last h => exact .last (h.trimStart hp)
  | @cons name cs _ _ h h' =>
    have hne : (cs.dropWhile p).isEmpty = false := by
      obtain ⟨-, lead, trail, heq, -⟩ := h.trimStart hp
      simp [heq, name.nonempty]
    rw [dropWhile_append, hne]
    exact .cons (h.trimStart hp) h'

theorem Lists.trimEnd (h : Lists names cs) (hcomma : p ',' = false) : Lists names (dropWhileEnd p cs) := by
  induction h with
  | @blank cs h =>
    obtain ⟨rest, hrest⟩ := exists_dropWhileEnd_append p cs
    exact .blank fun c hc => h c (hrest ▸ mem_append_left rest hc)
  | last h => exact .last (h.trimEnd hp)
  | @cons name cs ds names h h' ih =>
    -- commas are not trimmed, so all before the last one stays
    have hsplit : dropWhileEnd p (cs ++ [','] ++ ds) = cs ++ [','] ++ dropWhileEnd p ds :=
      dropWhileEnd_append_of_last (by simpa using hcomma) ds
    rw [append_assoc, append_assoc] at hsplit
    exact hsplit ▸ .cons h ih

end

theorem head?_words_blanks (hlead : ∀ c ∈ lead, isBlank c = true) (htrail : ∀ c ∈ trail.head?, isBlank c = true) :
    (words (.ofList (lead ++ (name.text.toList ++ trail)))).head? = some name.text := by
  rw [words, splitWhere, String.toList_ofList]
  induction lead with
  | nil =>
    have hname := splitList_eq_singleton (p := isBlank) fun c hc => isBlank_of_isNameChar (name.isNameChar_of_mem hc)
    cases trail with
    | nil => simp [hname, name.nonempty]
    | cons c trail => simp [splitList_append (htrail c rfl), hname, name.nonempty]
  | cons c lead ih =>
    obtain ⟨hc, hlead⟩ := forall_mem_cons.1 hlead
    rw [cons_append, splitList_cons_of_pos hc]
    exact ih hlead

/-- A backslash is trimmed away with the white space before it. -/
theorem isBlank_of_isLead (h : isLead lead = true) :
    ∀ c ∈ (lead.dropWhile isBlank).dropWhile (· == '\\'), isBlank c = true := by
  rw [isLead_iff] at h
  cases hdrop : lead.dropWhile isBlank with
  | nil => exact nofun
  | cons d ds =>
    have hsub : (d :: ds).Sublist lead := hdrop ▸ dropWhile_sublist isBlank
    have hd : isBlank d = false := by simpa [hdrop] using head?_dropWhile_not isBlank lead
    obtain rfl : d = '\\' := (h.1 d (hsub.subset mem_cons_self)).resolve_left (by simp [hd])
    have hds : '\\' ∉ ds := count_eq_zero.1 (by simpa using Nat.le_trans (hsub.count_le '\\') h.2)
    intro c hc
    have hc : c ∈ ds := dropWhile_subset _ (by simpa using hc)
    exact (h.1 c (hsub.subset (mem_cons_of_mem _ hc))).resolve_right fun hslash => hds (hslash ▸ hc)

/-- **The first word between two commas is the name.** -/
theorem IsPart.head?_words (h : IsPart name cs) :
    (words (trimWhere (· == '\\') (trim (.ofList cs)))).head? = some name.text := by
  have hblank (c : Char) (hc : isNameChar c = true) : isBlank c = false := isBlank_of_isNameChar hc
  have hslash (c : Char) (hc : isNameChar c = true) : (c == '\\') = false := beq_eq_false_iff_ne.2 (isNameChar_ne hc)
  obtain ⟨-, lead, trail, rfl, hlead, htrail⟩ := h
  simp only [trim, trimWhere, String.toList_ofList, dropWhile_part hblank, dropWhileEnd_part hblank,
    dropWhile_part hslash, dropWhileEnd_part hslash]
  exact head?_words_blanks (isBlank_of_isLead hlead) fun c hc =>
    htrail c (mem_head?_of_dropWhileEnd (mem_head?_of_dropWhileEnd hc))

theorem Lists.filterMap_words (h : Lists names cs) : (splitAt ',' (.ofList cs)).filterMap (fun part =>
    (words (trimWhere (· == '\\') (trim part))).head?) = names := by
  have hone {cs : List Char} (h : ',' ∉ cs) : splitAt ',' (.ofList cs) = [.ofList cs] :=
    splitAt_eq_singleton (by simpa using h)
  induction h with
  | @blank cs h =>
    rw [hone fun hc => absurd (h ',' hc) (by decide), filterMap_cons, trim_blanks (by simpa using h)]
    rfl
  | last h => simp [hone h.1, h.head?_words]
  | @cons name cs ds names h h' ih =>
    have hsplit := splitAt_append ',' (.ofList cs) (.ofList ds)
    have heq : String.ofList (cs ++ ',' :: ds) = .ofList cs ++ String.singleton ',' ++ .ofList ds := by
      simp [← String.toList_inj]
    rw [heq, hsplit, hone h.1]
    simp [h.head?_words, ih]

theorem IsPart.exists_cons (h : IsPart name cs) : ∃ c rest, cs = c :: rest ∧ c ≠ '*' := by
  obtain ⟨-, lead, trail, rfl, hlead, -⟩ := h
  cases lead with
  | nil =>
    obtain ⟨c, rest, hname⟩ := exists_cons_of_ne_nil name.toList_ne_nil
    exact ⟨c, rest ++ trail, by simp [hname], isNameChar_ne (name.isNameChar_of_mem (by simp [hname]))⟩
  | cons c lead =>
    refine ⟨c, _, rfl, ?_⟩
    rintro rfl
    exact absurd ((isLead_iff.1 hlead).1 '*' mem_cons_self) (by decide)

theorem Lists.startsWith_star (h : Lists names cs) (hne : names ≠ []) : startsWith (.ofList cs) "*" = false := by
  cases h with
  | blank h => exact absurd rfl hne
  | last h | cons h _ =>
    obtain ⟨c, rest, rfl, hc⟩ := h.exists_cons
    simp [startsWith, List.isPrefixOf, hc.symm]

/-- Brackets and white space are trimmed away around a clause. -/
def isAround (c : Char) : Bool := c == '(' || c == ')' || isBlank c

/-- **The names of a clause are read from it.** -/
theorem Lists.clauseNames_eq {clause : String} (h : Lists names cs) (hne : names ≠ [])
    (htrim : trimWhere isAround clause = trimWhere isAround (.ofList cs)) : clauseNames clause = .ofList names := by
  have hp (c : Char) (hc : isNameChar c = true) : isAround c = false := by
    simp [isAround, isNameChar_ne (d := '(') hc, isNameChar_ne (d := ')') hc, isBlank_of_isNameChar hc]
  have hlists := (h.trimStart hp).trimEnd hp rfl
  rw [trimWhere, trimWhere, String.toList_ofList] at htrim
  have hclause : trimWhere (fun c => c == '(' || c == ')' || isBlank c) clause =
      .ofList (dropWhileEnd isAround (cs.dropWhile isAround)) := htrim
  simp only [clauseNames, hclause, hlists.startsWith_star hne, Bool.false_eq_true, if_false, hlists.filterMap_words]

theorem trimWhere_brackets (cs : List Char) :
    trimWhere isAround (.ofList ('(' :: (cs ++ [')']))) = trimWhere isAround (.ofList cs) := by
  have hopen : isAround '(' = true := rfl
  have hclose : isAround ')' = true := rfl
  simp only [trimWhere, String.toList_ofList, dropWhile_cons, hopen, if_true, dropWhile_append]
  split
  · rename_i hempty
    simp [List.isEmpty_iff.1 hempty]
  · simp [dropWhileEnd, hclose]

end Parts

/-! ## The pattern -/

/-- A space or a tab. -/
def gap : CharClass := ⟨false, [.range ' ' ' ', .range '\t' '\t']⟩

def modulePattern : Pattern := .seq (star true (one (single '.'))) (star true (one ⟨false, [.word, .range '.' '.']⟩))

/-- A character of a line, or a backslash behind which it is continued. -/
def lineChar : Pattern :=
  .alt (one ⟨true, [.range '\n' '\n', .range '\\' '\\']⟩) (.seq (one (single '\\')) (one (single '\n')))

def clausePattern : Pattern :=
  .alt (.seq (.seq (one (single '(')) (star true (one ⟨true, [.range ')' ')']⟩))) (one (single ')'))) (plus lineChar)

theorem fromImport_eq : fromImport =
    .seq (.seq (spell (.seq (.seq (.seq (spell (.seq (look .lineStart) (star true (one gap))) "from".toList)
      (plus (one gap))) (group 1 modulePattern)) (plus (one gap))) "import".toList) (plus (one gap)))
      (group 2 clausePattern) := by
  decide +kernel

section First

variable {here : Cursor} {set : CharClass} {p : Pattern} {c : Char} {xs ys zs : List Char} {cs : List Capture}

theorem gap_holds (c : Char) : gap.holds c = (c == ' ' || c == '\t') := by simp [gap, holds, holds_range]

theorem first_modulePattern (hxs : ∀ c ∈ xs, c = '.' ∨ isNameChar c = true) (hrest : here.rest = xs ++ (' ' :: ys)) :
    modulePattern.First here xs (' ' :: ys) [] := by
  have hsplit := takeWhile_append_dropWhile (p := (· == '.')) (l := xs)
  rw [← hsplit, append_assoc] at hrest
  have hdots : Runs (one (single '.')) here (xs.takeWhile (· == '.')) (xs.dropWhile (· == '.') ++ ' ' :: ys) := by
    refine runs_one hrest (fun c hc => ?_) fun c hc => ?_
    · simp [single, holds, holds_range, all_eq_true.1 all_takeWhile c hc]
    · have hstop := head?_dropWhile_not (· == '.') xs
      cases hdrop : xs.dropWhile (· == '.') with
      | nil =>
        obtain rfl : ' ' = c := by simpa [hdrop] using hc
        rfl
      | cons d ds =>
        obtain rfl : d = c := by simpa [hdrop] using hc
        simpa [hdrop, single, holds, holds_range] using hstop
  have hwords : Runs (one ⟨false, [.word, .range '.' '.']⟩) (here.past (xs.takeWhile (· == '.')))
      (xs.dropWhile (· == '.')) (' ' :: ys) := by
    refine runs_one hdots.first.next (fun c hc => ?_) ?_
    · rcases hxs c (dropWhile_subset _ hc) with rfl | h
      · decide
      · simp [holds, ClassItem.holds, (Bool.and_eq_true_iff.1 h).1]
    · rintro c ⟨⟩
      decide
  have hfirst := hdots.first.seq hwords.first
  rwa [hsplit] at hfirst

theorem runs_lineChar (h : IsLine xs) (hrest : here.rest = xs ++ ys) (hys : ys = [] ∨ ys = ['\n']) :
    Runs lineChar here xs ys := by
  induction h generalizing here with
  | nil =>
    obtain rfl : here.rest = ys := hrest
    have hnone (set : CharClass) (hset : set.holds '\n' = false) : (one set).ends here = [] := by
      refine ends_one_of_not ?_
      rcases hys with hys | hys <;> simp [hys, hset]
    refine .stop ?_
    rw [lineChar, ends, hnone _ (by decide), ends_seq_of_nil (hnone _ (by decide))]
  | @char c cs hc h ih =>
    have hone : First (one ⟨true, [.range '\n' '\n', .range '\\' '\\']⟩) here [c] (cs ++ ys) [] :=
      first_one hrest (by simp [holds, holds_range, hc])
    exact .step hone.alt (cons_ne_nil c []) (ih hone.next)
  | @continued cs h ih =>
    have hslash : First (one (single '\\')) here ['\\'] (['\n'] ++ (cs ++ ys)) [] := first_one hrest (by decide)
    have hboth := hslash.seq (first_one hslash.next (by decide : (single '\n').holds '\n' = true))
    refine .step (first_alt_of_nil (ends_one_of_not ?_) hboth) (cons_ne_nil '\\' ['\n']) (ih hboth.next)
    rw [hrest]
    rintro c ⟨⟩
    decide

theorem first_clausePattern (clause : Clause) (hrest : here.rest = clause.chars ++ ys) (hys : ys = [] ∨ ys = ['\n']) :
    clausePattern.First here clause.chars ys [] := by
  cases clause with
  | line c cs hc h =>
    refine first_alt_of_nil (ends_seq_of_nil (ends_seq_of_nil (ends_one_of_not ?_)))
      ((runs_lineChar h hrest hys).first_plus (cons_ne_nil c cs))
    rw [hrest]
    rintro d ⟨⟩
    simp [single, holds, holds_range, hc.1]
  | brackets cs h =>
    rw [Clause.chars, cons_append, append_assoc] at hrest
    have hopen : First (one (single '(')) here ['('] (cs ++ ([')'] ++ ys)) [] := first_one hrest (by decide)
    have hinner : Runs (one ⟨true, [.range ')' ')']⟩) (here.past ['(']) cs ([')'] ++ ys) := by
      refine runs_one hopen.next (fun c hc => ?_) ?_
      · simp [holds, holds_range, show c ≠ ')' from fun hc' => h (hc' ▸ hc)]
      · rintro c ⟨⟩
        decide
    have hboth := hopen.seq hinner.first
    exact (hboth.seq (first_one hboth.next (by decide : (single ')').holds ')' = true))).alt

/-- **The pattern takes an import as a whole.** -/
theorem findAll_fromImport (i : FromImport) : ∃ m, fromImport.findAll (mask python false i.text) = [m] ∧
    m.start = 0 ∧ m.groupText 1 = i.module ∧ m.groupText 2 = .ofList i.clause.chars := by
  have hcode : _ = shown i.fragments i.further := i.toList_mask false
  generalize mask python false i.text = s at hcode
  obtain ⟨fragments, further, module, gaps, clause, feed, hshown, hnonempty, hdotted, hgaps⟩ := i
  obtain ⟨ending, hending, hfeed⟩ : ∃ ending, (if feed then ['\n'] else []) = ending ∧
      (ending = [] ∨ ending = ['\n']) := by
    cases feed <;> simp
  have hdotted (c : Char) (hc : c ∈ module.toList) : c = '.' ∨ isNameChar c = true := by
    simpa using all_eq_true.1 hdotted c hc
  have hspace : ∀ c ∈ [' '], gap.holds c = true := forall_mem_singleton.2 (by decide)
  have hrest : (Cursor.start s).rest = "from".toList ++ ([' '] ++ (module.toList ++ ([' '] ++ ("import".toList ++
      ((' ' :: gaps) ++ (clause.chars ++ ending)))))) := by
    simp [Cursor.start, hcode, hshown, hending]
  -- the parts of the pattern take the text from left to right
  have hstart : (Pattern.seq (look .lineStart) (star true (one gap))).First (.start s) [] (Cursor.start s).rest [] :=
    (first_look rfl).seq (Runs.first (.stop (ends_one_of_not (by
      rw [Cursor.past, hrest]
      rintro c ⟨⟩
      decide))))
  rw [hrest] at hstart
  have hfrom := hstart.spell.plus (cons_ne_nil ' ' []) hspace (by
    obtain ⟨c, cs, hc⟩ := exists_cons_of_ne_nil (show module.toList ≠ [] by simp [hnonempty])
    rw [hc]
    rintro d ⟨⟩
    rcases hdotted c (by simp [hc]) with rfl | h
    · decide
    · simp [gap_holds, isNameChar_ne (d := ' ') h, isNameChar_ne (d := '\t') h])
  have hname := first_modulePattern hdotted hfrom.next
  have hmodule := (hfrom.seq (hname.group 1)).plus (cons_ne_nil ' ' []) hspace (by
    rintro c ⟨⟩
    decide)
  have himport := hmodule.spell.plus (cons_ne_nil ' ' gaps) (forall_mem_cons.2 ⟨hspace ' ' (by simp),
    fun c hc => by simpa [gap_holds] using all_eq_true.1 hgaps c hc⟩) (by
      cases clause with
      | line c cs hc _ =>
        rintro d ⟨⟩
        simp [gap_holds, hc]
      | brackets _ _ =>
        rintro d ⟨⟩
        decide)
  have hclause := first_clausePattern clause himport.next hfeed
  have hall := himport.seq (hclause.group 2)
  rw [← fromImport_eq] at hall
  -- at most a line feed is left, so nothing else is found
  refine ⟨_, (hall.findAll_eq (by simp)).trans (congrArg _ (findFrom_eq_nil_of_requires (single 'f')
    (by decide) ?_ _)), rfl,
    hname.textTo.trans String.ofList_toList, hclause.textTo⟩
  rw [hall.next]
  rcases hfeed with rfl | rfl
  · exact forall_mem_nil _
  · exact forall_mem_singleton.2 (by decide)

/-- The line begins with the word `import` and white space behind it. -/
def startsImport (cs : List Char) : Bool :=
  let rest := cs.dropWhile gap.holds
  "import".toList.isPrefixOf rest && (rest.drop 6).head?.any gap.holds

/-- A line other than the first begins with the word `import`. -/
def hasImportLine : List Char → Bool
  | [] => false
  | c :: cs => c == '\n' && startsImport cs || hasImportLine cs

theorem hasImportLine_append (xs : List Char) (h : startsImport ys = true) :
    hasImportLine (xs ++ '\n' :: ys) = true := by
  induction xs with
  | nil => simp [hasImportLine, h]
  | cons c xs ih => simp [hasImportLine, ih]

theorem plainImport_eq : plainImport =
    .seq (.seq (spell (.seq (look .lineStart) (star true (one gap))) "import".toList) (plus (one gap)))
      (group 1 (plus (one ⟨true, [.range '\n' '\n']⟩))) := by
  decide +kernel

theorem startsImport_of_mem_ends {hit : Hit} (h : hit ∈ plainImport.ends here) :
    Anchor.lineStart.holds here = true ∧ startsImport here.rest = true := by
  rw [plainImport_eq] at h
  have htakes := takes_of_mem_ends h
  generalize hit.captures = captures at htakes
  -- the pattern is taken apart from its end
  cases htakes with
  | seq h _ =>
  cases h with
  | seq hword hgap =>
  obtain ⟨mid, _, hstart, hmid⟩ := hword.exists_of_spell
  cases hgap with
  | seq hgap _ =>
  cases hgap with
  | @one _ there c cs hrest hc =>
  cases hstart with
  | seq hlook hstar =>
  cases hlook with
  | look hlook =>
  obtain ⟨xs, hxs, hall⟩ := hstar.exists_of_star_one
  have hdrop : here.rest.dropWhile gap.holds = "import".toList ++ c :: cs := by
    rw [hxs, hmid, hrest]
    refine dropWhile_append_eq hall ?_
    rintro d ⟨⟩
    decide
  exact ⟨hlook, by simp [startsImport, hdrop, hc]⟩

theorem findAll_plainImport {s : String} (h : hasImportLine s.toList = false) (hstart : startsImport s.toList = false) :
    plainImport.findAll s = [] := by
  refine findFrom_eq_nil (fun head ⟨rest, hhead⟩ => eq_nil_iff_forall_not_mem.2 fun hit hmem => ?_) _
  obtain ⟨hline, himport⟩ := startsImport_of_mem_ends hmem
  obtain ⟨-, hrest⟩ := Cursor.leads_past hhead.symm
  rw [hrest] at himport
  rcases eq_nil_or_concat' head with rfl | ⟨xs, d, rfl⟩
  · rw [show s.toList = rest from hhead.symm, himport] at hstart
    cases hstart
  · rw [Cursor.past_append] at hline
    obtain rfl : d = '\n' := by simpa [Cursor.past, Anchor.holds] using hline
    rw [show s.toList = xs ++ '\n' :: rest by rw [← singleton_append, ← append_assoc]; exact hhead.symm,
      hasImportLine_append xs himport] at h
    cases h

/-- No other import is found, if there is no further statement and no line that begins with the word `import`. -/
theorem findAll_other (i : FromImport) (hfurther : i.further = none)
    (hlines : hasImportLine (shown i.fragments i.further) = false) :
    plainImport.findAll (mask python false i.text) = [] ∧ dynamicImport.findAll (mask python true i.text) = [] := by
  have hcode (keep : Bool) : (mask python keep i.text).toList = shown i.fragments i.further := by
    rw [i.toList_mask, shown, hfurther]
    rfl
  constructor
  · refine findAll_plainImport (by rwa [hcode]) ?_
    rw [hcode, i.shown_eq]
    simp [startsImport, gap_holds]
  · have hquote : dynamicImport.requires ⟨false, [.range '\'' '\'', .range '"' '"']⟩ = true := by decide +kernel
    rw [findAll]
    refine findFrom_eq_nil_of_requires _ hquote (fun c hc => ?_) _
    rw [Cursor.start, hcode, shown, hfurther, Option.elim_none, append_nil] at hc
    obtain ⟨f, -, hf⟩ := mem_flatMap.1 hc
    simp [holds, holds_range, ne_quote_of_mem_shown hf]

end First

/-! ## Reading -/

theorem yields_declarationsFrom_import? (all : List String) (i : Nat) (classEnd : Option Nat) (rest : List String) :
    Yields True (declarationsFrom all i classEnd rest) (∀ f ∈ ·, f.import? = none) := by
  induction rest generalizing i classEnd with
  | nil => exact yields_pure.2 nofun
  | cons line rest ih =>
    unfold declarationsFrom
    split
    · refine Yields.bind (P := (∀ f ∈ ·, f.import? = none)) ?_ fun found hfound => (ih _ _).bind fun later hlater =>
        yields_pure.2 (forall_mem_append.2 ⟨hfound, hlater⟩)
      refine (Yields.of_excuse trivial _).bind fun size _ => yields_pure.2 ?_
      split
      · exact forall_mem_singleton.2 rfl
      · split
        · exact forall_mem_singleton.2 rfl
        · exact nofun
    · split
      · exact (ih _ _).bind fun later hlater => yields_pure.2 (forall_mem_cons.2 ⟨rfl, hlater⟩)
      · exact ih _ _

theorem asksAll_imported (target : String) (line : Nat) :
    (Finding.imported { target, names := .everything, line }).AsksAll := by
  intro i hi
  rw [Finding.import?] at hi
  split at hi
  · cases hi
  · cases hi
    rfl

theorem imports_applyExportList (m : MaskedSource) (s : Summary) : (applyExportList m s).imports = s.imports := by
  unfold applyExportList
  split <;> rfl

theorem exists_imports_eq (m : MaskedSource) : ∃ other, imports m = (fromImport.findAll m.code).map (fun hit =>
    Finding.imported
      { target := hit.groupText 1, names := clauseNames (hit.groupText 2), line := m.lineOf hit.start }) ++ other ∧
      (∀ f ∈ other, f.AsksAll) ∧
      (plainImport.findAll m.code = [] ∧ dynamicImport.findAll m.literate = [] → other = []) := by
  refine ⟨_, append_assoc _ _ _, forall_mem_append.2 ⟨?_, ?_⟩, fun h => by rw [h.1, h.2]; rfl⟩
  · exact forall_mem_flatMap.2 fun hit _ => forall_mem_filterMap_map fun _ _ => asksAll_imported _ _
  · exact forall_mem_map.2 fun hit _ => asksAll_imported _ _

theorem FromImport.trim_module (i : FromImport) : (trim i.module).isEmpty = false := by
  have hblank : ∀ c ∈ i.module.toList, isBlank c = false := by
    intro c hc
    have hchar := all_eq_true.1 i.dotted c hc
    simp only [Bool.or_eq_true, beq_iff_eq] at hchar
    rcases hchar with rfl | h
    · decide
    · exact isBlank_of_isNameChar h
  have hne : i.module.toList ≠ [] := by simp [i.nonempty]
  have hsolid : IsSolid i.module := ⟨⟨_, head?_eq_some_head hne, hblank _ (head_mem hne)⟩,
    ⟨_, getLast?_eq_some_getLast hne, hblank _ (getLast_mem hne)⟩⟩
  simp [hsolid.trim_eq, i.nonempty]

theorem yields_read_imports (place : Place) (i : FromImport) : Yields True (read place i.text) fun s => ∃ rest,
      s.imports = { target := i.module, names := clauseNames (.ofList i.clause.chars), line := 1 } :: rest ∧
        (∀ j ∈ rest, j.names = .everything) ∧
        (i.further = none → hasImportLine (shown i.fragments i.further) = false → rest = []) := by
  obtain ⟨m, hfind, hstart, hmodule, hclause⟩ := findAll_fromImport i
  obtain ⟨other, himports, hother, hnone⟩ := exists_imports_eq (.ofText .python i.text)
  have hcode : (MaskedSource.ofText .python i.text).code = mask python false i.text := rfl
  have hline : (MaskedSource.ofText .python i.text).lineOf (byteLength []) = 1 :=
    LineIndex.lineOf_byteLength (s := i.text) (nil_append _).symm
  unfold read
  refine (yields_declarationsFrom_import? _ _ _ _).bind fun declarations hdecl => yields_pure.2 ?_
  refine ⟨other.filterMap (·.import?), ?_, fun j hj => ?_, fun hfurther hlines => ?_⟩
  · dsimp only
    rw [imports_applyExportList, Summary.imports_recordAll, himports, hcode, hfind, map_singleton, hmodule, hclause,
      hstart, ← byteLength_nil, hline, filterMap_append, filterMap_eq_nil_iff.2 hdecl, append_nil, singleton_append,
      filterMap_cons_some (by rw [Finding.import?, i.trim_module]; rfl)]
    rfl
  · obtain ⟨f, hf, hj⟩ := mem_filterMap.1 hj
    exact hother f hf j hj
  · rw [hnone (findAll_other i hfurther hlines)]
    rfl

end Python

/-- **What is recorded of an import from a module**: the module, on the first line, and the names that are listed. No
other import asks for names, and there is none at all unless it is a further statement or a line of its own. -/
theorem from_import_names [TreeReader] {path : Path} (hpath : Language.ofPath? path = some .python) (i : Python.FromImport) :
    ∃ names rest, (SourceUnit.ofText path i.text).summary.imports =
        { target := i.module, names, line := 1 } :: rest ∧
      (∀ j ∈ rest, j.names = .everything) ∧
      (i.further = none → Python.hasImportLine (Python.shown i.fragments i.further) = false → rest = []) ∧
      ∀ list, list ≠ [] → Python.Lists list i.clause.inner → names = .ofList list := by
  have hnames {list : List String} (hne : list ≠ []) (h : Python.Lists list i.clause.inner) :
      Python.clauseNames (.ofList i.clause.chars) = .ofList list := by
    refine h.clauseNames_eq hne ?_
    cases i.clause with
    | line c cs hc h => rfl
    | brackets cs h => exact Python.trimWhere_brackets cs
  rcases SourceUnit.ofText_cases (SourceUnit.language_ofText hpath i.text) with h | ⟨s, hs, -, hsummary⟩ | ⟨fault, h, -⟩
  · exact absurd h.1 (by decide)
  · obtain ⟨rest, himports, hrest, hnone⟩ := (Python.yields_read_imports _ i).of_ok s hs
    refine ⟨_, rest, ?_, hrest, hnone, fun list => hnames⟩
    rcases hsummary with hsummary | hsummary <;> rw [hsummary] <;> exact himports
  · exact ((Python.yields_read _ _).of_error fault h : False).elim

/-- Names in brackets, with a comment between them. -/
def bracketImport : Python.FromImport where
  fragments := [.code "from ..m import (a, ", .comment " (b,", .code "  b as c,\n)\n"]
  further := none
  module := "..m"
  gaps := []
  clause := .brackets "a,      \n  b as c,\n".toList (by decide)
  feed := true
  shown_eq := by decide

theorem from_import_names_brackets : Language.ofPath? ⟨"a.py"⟩ = some .python ∧
    bracketImport.text = "from ..m import (a, # (b,\n  b as c,\n)\n" ∧
      (SourceUnit.ofText ⟨"a.py"⟩ bracketImport.text).summary.imports =
        [{ target := "..m", names := .ofList ["a", "b"], line := 1 }] := by
  have hpath : Language.ofPath? ⟨"a.py"⟩ = some .python := by decide +kernel
  obtain ⟨names, rest, himports, -, hrest, hnames⟩ := from_import_names hpath bracketImport
  have hblank : ∀ c ∈ ['\n'], Text.isBlank c = true := List.forall_mem_singleton.2 (by decide)
  have ha : Python.IsPart { text := "a" } ['a'] := ⟨by decide, [], [], rfl, by decide, nofun⟩
  have hb : Python.IsPart { text := "b" } "      \n  b as c".toList :=
    ⟨by decide, "      \n  ".toList, " as c".toList, by decide, by decide, by
      rintro c ⟨⟩
      decide⟩
  have hlists : Python.Lists ["a", "b"] bracketImport.clause.inner :=
    .cons ha (.cons hb (.blank hblank))
  rw [hnames _ (by decide) hlists, hrest rfl (by decide)] at himports
  exact ⟨hpath, by decide, himports⟩

/-- A semicolon that stands behind the last name at once is read as a part of it. -/
theorem from_import_semicolon : (SourceUnit.ofText ⟨"a.py"⟩ "from m import a; b()\n").summary.imports =
    [{ target := "m", names := .ofList ["a;"], line := 1 }] ∧ (ImportedNames.ofList ["a;"]).contains "a" = false :=
  ⟨by decide +kernel, by decide +kernel⟩

end Deadwood
