import Deadwood.Proofs.Offsets
import Deadwood.Proofs.Monotone

/-!
# Clauses of imports

What stands between the words `import` and `from` is a clause: a name for the default, a star with a name for
everything, or a brace list, whose specifiers ask for names one by one. Clauses are written out here, and read again.

* **`clauseNames_reading`**: what is read from a clause.
-/

namespace Deadwood

open List

namespace EcmaScript

open Text

/-! ## How clauses are written -/

/-- The characters that mark the parts of a clause. -/
def isMark (c : Char) : Bool := c == ',' || c == '{' || c == '}' || c == '*'

/-- White space, perhaps none. -/
structure Blanks where
  text : String
  blank : text.toList.all isBlank = true := by decide

/-- A name, which may be a word that has a meaning elsewhere in a clause. -/
structure Identifier where
  text : String
  nonempty : text ≠ "" := by decide
  plain : text.toList.all (fun c => !isBlank c && !isMark c) = true := by decide

/-- One member of a brace list: a name, perhaps asked for only as a type, and perhaps with another name that is given to
it. -/
structure Specifier where
  typeOnly : Bool
  name : Identifier
  given : Option Identifier

namespace Specifier

def pairText (s : Specifier) : String :=
  match s.given with
  | some given => s.name.text ++ " as " ++ given.text
  | none => s.name.text

def text (s : Specifier) : String := if s.typeOnly then "type " ++ s.pairText else s.pairText

/-- Another name is given to one that is called `type`, and not as a type only. -/
def renamesType (s : Specifier) : Bool := !s.typeOnly && s.name.text == "type" && s.given.isSome

/-- The name that is read. A first word `type` counts as the mark of a type, and if it is the name itself then `as` and
the given name are left. -/
def readName (s : Specifier) : String :=
  match s.given with
  | some given => if s.renamesType then "as " ++ given.text else s.name.text
  | none => s.name.text

end Specifier

/-- What stands between braces: specifiers with commas between them, and perhaps a comma after the last. -/
inductive SpecifierList where
  | blank (space : Blanks)
  | last (before : Blanks) (s : Specifier) (after : Blanks)
  | cons (before : Blanks) (s : Specifier) (after : Blanks) (rest : SpecifierList)

namespace SpecifierList

def text : SpecifierList → String
  | blank space => space.text
  | last before s after => before.text ++ s.text ++ after.text
  | cons before s after rest => before.text ++ s.text ++ after.text ++ "," ++ rest.text

def specifiers : SpecifierList → List Specifier
  | blank _ => []
  | last _ s _ => [s]
  | cons _ s _ rest => s :: rest.specifiers

end SpecifierList

/-- What a clause asks for beside the default: everything, under a name, or what a brace list says. -/
inductive NamedPart where
  | whole (given : Identifier)
  | braces (list : SpecifierList)

namespace NamedPart

def text : NamedPart → String
  | whole given => "* as " ++ given.text
  | braces list => "\x7b" ++ list.text ++ "\x7d"

def isWhole : NamedPart → Bool
  | whole _ => true
  | braces _ => false

def specifiers : NamedPart → List Specifier
  | whole _ => []
  | braces list => list.specifiers

end NamedPart

/-- A clause: a name for the default, something else, or both with a comma between them. -/
inductive Clause where
  | byDefault (name : Identifier)
  | named (part : NamedPart)
  | both (name : Identifier) (before after : Blanks) (part : NamedPart)

namespace Clause

def text : Clause → String
  | byDefault name => name.text
  | named part => part.text
  | both name before after part => name.text ++ before.text ++ "," ++ after.text ++ part.text

def hasDefault : Clause → Bool
  | named _ => false
  | _ => true

def isWhole : Clause → Bool
  | byDefault _ => false
  | named part | both _ _ _ part => part.isWhole

def specifiers : Clause → List Specifier
  | byDefault _ => []
  | named part | both _ _ _ part => part.specifiers

end Clause

/-! ## Marks and white space -/

def Unmarked (s : String) : Prop := ∀ c ∈ s.toList, isMark c = false

namespace Unmarked

variable {s t : String}

theorem of_all (h : s.toList.all (!isMark ·) = true) : Unmarked s := fun c hc => by
  simpa using all_eq_true.1 h c hc

theorem append (hs : Unmarked s) (ht : Unmarked t) : Unmarked (s ++ t) := by
  intro c hc
  rw [String.toList_append, mem_append] at hc
  exact hc.elim (hs c) (ht c)

theorem notMem (h : Unmarked s) {c : Char} (hc : isMark c = true) : c ∉ s.toList := by
  intro hmem
  rw [h c hmem] at hc
  cases hc

end Unmarked

namespace Blanks

variable (space : Blanks)

theorem isBlank_of_mem : ∀ c ∈ space.text.toList, isBlank c = true := all_eq_true.1 space.blank

theorem unmarked : Unmarked space.text := by
  intro c hc
  have hblank := space.isBlank_of_mem c hc
  by_contra hmark
  simp only [isMark, Bool.not_eq_false, Bool.or_eq_true, beq_iff_eq] at hmark
  rcases hmark with ((rfl | rfl) | rfl) | rfl <;> exact absurd hblank (by decide)

end Blanks

namespace Identifier

variable (name : Identifier)

theorem plain_of_mem {c : Char} (hc : c ∈ name.text.toList) : isBlank c = false ∧ isMark c = false := by
  simpa using all_eq_true.1 name.plain c hc

theorem unmarked : Unmarked name.text := fun _ hc => (name.plain_of_mem hc).2

theorem space_notMem : ' ' ∉ name.text.toList := fun h => absurd (name.plain_of_mem h).1 (by decide)

theorem isSolid : IsSolid name.text := by
  have hne : name.text.toList ≠ [] := by simp [name.nonempty]
  exact ⟨⟨_, head?_eq_some_head hne, (name.plain_of_mem (head_mem hne)).1⟩,
    ⟨_, getLast?_eq_some_getLast hne, (name.plain_of_mem (getLast_mem hne)).1⟩⟩

end Identifier

/-! ## Specifiers -/

section Pieces

variable {piece part own given : String} (hpart : IsSolid part)
  (hpiece : (dropHead? (trim piece) "type ").getD (trim piece) = part)
include hpart hpiece

theorem bracedName?_of_splitOnce? (hsplit : splitOnce? part " as " = some (own, given)) :
    bracedName? piece = some (trim own, trim given) := by
  simp [bracedName?, hpiece, hpart.trim_eq, hpart.ne_empty, hsplit]

theorem bracedName?_of_not_splitOnce? (hsplit : splitOnce? part " as " = none) :
    bracedName? piece = some (part, part) := by
  simp [bracedName?, hpiece, hpart.trim_eq, hpart.ne_empty, hsplit]

end Pieces

namespace Specifier

variable (s : Specifier)

theorem isSolid_pairText : IsSolid s.pairText := by
  unfold pairText
  split
  · exact s.name.isSolid.around (Identifier.isSolid _) " as "
  · exact s.name.isSolid

theorem isSolid_text : IsSolid s.text := by
  have htype : IsSolid "type" := ⟨⟨'t', rfl, by decide⟩, ⟨'e', rfl, by decide⟩⟩
  unfold text
  split
  · exact htype.around s.isSolid_pairText " "
  · exact s.isSolid_pairText

theorem unmarked : Unmarked s.text := by
  have htype : Unmarked "type " := .of_all (by decide)
  have has : Unmarked " as " := .of_all (by decide)
  have hpair : Unmarked s.pairText := by
    unfold pairText
    split
    · exact (s.name.unmarked.append has).append (Identifier.unmarked _)
    · exact s.name.unmarked
  unfold text
  split
  · exact htype.append hpair
  · exact hpair

theorem bracedName?_of_pairText {piece : String}
    (hpiece : (dropHead? (trim piece) "type ").getD (trim piece) = s.pairText) :
    (bracedName? piece).map (·.1) = some s.name.text := by
  cases hgiven : s.given with
  | none =>
    have hpair : s.pairText = s.name.text := by rw [pairText, hgiven]
    have hcount : s.pairText.toList.count ' ' < " as ".toList.count ' ' := by
      rw [hpair, count_eq_zero_of_not_mem s.name.space_notMem]
      decide
    rw [bracedName?_of_not_splitOnce? s.isSolid_pairText hpiece (splitOnce?_eq_none hcount), Option.map_some, hpair]
  | some given =>
    have hsplit : splitOnce? s.pairText " as " = some (s.name.text, given.text) := by
      rw [pairText, hgiven]
      exact splitOnce?_append (c := ' ') (w := "as ") s.name.space_notMem given.text
    rw [bracedName?_of_splitOnce? s.isSolid_pairText hpiece hsplit, Option.map_some, s.name.isSolid.trim_eq]

/-- The word `type` stands before a pair only if it is the name and another is given to it. -/
theorem eq_type_of_dropHead? {rest : String} (h : dropHead? s.pairText "type " = some rest) :
    s.name.text = "type" ∧ ∃ given, s.given = some given ∧ rest = "as " ++ given.text := by
  have hcut : breakAt? [' '] s.pairText.toList = some ("type".toList, rest.toList) := by
    have htype : ' ' ∉ "type".toList := by decide
    rw [dropHead?_eq_some_iff.1 h, String.toList_append]
    exact breakAt?_singleton_append htype rest.toList
  cases hgiven : s.given with
  | none =>
    rw [pairText, hgiven, breakAt?_singleton_eq_none s.name.space_notMem] at hcut
    cases hcut
  | some given =>
    have hlist : s.pairText.toList = s.name.text.toList ++ ' ' :: ("as " ++ given.text).toList := by
      rw [pairText, hgiven]
      simp
    -- the first space ends the word `type` and the name as well
    rw [hlist, breakAt?_singleton_append s.name.space_notMem, Option.some.injEq, Prod.mk.injEq, String.toList_inj,
      String.toList_inj] at hcut
    exact ⟨hcut.1, given, rfl, hcut.2.symm⟩

theorem dropHead?_of_renamesType (h : s.renamesType = true) : ∃ rest, dropHead? s.pairText "type " = some rest := by
  simp only [renamesType, Bool.and_eq_true, beq_iff_eq, Option.isSome_iff_exists] at h
  obtain ⟨⟨-, hname⟩, given, hgiven⟩ := h
  refine ⟨"as " ++ given.text, dropHead?_eq_some_iff.2 ?_⟩
  rw [pairText, hgiven, hname, ← String.toList_inj]
  simp

theorem readName_eq_name (h : s.renamesType = false) : s.readName = s.name.text := by
  unfold readName
  split
  · rw [h]
    rfl
  · rfl

/-- **The name that is read from a specifier**, with white space around it. -/
theorem bracedName?_padded (before after : Blanks) :
    (bracedName? (before.text ++ s.text ++ after.text)).map (·.1) = some s.readName := by
  have htrim := s.isSolid_text.trim_padded before.isBlank_of_mem after.isBlank_of_mem
  cases htype : s.typeOnly with
  | true =>
    have hdrop : dropHead? s.text "type " = some s.pairText := by
      rw [dropHead?_eq_some_iff, text, htype]
      rfl
    rw [s.bracedName?_of_pairText (by rw [htrim, hdrop]; rfl), s.readName_eq_name (by simp [renamesType, htype])]
  | false =>
    have htext : s.text = s.pairText := by
      rw [text, htype]
      rfl
    cases hdrop : dropHead? s.pairText "type " with
    | none =>
      have hname : s.renamesType = false := by
        by_contra h
        obtain ⟨rest, hrest⟩ := s.dropHead?_of_renamesType (by simpa using h)
        rw [hdrop] at hrest
        cases hrest
      rw [s.bracedName?_of_pairText (by rw [htrim, htext, hdrop]; rfl), s.readName_eq_name hname]
    | some rest =>
      obtain ⟨hname, given, hgiven, hrest⟩ := s.eq_type_of_dropHead? hdrop
      have hsolid : IsSolid rest := by
        have has : IsSolid "as" := ⟨⟨'a', rfl, by decide⟩, ⟨'s', rfl, by decide⟩⟩
        rw [hrest]
        exact has.around given.isSolid " "
      -- one space is left, and ` as ` has two
      have hcount : rest.toList.count ' ' < " as ".toList.count ' ' := by
        rw [hrest, String.toList_append, count_append, count_eq_zero_of_not_mem given.space_notMem]
        decide
      have hread : s.readName = rest := by simp [readName, renamesType, htype, hname, hgiven, hrest]
      rw [bracedName?_of_not_splitOnce? hsolid (by rw [htrim, htext, hdrop]; rfl) (splitOnce?_eq_none hcount), hread]
      rfl

end Specifier

/-! ## Brace lists -/

namespace SpecifierList

variable (list : SpecifierList)

theorem notMem_text {c : Char} (hmark : isMark c = true) (hne : c ≠ ',') : c ∉ list.text.toList := by
  have hpiece (before : Blanks) (s : Specifier) (after : Blanks) : c ∉ (before.text ++ s.text ++ after.text).toList :=
    ((before.unmarked.append s.unmarked).append after.unmarked).notMem hmark
  induction list with
  | blank space => exact space.unmarked.notMem hmark
  | last before s after => exact hpiece before s after
  | cons before s after rest ih =>
    rw [text, String.toList_append, String.toList_append, mem_append, mem_append]
    rintro ((hc | hc) | hc)
    · exact hpiece before s after hc
    · exact hne (mem_singleton.1 hc)
    · exact ih hc

theorem filterMap_splitAt_text :
    ((splitAt ',' list.text).filterMap bracedName?).map (·.1) = list.specifiers.map (·.readName) := by
  have hcomma : isMark ',' = true := by decide
  have hpiece (before : Blanks) (s : Specifier) (after : Blanks) :
      ((splitAt ',' (before.text ++ s.text ++ after.text)).filterMap bracedName?).map (·.1) = [s.readName] := by
    have hunmarked := (before.unmarked.append s.unmarked).append after.unmarked
    obtain ⟨pair, hpair, hname⟩ := Option.map_eq_some_iff.1 (s.bracedName?_padded before after)
    rw [splitAt_eq_singleton (hunmarked.notMem hcomma), filterMap_cons_some hpair, ← hname]
    rfl
  induction list with
  | blank space =>
    have hnone : bracedName? space.text = none := by
      rw [bracedName?, trim_blanks space.isBlank_of_mem]
      decide
    rw [text, splitAt_eq_singleton (space.unmarked.notMem hcomma), filterMap_cons_none hnone]
    rfl
  | last before s after => exact hpiece before s after
  | cons before s after rest ih =>
    have hsplit : splitAt ',' (before.text ++ s.text ++ after.text ++ "," ++ rest.text) =
        splitAt ',' (before.text ++ s.text ++ after.text) ++ splitAt ',' rest.text := splitAt_append ',' _ _
    rw [text, hsplit, filterMap_append, map_append, hpiece, ih]
    rfl

end SpecifierList

theorem isSolid_braces (list : SpecifierList) : IsSolid (NamedPart.braces list).text := by
  have hopen : IsSolid "\x7b" := .singleton (c := '{') (by decide)
  have hclose : IsSolid "\x7d" := .singleton (c := '}') (by decide)
  exact hopen.around hclose list.text

/-- **A brace list is read specifier by specifier.** -/
theorem SpecifierList.bracedNames_braces (list : SpecifierList) :
    (bracedNames (NamedPart.braces list).text).map (·.1) = list.specifiers.map (·.readName) := by
  have hstart : trimStartWhere (· == '{') (NamedPart.braces list).text = list.text ++ "\x7d" := by
    rw [NamedPart.text, String.append_assoc]
    refine trimStartWhere_singleton_append (c := '{') ?_
    simp [list.notMem_text (c := '{') (by decide) (by decide)]
  have hstop : trimEndWhere (· == '}') (list.text ++ "\x7d") = list.text :=
    trimEndWhere_append_of_notMem (list.notMem_text (by decide) (by decide)) (by simp)
  rw [bracedNames, (isSolid_braces list).trim_eq, hstart, hstop, filterMap_splitAt_text]

/-! ## Whole clauses -/

theorem splitClause_eq_self {clause : String} (h : '{' ∉ clause.toList) : splitClause clause = .ok (clause, "") := by
  simp [splitClause, findWhere?, findWhereFrom?_eq_none (beq_eq_false_of_notMem h), pure, Except.pure]

theorem splitClause_braces {first : String} (h : '{' ∉ first.toList) (list : SpecifierList) :
    splitClause (first ++ (NamedPart.braces list).text) = .ok (first, (NamedPart.braces list).text) := by
  obtain ⟨rest, hrest⟩ : ∃ rest, (NamedPart.braces list).text.toList = '{' :: rest :=
    ⟨(list.text ++ "\x7d").toList, by simp [NamedPart.text]⟩
  obtain ⟨clause, hclause⟩ : ∃ clause, clause = first ++ (NamedPart.braces list).text := ⟨_, rfl⟩
  have hlist : clause.toList = first.toList ++ '{' :: rest := by rw [hclause, String.toList_append, hrest]
  have hfind : findWhere? (· == '{') clause = some first.utf8ByteSize := by
    rw [findWhere?, hlist, findWhereFrom?_append (by simp) (beq_eq_false_of_notMem h), Nat.zero_add, byteLength_toList]
  have hcut : cut? clause 0 first.utf8ByteSize = some first :=
    cut?_eq_some_iff.2 ⟨[], '{' :: rest, hlist, rfl, Nat.zero_add _⟩
  have hfrom : from? clause first.utf8ByteSize = some (NamedPart.braces list).text :=
    from?_eq_some_iff.2 ⟨first.toList, by rw [hlist, hrest], byteLength_toList first⟩
  rw [← hclause]
  simp [splitClause, hfind, textBetween, textFrom, hcut, hfrom, bind, Except.bind, pure, Except.pure]

def defaultName (first : String) : String := trim (trimEndWhere (· == ',') (trim first))

theorem defaultName_alone (name : Identifier) : defaultName name.text = name.text := by
  have hdrop : trimEndWhere (· == ',') (name.text ++ "") = name.text :=
    trimEndWhere_append_of_notMem (name.unmarked.notMem (by decide)) (by simp)
  rw [String.append_empty] at hdrop
  rw [defaultName, name.isSolid.trim_eq, hdrop, name.isSolid.trim_eq]

theorem defaultName_comma (name : Identifier) (before after : Blanks) :
    defaultName (name.text ++ before.text ++ "," ++ after.text) = name.text := by
  have hcomma : IsSolid "," := .singleton (c := ',') (by decide)
  have htrim : trim (name.text ++ before.text ++ "," ++ after.text) = name.text ++ before.text ++ "," :=
    (name.isSolid.around hcomma before.text).trim_append after.isBlank_of_mem
  have hdrop : trimEndWhere (· == ',') (name.text ++ before.text ++ ",") = name.text ++ before.text :=
    trimEndWhere_append_of_notMem ((name.unmarked.append before.unmarked).notMem (by decide)) (by simp)
  rw [defaultName, htrim, hdrop, name.isSolid.trim_append before.isBlank_of_mem]

namespace NamedPart

variable (part : NamedPart)

theorem isSolid : IsSolid part.text := by
  have hstar : IsSolid "*" := .singleton (c := '*') (by decide)
  cases part with
  | whole given => exact hstar.around given.isSolid " as "
  | braces list => exact isSolid_braces list

theorem star_mem_iff : '*' ∈ part.text.toList ↔ part.isWhole = true := by
  cases part with
  | whole given => simp [text, isWhole]
  | braces list => simp [text, isWhole, list.notMem_text (c := '*') (by decide) (by decide)]

end NamedPart

namespace Clause

variable (clause : Clause)

theorem isSolid : IsSolid clause.text := by
  cases clause with
  | byDefault name => exact name.isSolid
  | named part => exact part.isSolid
  | both name before after part =>
    have haround := name.isSolid.around part.isSolid (before.text ++ "," ++ after.text)
    simpa only [text, String.append_assoc] using haround

theorem star_mem_iff : '*' ∈ clause.text.toList ↔ clause.isWhole = true := by
  have hmark : isMark '*' = true := by decide
  cases clause with
  | byDefault name => simp [text, isWhole, name.unmarked.notMem hmark]
  | named part => exact part.star_mem_iff
  | both name before after part =>
    simp [text, isWhole, name.unmarked.notMem hmark, before.unmarked.notMem hmark, after.unmarked.notMem hmark,
      part.star_mem_iff]

/-- **A clause is cut before its brace list**, and both parts are read. -/
theorem exists_splitClause {clause : Clause} (h : clause.isWhole = false) :
    ∃ first braces, splitClause clause.text = .ok (first, braces) ∧ (defaultName first).isEmpty = !clause.hasDefault ∧
      (bracedNames braces).map (·.1) = clause.specifiers.map (·.readName) := by
  have hbrace : isMark '{' = true := by decide
  cases clause with
  | byDefault name =>
    have hnames : bracedNames "" = [] := by decide
    refine ⟨name.text, "", splitClause_eq_self (name.unmarked.notMem hbrace), ?_, by rw [hnames]; rfl⟩
    simp [defaultName_alone, hasDefault, name.nonempty]
  | named part =>
    cases part with
    | whole given => cases h
    | braces list =>
      have hempty : defaultName "" = "" := by decide
      have hsplit : splitClause ("" ++ (NamedPart.braces list).text) = .ok ("", (NamedPart.braces list).text) :=
        splitClause_braces (by simp) list
      rw [String.empty_append] at hsplit
      exact ⟨"", _, hsplit, by rw [hempty]; rfl, list.bracedNames_braces⟩
  | both name before after part =>
    cases part with
    | whole given => cases h
    | braces list =>
      have hfirst : '{' ∉ (name.text ++ before.text ++ "," ++ after.text).toList := by
        simp [name.unmarked.notMem hbrace, before.unmarked.notMem hbrace, after.unmarked.notMem hbrace]
      refine ⟨_, _, splitClause_braces hfirst list, ?_, list.bracedNames_braces⟩
      simp [defaultName_comma, hasDefault, name.nonempty]

structure Reading (result : Except Fault ImportedNames) : Prop where
  /-- Everything is asked for exactly if the clause has a star. -/
  everything : result = .ok .everything ↔ clause.isWhole = true
  /-- Else the names of the specifiers are, as they are read, and the default if the clause has one. -/
  names : clause.isWhole = false → ∃ set, result = .ok (.names set) ∧ ∀ name, name ∈ set ↔
    (∃ s ∈ clause.specifiers, name = s.readName) ∨ (name = "default" ∧ clause.hasDefault = true)
  /-- These are the names that the specifiers have, unless one gives another name to `type`. -/
  original : clause.isWhole = false → (∀ s ∈ clause.specifiers, s.renamesType = false) →
    ∃ set, result = .ok (.names set) ∧ ∀ name, name ∈ set ↔
      (∃ s ∈ clause.specifiers, name = s.name.text) ∨ (name = "default" ∧ clause.hasDefault = true)

variable {clause} {text : String} (htrim : trim text = clause.text)
include htrim

theorem clauseNames_of_isWhole (h : clause.isWhole = true) : clauseNames text = .ok .everything := by
  have hstar : '*' ∈ (trim text).toList := by rw [htrim, clause.star_mem_iff, h]
  simp [clauseNames, containsChar, hstar, pure, Except.pure]

theorem exists_clauseNames (h : clause.isWhole = false) :
    ∃ set, clauseNames text = .ok (.names set) ∧ ∀ name, name ∈ set ↔
      (∃ s ∈ clause.specifiers, name = s.readName) ∨ (name = "default" ∧ clause.hasDefault = true) := by
  have hstar : '*' ∉ (trim text).toList := by
    rw [htrim, clause.star_mem_iff, h]
    decide
  obtain ⟨first, braces, hsplit, hdefault, hnames⟩ := exists_splitClause h
  have hread : clauseNames text = .ok (.ofList ((if (defaultName first).isEmpty then [] else ["default"]) ++
      (bracedNames braces).map (·.1))) := by
    rw [htrim] at hstar
    simp [clauseNames, containsChar, htrim, hstar, hsplit, bind, Except.bind, pure, Except.pure, defaultName]
  rw [hread, hdefault, hnames]
  refine ⟨_, rfl, fun name => ?_⟩
  rw [NameSet.mem_ofList, mem_append, or_comm, mem_map]
  cases clause.hasDefault <;> simp [eq_comm]

end Clause

end EcmaScript

/-- **What is read from a clause**, with white space around it: everything if it has a star, and else the names of its
specifiers, and the default if it has one. -/
theorem clauseNames_reading (lead trail : EcmaScript.Blanks) (clause : EcmaScript.Clause) :
    clause.Reading (EcmaScript.clauseNames (lead.text ++ clause.text ++ trail.text)) := by
  have htrim := clause.isSolid.trim_padded lead.isBlank_of_mem trail.isBlank_of_mem
  cases hwhole : clause.isWhole with
  | true =>
    rw [EcmaScript.Clause.clauseNames_of_isWhole htrim hwhole]
    exact ⟨by simp [hwhole], by simp [hwhole], by simp [hwhole]⟩
  | false =>
    obtain ⟨set, hset, hnames⟩ := EcmaScript.Clause.exists_clauseNames htrim hwhole
    rw [hset]
    refine ⟨by simp [hwhole], fun _ => ⟨set, rfl, hnames⟩, fun _ hplain => ⟨set, rfl, fun name => ?_⟩⟩
    rw [hnames]
    refine or_congr_left (exists_congr fun s => and_congr_right fun hs => ?_)
    rw [s.readName_eq_name (hplain s hs)]

/-- A name `type` that gets another one is taken for the mark of a type, and is not asked for. -/
theorem clauseNames_renamed_type :
    let s : EcmaScript.Specifier := ⟨false, { text := "type" }, some { text := "t" }⟩
    let clause : EcmaScript.Clause := .named (.braces (.last { text := " " } s { text := " " }))
    clause.text = "\x7b type as t \x7d" ∧ EcmaScript.clauseNames clause.text = .ok (.ofList ["as t"]) ∧
      (ImportedNames.ofList ["as t"]).contains s.name.text = false :=
  ⟨by decide +kernel, by decide +kernel, by decide +kernel⟩

end Deadwood
