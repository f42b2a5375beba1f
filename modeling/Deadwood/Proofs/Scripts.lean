import Deadwood.Proofs.Readers

/-!
# What stops the reader of scripts

The reader of scripts cuts the code at one place that need not lie between characters: where an object that is
assigned to `exports` has no closing brace, the last byte of the code stands for it.

* `EcmaScript.yields_read`, **`EcmaScript.read_eq_ok_iff`**: this stops the reader, and nothing else does.
-/

namespace Deadwood

open List Text

variable {excuse : Prop} {m : MaskedSource} {last : Nat}

theorem Text.IsBoundary.not_within {s : String} {n : Nat} (h : IsBoundary s n) {head tail : List Char} {c : Char}
    (hs : s.toList = head ++ c :: tail) : n ≤ byteLength head ∨ byteLength head + c.utf8Size ≤ n := by
  obtain ⟨front, back, hfront, rfl⟩ := h
  rw [hs] at hfront
  rcases append_eq_append_iff.1 hfront with ⟨part, rfl, hpart⟩ | ⟨part, rfl, -⟩
  · cases part with
    | nil => simp
    | cons d part =>
      obtain ⟨rfl, -⟩ := List.cons.inj hpart
      simp only [byteLength_append, byteLength_cons]
      omega
  · simp

namespace EcmaScript

/-! ## Imports -/

theorem yields_splitClause (clause : String) : Yields excuse (splitClause clause) fun _ => True := by
  unfold splitClause
  split
  · rename_i brace hbrace
    have h := isBoundary_findWhere? hbrace
    refine (yields_textBetween (Nat.zero_le _) (isBoundary_zero clause) h).bind fun _ _ => ?_
    exact (yields_textFrom h).bind fun _ _ => yields_pure.2 trivial
  · exact yields_pure.2 trivial

theorem yields_clauseNames (clause : String) : Yields excuse (clauseNames clause) fun _ => True := by
  unfold clauseNames
  dsimp only
  split
  · exact yields_pure.2 trivial
  · exact (yields_splitClause _).bind fun _ _ => yields_pure.2 trivial

theorem yields_importDeclarations (hm : m.Fits last) :
    Yields excuse (importDeclarations m) (∀ found ∈ ·, found.1.Within last) := by
  unfold importDeclarations
  refine yields_eachMatch fun hit _ => (yields_clauseNames _).bind fun names _ => yields_pure.2 ?_
  exact forall_mem_singleton.2 (hm.isLine hit.start)

theorem within_exportsFrom (hm : m.Fits last) : ∀ f ∈ exportsFrom m, f.Within last := by
  unfold exportsFrom
  refine forall_mem_flatMap.2 fun hit _ => ?_
  have hline := hm.isLine hit.start
  dsimp only
  split
  · refine forall_mem_append.2 ⟨?_, forall_mem_singleton.2 hline⟩
    split
    · exact forall_mem_singleton.2 hline
    · exact nofun
  · exact forall_mem_append.2 ⟨forall_mem_map.2 fun _ _ => hline, forall_mem_singleton.2 hline⟩

theorem within_loadCalls (hm : m.Fits last) (taken : List Span) : ∀ f ∈ loadCalls m taken, f.Within last := by
  unfold loadCalls
  intro f hf
  obtain ⟨hit, -, hhit⟩ := mem_filterMap.1 hf
  split at hhit
  · cases hhit
  · cases hhit
    exact hm.isLine hit.start

theorem yields_imports (hm : m.Fits last) : Finds excuse last (imports m) := by
  unfold imports
  refine (yields_importDeclarations hm).bind fun declared hdeclared => yields_pure.2 ?_
  have hbare : ∀ f ∈ bareImports m, f.Within last := by
    unfold bareImports
    exact forall_mem_map.2 fun hit _ => hm.isLine hit.start
  have hrequires : ∀ found ∈ destructuredRequires m, found.1.Within last := by
    unfold destructuredRequires
    exact forall_mem_map.2 fun hit _ => hm.isLine hit.start
  simp only [forall_mem_append]
  exact ⟨⟨⟨⟨forall_mem_map.2 hdeclared, hbare⟩, within_exportsFrom hm⟩, forall_mem_map.2 hrequires⟩,
    within_loadCalls hm _⟩

/-! ## Declarations -/

theorem yields_defaultable (hm : m.Fits last) (depths : List Nat) (head : Pattern) (kind : EntityKind)
    (wrap : Entity → Finding) (hwrap : ∀ e : Entity, e.Within last → (wrap e).Within last) :
    Finds excuse last (defaultable m depths head kind wrap) := by
  unfold defaultable
  refine hm.yields_outermost fun hit _ => ?_
  have hentity := hm.within_entity (hit.groupText 3) kind hit.start hit.start
  dsimp only
  split
  · refine yields_pure.2 (forall_mem_cons.2 ⟨hm.isLine hit.start, ?_⟩)
    exact forall_mem_singleton.2 (hwrap _ hentity)
  · exact yields_singleton (hwrap _ hentity)

theorem yields_types (hm : m.Fits last) (typed : Bool) (depths : List Nat) :
    Finds excuse last (types typed m depths) := by
  unfold types
  split
  · exact hm.yields_outermost fun hit _ =>
      yields_singleton (hm.within_entity _ _ hit.start hit.start)
  · exact yields_pure.2 nofun

theorem yields_declaredVariables (hm : m.Fits last) (depths : List Nat) :
    Finds excuse last (declaredVariables m depths) := by
  unfold declaredVariables
  refine hm.yields_outermost fun hit hhit => ?_
  have hstop := (Pattern.found_of_mem_findAll hhit).whole.isBoundary_stop
  refine (yields_textFrom hstop).bind fun rest _ => ?_
  dsimp only
  split
  · exact yields_singleton (hm.within_entity _ _ hit.start hit.start)
  · split
    · exact yields_singleton (hm.isLine hit.start)
    · exact yields_pure.2 nofun

/-! ## Objects assigned to `exports` -/

theorem exportsObject_groups : exportsObject.groups = [(1, .one (Pattern.single '{'))] := by decide +kernel

theorem brace_spec {code : String} {hit : Match} {brace : Span} (hhit : hit ∈ exportsObject.findAll code)
    (hbrace : hit.group? 1 = some brace) :
    ∃ head tail, code.toList = head ++ '{' :: tail ∧ byteLength head = brace.start := by
  obtain ⟨body, here, there, captures, hbody, ⟨head, hhead⟩, htakes, -, hstart, -⟩ :=
    (Pattern.found_of_mem_findAll hhit).group hbrace
  rw [exportsObject_groups] at hbody
  obtain rfl : body = .one (Pattern.single '{') := by simpa using hbody
  cases htakes with
  | @one _ _ c cs hrest hc =>
    obtain rfl : c = '{' := by
      have hrange : '{' ≤ c ∧ c ≤ '{' := by simpa [Pattern.single, CharClass.holds, ClassItem.holds] using hc
      exact Char.le_antisymm hrange.2 hrange.1
    refine ⟨head, cs, hrest ▸ hhead.rest_eq, ?_⟩
    simpa [Cursor.start, ← hstart] using hhead.offset_eq.symm

/-- An object that is assigned to `exports` has no closing brace. -/
def HasOpenObject (code : String) : Prop :=
  ∃ hit ∈ exportsObject.findAll code, ∃ brace ∈ hit.group? 1, blockEnd? code brace.start = none

def EndsWide (code : String) : Prop := ∃ c ∈ code.toList.getLast?, 1 < c.utf8Size

/-- The code has an object without a closing brace, and its last byte does not start a character. -/
def LeavesObjectOpen (code : String) : Prop := HasOpenObject code ∧ EndsWide code

instance (code : String) : Decidable (HasOpenObject code) :=
  decidable_of_iff ((exportsObject.findAll code).any fun hit =>
      (hit.group? 1).any fun brace => (blockEnd? code brace.start).isNone)
    (by simp [HasOpenObject, Option.any_eq_true])

instance (code : String) : Decidable (EndsWide code) :=
  decidable_of_iff (code.toList.getLast?.any (1 < ·.utf8Size)) (by simp [EndsWide, Option.any_eq_true])

theorem isBoundary_behind {code : String} {head tail : List Char} (h : code.toList = head ++ '{' :: tail) :
    Text.IsBoundary code (byteLength head + 1) := by
  have hbrace : '{'.utf8Size = 1 := rfl
  exact ⟨head ++ ['{'], tail, by simp [h], by simp [hbrace]⟩

theorem isBoundary_lastByte_iff {code : String} {head tail : List Char} (hcode : code.toList = head ++ '{' :: tail) :
    Text.IsBoundary code (max (code.utf8ByteSize - 1) (byteLength head + 1)) ↔ ¬ EndsWide code := by
  obtain ⟨front, c, hlast⟩ : ∃ front c, code.toList = front ++ [c] :=
    ⟨_, _, (dropLast_concat_getLast (by rw [hcode]; simp)).symm⟩
  have hbrace : '{'.utf8Size = 1 := rfl
  have hbehind := isBoundary_behind hcode
  have hsize : code.utf8ByteSize = byteLength front + c.utf8Size := by
    rw [← byteLength_toList, hlast]
    simp
  rw [show EndsWide code ↔ 1 < c.utf8Size by simp [EndsWide, hlast], not_lt]
  constructor
  · intro hstop
    rcases hbehind.not_within hlast with hle | hge
    · have hc := c.utf8Size_pos
      rw [Nat.max_eq_left (by omega)] at hstop
      rcases hstop.not_within hlast with h | h <;> omega
    · -- the brace is the last character
      have htail : tail = [] := by
        rw [← byteLength_eq_zero_iff]
        have hsize' : code.utf8ByteSize = byteLength head + (1 + byteLength tail) := by
          rw [← byteLength_toList, hcode, byteLength_append, byteLength_cons, hbrace]
        omega
      rw [hcode, htail] at hlast
      obtain ⟨-, hc⟩ := append_inj' hlast rfl
      simp only [List.cons.injEq, and_true] at hc
      exact hc ▸ hbrace.le
  · intro hone
    have hc := c.utf8Size_pos
    have hbefore : Text.IsBoundary code (code.utf8ByteSize - 1) := ⟨front, [c], hlast, by omega⟩
    exact hbefore.max hbehind

/-- **When the body of an object can be cut out.** -/
theorem objectBody_eq_ok_iff {code : String} {head tail : List Char} (hcode : code.toList = head ++ '{' :: tail) :
    (∃ body, objectBody code (byteLength head) = .ok body) ↔
      ¬ (blockEnd? code (byteLength head) = none ∧ EndsWide code) := by
  have hbehind := isBoundary_behind hcode
  have hminus : minus code.utf8ByteSize 1 = .ok (code.utf8ByteSize - 1) :=
    if_pos (Nat.le_trans (Nat.le_add_left 1 _) hbehind.le_size)
  unfold objectBody
  rw [hminus]
  refine textBetween_eq_ok_iff.trans ?_
  cases hend : blockEnd? code (byteLength head) with
  | some n =>
    exact iff_of_true ⟨Nat.le_max_right _ _, hbehind, (isBoundary_blockEnd? hend).max hbehind⟩ (by simp)
  | none =>
    simp only [Option.getD_none, true_and]
    rw [← isBoundary_lastByte_iff hcode]
    exact ⟨fun h => h.2.2, fun h => ⟨Nat.le_max_right _ _, hbehind, h⟩⟩

theorem yields_exportsObjects (hm : m.Fits last) : Finds (LeavesObjectOpen m.code) last (exportsObjects m) := by
  unfold exportsObjects
  refine yields_eachMatch fun hit hhit => ?_
  dsimp only
  split
  · exact yields_singleton (hm.isLine hit.start)
  · rename_i brace hbrace
    obtain ⟨head, tail, hcode, hstart⟩ := brace_spec hhit hbrace
    have hbody : Yields (LeavesObjectOpen m.code) (objectBody m.code brace.start) fun _ => True := by
      refine ⟨fun _ _ => trivial, fun fault hfault => ?_⟩
      have hnone : ¬ ∃ body, objectBody m.code (byteLength head) = .ok body := by
        rw [hstart, hfault]
        exact nofun
      obtain ⟨hend, hlast⟩ := Classical.not_not.1 (mt (objectBody_eq_ok_iff hcode).2 hnone)
      exact ⟨⟨hit, hhit, brace, hbrace, hstart ▸ hend⟩, hlast⟩
    exact hbody.bind fun body _ => yields_pure.2 (forall_mem_map.2 fun _ _ => hm.isLine hit.start)

theorem not_open_of_exportsObjects {found : List Finding} (h : exportsObjects m = .ok found) :
    ¬ LeavesObjectOpen m.code := by
  rintro ⟨⟨hit, hhit, brace, hbrace, hend⟩, hlast⟩
  obtain ⟨head, tail, hcode, hstart⟩ := brace_spec hhit hbrace
  obtain ⟨added, hadded⟩ := exists_ok_of_eachMatch h hhit
  rw [hbrace] at hadded
  cases hbody : objectBody m.code brace.start with
  | error fault =>
    simp only [hbody] at hadded
    cases hadded
  | ok body => exact (objectBody_eq_ok_iff hcode).1 ⟨body, hstart ▸ hbody⟩ ⟨hstart ▸ hend, hlast⟩

theorem yields_exports (hm : m.Fits last) : Finds (LeavesObjectOpen m.code) last (exports m) := by
  unfold exports
  refine (yields_exportsObjects hm).bind fun objects hobjects => yields_pure.2 ?_
  simp only [forall_mem_append]
  refine ⟨⟨⟨forall_mem_map.2 fun hit _ => hm.isLine hit.start, forall_mem_flatMap.2 fun hit _ => ?_⟩,
    forall_mem_map.2 fun hit _ => hm.isLine hit.start⟩, hobjects⟩
  split
  · exact nofun
  · exact forall_mem_map.2 fun _ _ => hm.isLine hit.start

/-! ## Whole texts -/

theorem yields_findings (hm : m.Fits last) (typed : Bool) :
    Finds (LeavesObjectOpen m.code) last (findings typed m) := by
  unfold findings
  refine (yields_imports hm).bind fun imports himports => ?_
  refine (yields_defaultable hm _ functionHead .function .function fun _ he => he).bind fun functions hfunctions => ?_
  refine (yields_defaultable hm _ classHead .class_ .type fun _ he => he).bind fun classes hclasses => ?_
  refine (yields_types hm typed _).bind fun types htypes => ?_
  refine (yields_declaredVariables hm _).bind fun variables_ hvariables => ?_
  refine (yields_exports hm).bind fun exports hexports => yields_pure.2 ?_
  simp only [forall_mem_append]
  exact ⟨⟨⟨⟨⟨himports, hfunctions⟩, hclasses⟩, htypes⟩, hvariables⟩, hexports⟩

theorem yields_findings_not_open (m : MaskedSource) (typed : Bool) :
    Yields True (findings typed m) fun _ => ¬ LeavesObjectOpen m.code := by
  have hpass {β : Type} {x : Except Fault β} : Yields True x fun _ => True := .of_excuse trivial x
  have hobjects : Yields True (exportsObjects m) fun _ => ¬ LeavesObjectOpen m.code :=
    ⟨fun _ hfound => not_open_of_exportsObjects hfound, fun _ _ => trivial⟩
  have hexports : Yields True (exports m) fun _ => ¬ LeavesObjectOpen m.code := by
    unfold exports
    exact hobjects.bind fun _ h => yields_pure.2 h
  unfold findings
  refine hpass.bind fun _ _ => hpass.bind fun _ _ => hpass.bind fun _ _ => hpass.bind fun _ _ => ?_
  exact hpass.bind fun _ _ => hexports.bind fun _ h => yields_pure.2 h

variable (typed : Bool) (place : Place) (text : String)
include typed place text

theorem yields_read : Summarizes (LeavesObjectOpen (mask .slashed false text)) text (read typed place text) := by
  have hm := MaskedSource.fits_ofText (by decide : Lexicon.slashed ∈ Lexicon.known) text
  unfold read
  refine (yields_findings hm typed).bind fun found hfound => yields_pure.2 ?_
  exact (Summary.WellFormed.of_findings hfound).of_lists

theorem yields_read_not_open :
    Yields True (read typed place text) fun _ => ¬ LeavesObjectOpen (mask .slashed false text) := by
  unfold read
  exact (yields_findings_not_open (.ofText .slashed text) typed).bind fun _ h => yields_pure.2 h

theorem read_eq_ok_iff :
    (∃ summary, read typed place text = .ok summary) ↔ ¬ LeavesObjectOpen (mask .slashed false text) := by
  constructor
  · rintro ⟨summary, h⟩
    exact (yields_read_not_open typed place text).of_ok summary h
  · intro hopen
    cases h : read typed place text with
    | ok summary => exact ⟨summary, rfl⟩
    | error fault => exact absurd ((yields_read typed place text).of_error fault h) hopen

end EcmaScript

/-! ## Documents -/

theorem Span.IsPieceOf.lineOf_add_feeds_le {span : Span} {s : String} (h : span.IsPieceOf s) :
    (Text.LineIndex.ofText s).lineOf span.start + feeds span.text ≤ 1 + feeds s := by
  obtain ⟨head, tail, hs, hstart, -⟩ := cut?_eq_some_iff.1 h
  have hline := Text.LineIndex.lineOf_byteLength hs
  have hfeeds : feeds s = _ := congrArg (countP (· == '\n')) hs
  have hpiece : feeds span.text = span.text.toList.countP (· == '\n') := rfl
  rw [hstart] at hline
  rw [countP_append, countP_append] at hfeeds
  omega

namespace Markup

def scriptOf (hit : Match) : Span := (hit.group? 1).getD hit.whole

/-- A script within the document leaves an object open. -/
def HasOpenScript (text : String) : Prop :=
  ∃ hit ∈ inlineScript.findAll (mask .html true text),
    EcmaScript.LeavesObjectOpen (mask .slashed false (scriptOf hit).text)

theorem yields_references (text masked : String) :
    Finds excuse (1 + feeds text) (references (.ofText text) masked) := by
  unfold references
  refine yields_eachMatch fun hit _ => (yields_localPath? _).bind fun path _ => ?_
  split
  · exact yields_pure.2 nofun
  · split
    · exact yields_pure.2 nofun
    · exact yields_singleton (isLine_lineOf text hit.start)

theorem yields_scriptImports (place : Place) (text : String) :
    Finds (HasOpenScript text) (1 + feeds text) (scriptImports place (.ofText text) (mask .html true text)) := by
  have hregular := Lexicon.regular_of_known (by decide : Lexicon.html ∈ Lexicon.known)
  unfold scriptImports
  refine yields_eachMatch fun hit hhit => ?_
  have hpiece : (scriptOf hit).IsPieceOf (mask .html true text) :=
    (Pattern.found_of_mem_findAll hhit).isPieceOf_getD 1
  have hlines := hpiece.lineOf_add_feeds_le
  rw [Text.LineIndex.ofText_mask hregular, feeds_mask hregular] at hlines
  have habove := Text.LineIndex.one_le_lineOf text (scriptOf hit).start
  dsimp only
  split
  · exact yields_pure.2 nofun
  · refine (yields_minus habove).bind fun above habove => ?_
    have hscript := EcmaScript.yields_read false place (scriptOf hit).text
    refine (hscript.weaken fun hopen => ⟨hit, hhit, hopen⟩).bind fun script hscript => yields_pure.2 ?_
    refine forall_mem_map.2 fun i hi => ?_
    obtain ⟨hfirst, hlast⟩ := hscript.import_line i hi
    exact ⟨by simp only; omega, by simp only; omega⟩

theorem yields_readDocument (place : Place) (text : String) :
    Summarizes (HasOpenScript text) text (readDocument place text) := by
  unfold readDocument
  refine (yields_references text _).bind fun references hreferences => ?_
  refine (yields_scriptImports place text).bind fun scripts hscripts => yields_pure.2 ?_
  exact Summary.WellFormed.of_findings (forall_mem_append.2 ⟨hreferences, hscripts⟩)

end Markup

end Deadwood
