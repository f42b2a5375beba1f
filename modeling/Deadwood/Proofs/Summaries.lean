import Deadwood.Dialect.Basic
import Deadwood.Proofs.Lines
import Deadwood.Proofs.Matching
import Mathlib.Data.List.TakeWhile

/-!
# Well-formed summaries

A summary is well formed for a text of so many lines if its names can be told apart and found, and
if its lines are lines of the text. Recording a finding keeps this, whatever was found before.
-/

namespace Deadwood

open Text List

variable {p : Pattern} {text : String} {α : Type} {excuse : Prop}

/-! ## Findings -/

def IsLine (last line : Nat) : Prop := 1 ≤ line ∧ line ≤ last

def Entity.Within (last : Nat) (e : Entity) : Prop :=
  1 ≤ e.startLine ∧ e.startLine ≤ e.endLine ∧ e.endLine ≤ last

def Finding.Within (last : Nat) : Finding → Prop
  | .function e => e.Within last
  | .type e => e.Within last
  | .exported _ line => IsLine last line
  | .imported i => IsLine last i.line

theorem Entity.within_withSpan {last endLine byteSize : Nat} {e : Entity} (hstart : IsLine last e.startLine)
    (hend : endLine ≤ last) : (e.withSpan endLine byteSize).Within last :=
  ⟨hstart.1, Nat.le_max_right _ _, Nat.max_le.2 ⟨hend, hstart.2⟩⟩

/-! ## Summaries -/

/-- The summary of a text of `last` lines has what its users rely on. -/
structure Summary.WellFormed (last : Nat) (s : Summary) : Prop where
  export_named : ∀ e ∈ s.exports, e.name ≠ ""
  export_once : (s.exports.map (·.name)).Nodup
  export_listed : ∀ e ∈ s.functions ++ s.types, e.exported = true → e.name ≠ "" → ∃ x ∈ s.exports, x.name = e.name
  target_named : ∀ i ∈ s.imports, ∃ c ∈ i.target.toList, isBlank c = false
  export_line : ∀ e ∈ s.exports, IsLine last e.line
  import_line : ∀ i ∈ s.imports, IsLine last i.line
  entity_within : ∀ e ∈ s.functions ++ s.types, e.Within last

theorem exists_not_blank_of_trim {s : String} (h : (trim s).isEmpty = false) :
    ∃ c ∈ s.toList, isBlank c = false := by
  refine Classical.byContradiction fun hall => ?_
  simp only [not_exists, not_and, Bool.not_eq_false] at hall
  have hnil : s.toList.dropWhile isBlank = [] := dropWhile_eq_nil_iff.2 hall
  rw [trim, trimWhere, hnil] at h
  cases h

theorem Summary.exports_addExport (s : Summary) (name : String) (line : Nat) :
    (∀ x ∈ s.exports, x ∈ (s.addExport name line).exports) ∧
      (name ≠ "" → ∃ x ∈ (s.addExport name line).exports, x.name = name) := by
  unfold addExport
  split
  · rename_i h
    refine ⟨fun _ hx => hx, fun hname => ?_⟩
    simpa [hname] using h
  · exact ⟨fun x hx => mem_append_left _ hx, fun _ => ⟨⟨name, line⟩, by simp, rfl⟩⟩

theorem Summary.lists_addExport_if (s : Summary) (e : Entity) :
    (if e.exported then s.addExport e.name e.startLine else s).functions = s.functions ∧
      (if e.exported then s.addExport e.name e.startLine else s).types = s.types ∧
      (if e.exported then s.addExport e.name e.startLine else s).imports = s.imports := by
  unfold addExport
  split
  · split <;> exact ⟨rfl, rfl, rfl⟩
  · exact ⟨rfl, rfl, rfl⟩

namespace Summary.WellFormed

variable {last : Nat} {s t : Summary} {findings : List Finding}

theorem empty (last : Nat) : WellFormed last {} where
  export_named := nofun
  export_once := nodup_nil
  export_listed := nofun
  target_named := nofun
  export_line := nofun
  import_line := nofun
  entity_within := nofun

section

variable (h : s.WellFormed last)
include h

theorem of_lists {references annotations calls : NameSet} {package : Option String} {entryFunction testFile : Bool}
    {extras : List (String × String)} :
    WellFormed last ⟨s.functions, s.types, s.exports, s.imports, references, package, entryFunction, testFile,
      annotations, calls, extras⟩ :=
  ⟨h.export_named, h.export_once, h.export_listed, h.target_named, h.export_line, h.import_line, h.entity_within⟩

theorem addExport (name : String) {line : Nat} (hline : IsLine last line) :
    (s.addExport name line).WellFormed last := by
  have hkeep := (s.exports_addExport name line).1
  unfold Summary.addExport at hkeep ⊢
  split
  · exact h
  · rename_i hnew
    rw [if_neg hnew] at hkeep
    simp only [Bool.or_eq_true, String.isEmpty_iff, any_eq_true, beq_iff_eq, not_or, not_exists, not_and] at hnew
    obtain ⟨hname, hfresh⟩ := hnew
    exact
      { h with
        export_named := forall_mem_append.2 ⟨h.export_named, by simpa using hname⟩
        export_once := by
          rw [map_append, nodup_append]
          refine ⟨h.export_once, by simp, ?_⟩
          intro a ha b hb hab
          obtain ⟨x, hx, rfl⟩ := mem_map.1 ha
          exact hfresh x hx (hab.trans (by simpa using hb))
        export_listed := fun e he hexported hne =>
          let ⟨x, hx, heq⟩ := h.export_listed e he hexported hne
          ⟨x, hkeep x hx, heq⟩
        export_line := forall_mem_append.2 ⟨h.export_line, by simpa using hline⟩ }

theorem addEntity {e : Entity} (he : e.Within last)
    (hexports : t.exports = (if e.exported then s.addExport e.name e.startLine else s).exports)
    (himports : t.imports = s.imports) (hentities : ∀ x ∈ t.functions ++ t.types, x ∈ s.functions ++ s.types ∨ x = e) :
    t.WellFormed last := by
  have hline : IsLine last e.startLine := ⟨he.1, Nat.le_trans he.2.1 he.2.2⟩
  have hgrown : (if e.exported then s.addExport e.name e.startLine else s).WellFormed last := by
    split
    · exact h.addExport e.name hline
    · exact h
  have hgrowth := s.exports_addExport e.name e.startLine
  exact
    { export_named := hexports ▸ hgrown.export_named
      export_once := hexports ▸ hgrown.export_once
      export_listed := by
        intro x hx hexported hne
        rw [hexports]
        rcases hentities x hx with hx | rfl
        · obtain ⟨y, hy, hname⟩ := h.export_listed x hx hexported hne
          refine ⟨y, ?_, hname⟩
          split
          · exact hgrowth.1 y hy
          · exact hy
        · rw [if_pos hexported]
          exact hgrowth.2 hne
      target_named := himports ▸ h.target_named
      export_line := hexports ▸ hgrown.export_line
      import_line := himports ▸ h.import_line
      entity_within := fun x hx => (hentities x hx).elim (h.entity_within x) fun hxe => hxe ▸ he }

theorem addImport {i : Import} (hline : IsLine last i.line) : (s.addImport i).WellFormed last := by
  unfold Summary.addImport
  split
  · exact h
  · rename_i hblank
    have hname := exists_not_blank_of_trim (Bool.not_eq_true _ ▸ hblank)
    exact
      { h with
        target_named := forall_mem_append.2 ⟨h.target_named, by simpa using hname⟩
        import_line := forall_mem_append.2 ⟨h.import_line, by simpa using hline⟩ }

/-- **Recording one finding keeps a summary well formed.** -/
theorem record {finding : Finding} (hfinding : finding.Within last) : (s.record finding).WellFormed last := by
  cases finding with
  | function e =>
    obtain ⟨hfunctions, htypes, himports⟩ := s.lists_addExport_if e
    refine h.addEntity hfinding rfl himports ?_
    simp only [Summary.record, addFunction, hfunctions, htypes]
    grind
  | type e =>
    obtain ⟨hfunctions, htypes, himports⟩ := s.lists_addExport_if e
    refine h.addEntity hfinding rfl himports ?_
    simp only [Summary.record, addType, hfunctions, htypes]
    grind
  | exported name line => exact h.addExport name hfinding
  | imported i => exact h.addImport hfinding

theorem recordAll (hall : ∀ f ∈ findings, f.Within last) : (s.recordAll findings).WellFormed last := by
  induction findings generalizing s with
  | nil => exact h
  | cons finding findings ih =>
    obtain ⟨hfinding, hrest⟩ := forall_mem_cons.1 hall
    exact ih (h.record hfinding) hrest

end

theorem of_findings (h : ∀ f ∈ findings, f.Within last) : (Summary.recordAll {} findings).WellFormed last :=
  (empty last).recordAll h

end Summary.WellFormed

/-! ## Reading by matches -/

theorem yields_singleton {a : α} {Q : α → Prop} (h : Q a) : Yields excuse (pure [a]) (∀ a ∈ ·, Q a) :=
  yields_pure.2 (forall_mem_singleton.2 h)

theorem forall_mem_filterMap_map {β γ : Type} {as : List α} {f : α → Option β} {g : α → β → γ} {Q : γ → Prop}
    (h : ∀ a b, Q (g a b)) : ∀ x ∈ as.filterMap fun a => (f a).map (g a), Q x := by
  intro x hx
  obtain ⟨a, -, ha⟩ := mem_filterMap.1 hx
  obtain ⟨b, -, rfl⟩ := Option.map_eq_some_iff.1 ha
  exact h a b

theorem yields_eachMatch {add : Match → Except Fault (List α)} {Q : α → Prop}
    (h : ∀ hit ∈ p.findAll text, Yields excuse (add hit) (∀ a ∈ ·, Q a)) :
    Yields excuse (eachMatch p text add) (∀ a ∈ ·, Q a) :=
  (yields_mapM h).bind fun _ hfound => yields_pure.2 fun a ha =>
    let ⟨as, has, haas⟩ := mem_flatten.1 ha
    hfound as has a haas

theorem exists_ok_of_eachMatch {add : Match → Except Fault (List α)} {as : List α}
    (h : eachMatch p text add = .ok as) {hit : Match} (hhit : hit ∈ p.findAll text) : ∃ bs, add hit = .ok bs := by
  unfold eachMatch at h
  cases hall : (p.findAll text).mapM add with
  | error fault =>
    rw [hall] at h
    cases h
  | ok all => exact exists_ok_of_mapM hall hhit

/-- What is found is on the lines of a text of `last` lines. -/
abbrev Finds (excuse : Prop) (last : Nat) (found : Except Fault (List Finding)) : Prop :=
  Yields excuse found (∀ f ∈ ·, f.Within last)

/-- What is read is a well-formed summary of the text. -/
abbrev Summarizes (excuse : Prop) (text : String) (result : Except Fault Summary) : Prop :=
  Yields excuse result (·.WellFormed (1 + feeds text))

namespace MaskedSource

/-- The line numbers of the source are those of a text of `last` lines. -/
structure Fits (m : MaskedSource) (last : Nat) : Prop where
  isLine : ∀ offset, IsLine last (m.lineOf offset)
  lines_le : (lines m.code).length ≤ last

theorem fits_ofText {lexicon : Lexicon} (h : lexicon ∈ Lexicon.known) (text : String) :
    (ofText lexicon text).Fits (1 + feeds text) where
  isLine offset := ⟨LineIndex.one_le_lineOf text offset, LineIndex.lineOf_le text offset⟩
  lines_le := feeds_mask (Lexicon.regular_of_known h) false text ▸ length_lines_le _

variable {m : MaskedSource} {last : Nat}

theorem Fits.yields_depthAt (hm : m.Fits last) (depths : List Nat) (offset : Nat) :
    Yields excuse (m.depthAt depths offset) fun _ => True :=
  (yields_minus (hm.isLine offset).1).bind fun _ _ => yields_pure.2 trivial

theorem Fits.yields_outermost (hm : m.Fits last) {depths : List Nat} {p : Pattern}
    {add : Match → Except Fault (List α)} {Q : α → Prop}
    (h : ∀ hit ∈ p.findAll m.code, Yields excuse (add hit) (∀ a ∈ ·, Q a)) :
    Yields excuse (m.outermost depths p add) (∀ a ∈ ·, Q a) := by
  refine yields_eachMatch fun hit hhit => (hm.yields_depthAt depths hit.start).bind fun depth _ => ?_
  split
  · exact yields_pure.2 nofun
  · exact h hit hhit

theorem Fits.within_entityTo (hm : m.Fits last) (name : String) (kind : EntityKind) (start stop : Nat) :
    (m.entityTo name kind start stop).Within last :=
  Entity.within_withSpan (hm.isLine start) (hm.isLine stop).2

theorem Fits.within_entity (hm : m.Fits last) (name : String) (kind : EntityKind) (start fallback : Nat) :
    (m.entity name kind start fallback).Within last :=
  hm.within_entityTo name kind start _

end MaskedSource

end Deadwood
