import Deadwood.Dialect
import Deadwood.Proofs.Blocks
import Deadwood.Proofs.Summaries

/-!
# What the readers give

Every reader but that of scripts gives a well-formed summary of every text. The numbers it computes
come from matches, from the ends of blocks and from line numbers, and each of these is where the
reader needs it.
-/

namespace Deadwood

open Text List Lexicon MaskedSource

variable {excuse : Prop} {m : MaskedSource} {last : Nat} {lines : List String} {i : Nat} (place : Place) (text : String)

/-! ## Python -/

namespace Python

variable {all : List String}

theorem within_imports (hm : m.Fits last) : ∀ f ∈ imports m, f.Within last := by
  refine forall_mem_append.2 ⟨forall_mem_append.2 ⟨?_, ?_⟩, ?_⟩
  · exact forall_mem_map.2 fun hit _ => hm.isLine hit.start
  · refine forall_mem_flatMap.2 fun hit _ => ?_
    exact forall_mem_filterMap_map fun _ _ => hm.isLine hit.start
  · exact forall_mem_map.2 fun hit _ => hm.isLine hit.start

theorem yields_definition (hi : i < all.length) (hlast : all.length ≤ last) (hit : Match) (inClass : Bool) :
    Finds excuse last (definition all i (indentBlockEnd all i) hit inClass) := by
  obtain ⟨hle, hlt⟩ := indentBlockEnd_mem hi
  refine (yields_bytesOfLines (by omega) hlt).bind fun size _ => ?_
  have hwithin (e : Entity) (he : e.startLine = i + 1) : (e.withSpan (indentBlockEnd all i + 1) size).Within last :=
    Entity.within_withSpan (by rw [he]; exact ⟨by omega, by omega⟩) (by omega)
  refine yields_pure.2 ?_
  split
  · exact forall_mem_singleton.2 (hwithin _ rfl)
  · split
    · exact forall_mem_singleton.2 (hwithin _ rfl)
    · exact nofun

theorem yields_declarationsFrom {front rest : List String} (hall : all = front ++ rest) (hlast : all.length ≤ last)
    (classEnd : Option Nat) :
    Finds excuse last (declarationsFrom all front.length classEnd rest) := by
  induction rest generalizing front classEnd with
  | nil => exact yields_pure.2 nofun
  | cons line rest ih =>
    have hi : front.length < all.length := by simp [hall]
    have hnext (classEnd : Option Nat) : Finds excuse last (declarationsFrom all (front.length + 1) classEnd rest) := by
      have hstep : all = (front ++ [line]) ++ rest := by simp [hall]
      simpa using ih hstep classEnd
    unfold declarationsFrom
    split
    · refine (yields_definition hi hlast _ _).bind fun found hfound => (hnext _).bind fun later hlater => ?_
      exact yields_pure.2 (forall_mem_append.2 ⟨hfound, hlater⟩)
    · split
      · refine (hnext _).bind fun later hlater => yields_pure.2 (forall_mem_cons.2 ⟨?_, hlater⟩)
        exact ⟨by omega, by omega⟩
      · exact hnext _

theorem yields_declarations {code : String} (hlast : (Text.lines code).length ≤ last) :
    Finds excuse last (declarations code) := by
  have h : Text.lines code = [] ++ Text.lines code := rfl
  exact yields_declarationsFrom h hlast none

theorem wellFormed_applyExportList (hm : m.Fits last) {s : Summary} (h : s.WellFormed last) :
    (applyExportList m s).WellFormed last := by
  unfold applyExportList
  split
  · exact h
  · rename_i hit _
    -- the listed names make a summary of their own, and the marks are read off it
    obtain ⟨t, ht, hlisted⟩ : ∃ t : Summary, t.WellFormed last ∧ listedExports m s hit = t.exports := by
      refine ⟨_, (Summary.WellFormed.empty last).recordAll (forall_mem_map.2 fun name _ => ?_), rfl⟩
      cases hfind : s.exports.find? (·.name == name) with
      | none =>
        simp only [Finding.Within, hfind]
        exact hm.isLine hit.start
      | some e =>
        simp only [Finding.Within, hfind]
        exact h.export_line e (mem_of_find?_eq_some hfind)
    have hmarked (listed : List Export) {e : Entity}
        (he : e ∈ s.functions.map (markListed listed) ++ s.types.map (markListed listed)) :
        ∃ e' ∈ s.functions ++ s.types, markListed listed e' = e := by
      rwa [← map_append, mem_map] at he
    rw [hlisted]
    exact
      { export_named := ht.export_named
        export_once := ht.export_once
        export_listed := by
          intro e he hexported _
          obtain ⟨e', -, rfl⟩ := hmarked _ he
          simpa [markListed] using hexported
        target_named := h.target_named
        export_line := ht.export_line
        import_line := h.import_line
        entity_within := by
          intro e he
          obtain ⟨e', he', rfl⟩ := hmarked _ he
          exact h.entity_within e' he' }

theorem yields_read : Summarizes excuse text (read place text) := by
  have hm := fits_ofText (by decide : python ∈ known) text
  unfold read
  refine (yields_declarations hm.lines_le).bind fun declarations hdecl => yields_pure.2 ?_
  have hfound := Summary.WellFormed.of_findings (forall_mem_append.2 ⟨within_imports hm, hdecl⟩)
  exact (wellFormed_applyExportList hm hfound).of_lists

end Python

/-! ## Go -/

namespace Go

variable {start : Nat}

theorem yields_qualifiedUsesFrom (code needle : String) (fuel : Nat) {offset : Nat} (h : IsBoundary code offset) :
    Yields excuse (qualifiedUsesFrom code needle fuel offset) fun _ => True := by
  induction fuel generalizing offset with
  | zero => exact yields_pure.2 trivial
  | succ fuel ih =>
    refine (yields_textFrom h).bind fun rest hrest => ?_
    obtain ⟨head, hcode, rfl⟩ := hrest
    split
    · exact yields_pure.2 trivial
    · rename_i skipped hfind
      obtain ⟨before, after, hbefore, rfl⟩ := find?_eq_some hfind
      have hstart : IsBoundary code (Text.byteLength head + Text.byteLength before) :=
        ⟨head ++ before, needle.toList ++ after, by simp [hcode, hbefore], by simp⟩
      have hstop : IsBoundary code (Text.byteLength head + Text.byteLength before + needle.utf8ByteSize) :=
        ⟨head ++ before ++ needle.toList, after, by simp [hcode, hbefore], by simp [Nat.add_assoc]⟩
      refine (yields_textBetween (Nat.zero_le _) (isBoundary_zero code) hstart).bind fun _ _ => ?_
      exact (yields_textFrom hstop).bind fun _ _ => (ih hstop).bind fun _ _ => yields_pure.2 trivial

theorem yields_qualifiedUses (code package : String) : Yields excuse (qualifiedUses code package) fun _ => True :=
  (yields_qualifiedUsesFrom code _ _ (isBoundary_zero code)).bind fun _ _ => yields_pure.2 trivial

theorem yields_groupSpecs (hm : m.Fits last) : Yields excuse (groupSpecs m) (∀ spec ∈ ·, IsLine last spec.line) := by
  refine yields_eachMatch fun group _ => yields_eachMatch fun hit hhit => ?_
  have hlt := (Pattern.found_of_mem_findAll hhit).start_lt_stop (by decide +kernel : importLine.isSolid = true)
  refine (yields_minus (by omega)).bind fun n _ => yields_pure.2 ?_
  exact forall_mem_singleton.2 (hm.isLine n)

theorem yields_toImport (code : String) (spec : ImportSpec) :
    Yields excuse (spec.toImport code) (·.line = spec.line) := by
  unfold ImportSpec.toImport
  split
  · exact yields_pure.2 rfl
  · exact yields_pure.2 rfl
  · exact (yields_qualifiedUses code _).bind fun _ _ => yields_pure.2 rfl

section

variable (hm : m.Fits last)
include hm

theorem yields_imports : Finds excuse last (imports m) := by
  refine (yields_groupSpecs hm).bind fun groups hgroups => yields_mapM fun spec hspec => ?_
  have hsingle : ∀ spec ∈ singleSpecs m, IsLine last spec.line :=
    forall_mem_map.2 fun hit _ => hm.isLine hit.start
  have hline := forall_mem_append.2 ⟨hsingle, hgroups⟩ spec hspec
  exact (yields_toImport m.code spec).bind fun i hi => by rwa [yields_pure, Finding.Within, hi]

theorem yields_functions : Finds excuse last (functions m) := by
  refine yields_eachMatch fun hit hhit => ?_
  have hle : hit.start ≤ (blockEnd? m.code hit.start).getD hit.stop := by
    cases hend : blockEnd? m.code hit.start with
    | none => exact (Pattern.found_of_mem_findAll hhit).whole.start_le_stop
    | some n => exact (blockEnd?_eq_some hend).1
  refine (yields_minus hle).bind fun size _ => yields_singleton ?_
  exact hm.within_entityTo (hit.groupText 2) _ hit.start _

theorem yields_typeAt (name : String) (h : IsBoundary m.code start) :
    Yields excuse (typeAt m name start) (·.Within last) :=
  (yields_textFrom h).bind fun _ _ => yields_pure.2 (hm.within_entityTo name _ start _)

theorem yields_declared (keyword name : String) (h : IsBoundary m.code start) :
    Finds excuse last (declared m keyword name start) := by
  unfold declared
  split
  · exact yields_pure.2 nofun
  · split
    · exact (yields_typeAt hm name h).bind fun e he => yields_singleton he
    · split
      · exact yields_singleton (hm.isLine start)
      · exact yields_pure.2 nofun

theorem yields_singleDeclarations : Finds excuse last (singleDeclarations m) :=
  hm.yields_outermost fun _ hhit =>
    yields_declared hm _ _ (Pattern.found_of_mem_findAll hhit).whole.isBoundary_start

end

theorem yields_groupBody {code : String} (h : IsBoundary code start) : Yields excuse (groupBody code start) fun body =>
      ∃ head tail, code.toList = head ++ (body.toList ++ tail) ∧ Text.byteLength head = start := by
  have hcut {stop : Nat} (hle : start ≤ stop) (hstop : IsBoundary code stop) :
      Yields excuse (textBetween code start stop) fun body =>
        ∃ head tail, code.toList = head ++ (body.toList ++ tail) ∧ Text.byteLength head = start :=
    (yields_textBetween hle h hstop).mono fun _ ⟨head, tail, hcode, hhead, _⟩ => ⟨head, tail, hcode, hhead⟩
  unfold groupBody
  refine (yields_textFrom h).bind fun rest hrest => ?_
  obtain ⟨head, hcode, rfl⟩ := hrest
  split
  · rename_i length hfind
    obtain ⟨before, after, hbefore, rfl⟩ := find?_eq_some hfind
    refine hcut (Nat.le_add_right _ _) ⟨head ++ before, "\n)".toList ++ after, ?_, byteLength_append _ _⟩
    rw [hcode, hbefore, append_assoc]
  · exact hcut h.le_size (isBoundary_size code)

theorem yields_groupDeclarations (hm : m.Fits last) : Finds excuse last (groupDeclarations m) := by
  unfold groupDeclarations
  refine yields_eachMatch fun group hgroup => ?_
  have hopen : IsBoundary m.code group.stop := (Pattern.found_of_mem_findAll hgroup).whole.isBoundary_stop
  refine (yields_groupBody hopen).bind fun body hbody => yields_eachMatch fun hit hhit => ?_
  obtain ⟨head, tail, hcode, hhead⟩ := hbody
  have hname := ((Pattern.found_of_mem_findAll hhit).isPieceOf_getD 1).isBoundary_start
  refine (yields_textBetween (Nat.zero_le _) (isBoundary_zero body) hname).bind fun _ _ => ?_
  dsimp only
  split
  · exact yields_pure.2 nofun
  · have hstart := hname.shift hcode
    rw [hhead] at hstart
    exact yields_declared hm _ _ hstart

theorem wellFormed_withProperties {s : Summary} (h : s.WellFormed last) (package : Option String) (ignored : Bool) :
    (withProperties package ignored s).WellFormed last := by
  cases package <;> cases ignored <;> exact h.of_lists

theorem yields_read : Summarizes excuse text (read place text) := by
  have hm := fits_ofText (by decide : slashed ∈ known) text
  unfold read
  refine (yields_imports hm).bind fun imports himports => ?_
  refine (yields_functions hm).bind fun functions hfunctions => ?_
  refine (yields_singleDeclarations hm).bind fun singles hsingles => ?_
  refine (yields_groupDeclarations hm).bind fun groups hgroups => yields_pure.2 ?_
  have hfound := Summary.WellFormed.of_findings (forall_mem_append.2
    ⟨forall_mem_append.2 ⟨himports, hfunctions⟩, forall_mem_append.2 ⟨hsingles, hgroups⟩⟩)
  exact (wellFormed_withProperties hfound _ _).of_lists

end Go

/-! ## Rust -/

namespace Rust

theorem yields_item (hm : m.Fits last) (depths : List Nat) (hit : Match) : Finds excuse last (item m depths hit) := by
  unfold item
  refine (hm.yields_depthAt depths hit.start).bind fun depth _ => ?_
  have hentity := hm.within_entity (hit.groupText 3) (kindOf (hit.groupText 2) depth) hit.start hit.stop
  dsimp only
  split
  · exact yields_pure.2 nofun
  · split
    · refine yields_pure.2 ?_
      split
      · exact nofun
      · exact forall_mem_singleton.2 hentity
    · exact yields_singleton hentity
    · refine yields_pure.2 ?_
      split
      · exact forall_mem_singleton.2 (hm.isLine hit.start)
      · exact nofun
    · refine yields_pure.2 ?_
      split
      · exact forall_mem_singleton.2 (hm.isLine hit.start)
      · exact nofun
    · exact yields_singleton hentity

theorem yields_read : Summarizes excuse text (read place text) := by
  have hm := fits_ofText (by decide : rust ∈ known) text
  unfold read modules items macros
  refine (yields_eachMatch fun hit _ => yields_item hm _ hit).bind fun items hitems => yields_pure.2 ?_
  refine (Summary.WellFormed.of_findings ?_).of_lists
  simp only [forall_mem_append, forall_mem_map]
  exact ⟨⟨fun hit _ => hm.isLine hit.start, hitems⟩, fun hit _ => hm.isLine hit.start⟩

end Rust

/-! ## C and its kin -/

namespace CFamily

section

variable (hm : m.Fits last) (depths : List Nat)
include hm

theorem within_inclusions : ∀ f ∈ inclusions m, f.Within last := by
  unfold inclusions
  exact forall_mem_filterMap_map fun hit _ => hm.isLine hit.start

theorem yields_functions : Yields excuse (functions m depths) (∀ e ∈ ·, e.Within last) := by
  unfold functions
  refine hm.yields_outermost fun hit _ => ?_
  dsimp only
  split
  · exact yields_pure.2 nofun
  · exact yields_singleton (hm.within_entity _ _ hit.start hit.stop)

theorem yields_types (cpp : Bool) : Finds excuse last (types m depths cpp) := by
  unfold types
  exact hm.yields_outermost fun hit _ =>
    yields_singleton (hm.within_entity _ _ hit.start hit.stop)

theorem yields_simpleTypedefs : Finds excuse last (simpleTypedefs m depths) := by
  unfold simpleTypedefs
  exact hm.yields_outermost fun hit _ => yields_singleton (hm.isLine hit.start)

theorem within_macros : ∀ f ∈ macros m, f.Within last := by
  unfold macros
  refine fun f hf => ?_
  obtain ⟨hit, -, hhit⟩ := mem_filterMap.1 hf
  split at hhit
  · cases hhit
  · cases hhit
    exact hm.isLine hit.start

theorem yields_objectiveTypes : Finds excuse last (objectiveTypes m) := by
  unfold objectiveTypes
  refine yields_eachMatch fun hit hhit => ?_
  have hwhole := (Pattern.found_of_mem_findAll hhit).whole
  refine (yields_textFrom hwhole.isBoundary_start).bind fun rest _ => (yields_minus ?_).bind fun size _ => ?_
  · split
    · exact Nat.le_add_right _ _
    · exact hwhole.start_le_stop
  · exact yields_singleton (hm.within_entityTo _ _ hit.start _)

end

theorem yields_read (cpp : Bool) (place : Place) (text : String) : Summarizes excuse text (read cpp place text) := by
  have hm := fits_ofText (by decide : slashed ∈ known) text
  unfold read typedefTails
  refine (yields_scopeDepths _ _).bind fun depths _ => ?_
  refine (yields_functions hm depths).bind fun functions hfunctions => ?_
  refine (yields_types hm depths cpp).bind fun types htypes => ?_
  refine (yields_simpleTypedefs hm depths).bind fun typedefs htypedefs => ?_
  refine (yields_objectiveTypes hm).bind fun objective hobjective => yields_pure.2 ?_
  refine (Summary.WellFormed.of_findings ?_).of_lists
  simp only [forall_mem_append, forall_mem_map]
  exact ⟨⟨⟨⟨⟨⟨within_inclusions hm, hfunctions⟩, htypes⟩, fun hit _ => hm.isLine hit.start⟩, htypedefs⟩,
    within_macros hm⟩,
    hobjective⟩

end CFamily

/-! ## C# -/

namespace CSharp

theorem yields_types (hm : m.Fits last) : Finds excuse last (types m) := by
  unfold types
  refine (yields_scopeDepths _ _).bind fun depths _ => yields_eachMatch fun hit _ => ?_
  refine (hm.yields_depthAt depths hit.start).bind fun depth _ => yields_pure.2 ?_
  exact forall_mem_singleton.2 (hm.within_entity _ _ hit.start hit.stop)

theorem yields_read : Summarizes excuse text (read place text) := by
  have hm := fits_ofText (by decide : slashed ∈ known) text
  unfold read usings
  refine (yields_types hm).bind fun types htypes => yields_pure.2 ?_
  refine (Summary.WellFormed.of_findings ?_).of_lists
  simp only [forall_mem_append, forall_mem_map]
  exact ⟨fun hit _ => hm.isLine hit.start, htypes⟩

end CSharp

/-! ## PHP -/

namespace Php

section

variable (hm : m.Fits last) (depths : List Nat)
include hm

theorem yields_singleUses : Finds excuse last (singleUses m depths) := by
  unfold singleUses
  exact hm.yields_outermost fun hit _ => yields_singleton (hm.isLine hit.start)

theorem within_groupUses : ∀ f ∈ groupUses m, f.Within last := by
  unfold groupUses
  refine forall_mem_flatMap.2 fun hit _ => ?_
  exact forall_mem_filterMap_map fun _ _ => hm.isLine hit.start

theorem yields_types : Finds excuse last (types m depths) := by
  unfold types
  exact hm.yields_outermost fun hit _ =>
    yields_singleton (hm.within_entity _ _ hit.start hit.stop)

theorem yields_functions : Finds excuse last (functions m depths) := by
  unfold functions
  refine yields_eachMatch fun hit _ => (hm.yields_depthAt depths hit.start).bind fun depth _ => yields_pure.2 ?_
  exact forall_mem_singleton.2 (hm.within_entity _ _ hit.start hit.stop)

theorem yields_constants : Finds excuse last (constants m depths) := by
  unfold constants
  exact hm.yields_outermost fun hit _ => yields_singleton (hm.isLine hit.start)

end

theorem yields_read : Summarizes excuse text (read place text) := by
  have hm := fits_ofText (by decide : php ∈ known) text
  unfold read inclusions
  refine (yields_scopeDepths _ _).bind fun depths _ => ?_
  refine (yields_singleUses hm depths).bind fun uses huses => ?_
  refine (yields_types hm depths).bind fun types htypes => ?_
  refine (yields_functions hm depths).bind fun functions hfunctions => ?_
  refine (yields_constants hm depths).bind fun constants hconstants => yields_pure.2 ?_
  refine (Summary.WellFormed.of_findings ?_).of_lists
  simp only [forall_mem_append, forall_mem_map]
  exact ⟨⟨⟨fun hit _ => hm.isLine hit.start, huses⟩, within_groupUses hm⟩, ⟨htypes, hfunctions⟩, hconstants⟩

end Php

/-! ## Ruby and Lua -/

theorem yields_bytesOfBlock (hi : i < lines.length) (openers : List String)
    (closer : String) {n : Nat} (hn : n = lines.length - 1) :
    Yields excuse (bytesOfLines lines i (min (keywordBlockEnd lines i openers closer) n)) fun _ => True := by
  have hmem := keywordBlockEnd_mem hi openers closer
  exact yields_bytesOfLines (by omega) (by omega)

theorem within_block (hi : i < lines.length) (hlast : lines.length ≤ last)
    (openers : List String) (closer : String) {e : Entity} (he : e.startLine = i + 1) (size : Nat) :
    (e.withSpan (keywordBlockEnd lines i openers closer + 1) size).Within last := by
  have hmem := keywordBlockEnd_mem hi openers closer
  exact Entity.within_withSpan (by rw [he]; exact ⟨by omega, by omega⟩) (by omega)

theorem yields_eachLine {at_ : Nat → String → Except Fault (Option Finding)}
    (h : ∀ i line, i < lines.length → Yields excuse (at_ i line) (∀ f ∈ ·, f.Within last)) :
    Finds excuse last (do return (← lines.zipIdx.mapM fun (line, i) => at_ i line).filterMap id) := by
  have hall : ∀ pair ∈ lines.zipIdx, Yields excuse (match pair with | (line, i) => at_ i line)
      (∀ f ∈ ·, f.Within last) := fun (line, i) hpair => h i line (by simpa using (mem_zipIdx hpair).2.1)
  refine (yields_mapM hall).bind fun found hfound => yields_pure.2 fun f hf => ?_
  obtain ⟨x, hx, rfl⟩ := mem_filterMap.1 hf
  exact hfound _ hx f rfl

namespace Ruby

theorem yields_declarationAt (hi : i < lines.length) (hlast : lines.length ≤ last) (line : String) :
    Yields excuse (declarationAt lines i line) (∀ f ∈ ·, f.Within last) := by
  unfold declarationAt
  split
  · exact yields_pure.2 nofun
  · refine (yields_minus (by omega)).bind fun n hn => (yields_bytesOfBlock hi _ _ hn).bind fun size _ => ?_
    refine yields_pure.2 fun f hf => ?_
    obtain rfl := Option.some.inj hf
    split <;> exact within_block hi hlast _ _ rfl size

theorem yields_read : Summarizes excuse text (read place text) := by
  have hm := fits_ofText (by decide : ruby ∈ known) text
  unfold read loads declarations
  refine (yields_eachLine fun i line hi => yields_declarationAt hi hm.lines_le line).bind
    fun declarations hdecl => yields_pure.2 ?_
  refine (Summary.WellFormed.of_findings ?_).of_lists
  simp only [forall_mem_append, forall_mem_map]
  exact ⟨fun hit _ => hm.isLine hit.start, hdecl⟩

end Ruby

namespace Lua

variable {lines : List String} {i : Nat}

theorem yields_splitOwner (name : String) : Yields excuse (splitOwner name) fun _ => True := by
  unfold splitOwner
  split
  · rename_i mark hmark
    obtain ⟨head, c, tail, hname, hc, rfl⟩ := findLastWhereFrom?_eq_some hmark
    -- the marks take one byte, so the name goes on right behind them
    have hsize : c.utf8Size = 1 := by
      rcases (by simpa using hc : c = '.' ∨ c = ':') with rfl | rfl <;> rfl
    have hbefore : IsBoundary name (0 + Text.byteLength head) := ⟨head, c :: tail, hname, by simp⟩
    have hbehind : IsBoundary name (0 + Text.byteLength head + 1) :=
      ⟨head ++ [c], tail, by simp [hname], by simp [hsize]⟩
    refine (yields_textBetween (Nat.zero_le _) (isBoundary_zero name) hbefore).bind fun _ _ => ?_
    exact (yields_textFrom hbehind).bind fun _ _ => yields_pure.2 trivial
  · exact yields_pure.2 trivial

section

variable (hi : i < lines.length) (hlast : lines.length ≤ last) (table : Option String)
include hi hlast table

theorem yields_functionAt (hit : Match) : Yields excuse (functionAt lines table i hit) (·.Within last) := by
  unfold functionAt
  refine (yields_splitOwner _).bind fun owned _ => ?_
  refine (yields_minus (by omega)).bind fun n hn => (yields_bytesOfBlock hi _ _ hn).bind fun size _ => ?_
  exact yields_pure.2 (within_block hi hlast _ _ rfl size)

theorem yields_declarationAt (line : String) :
    Yields excuse (declarationAt lines table i line) (∀ f ∈ ·, f.Within last) := by
  unfold declarationAt
  split
  · refine (yields_functionAt hi hlast table _).bind fun e he => yields_pure.2 fun f hf => ?_
    obtain rfl := Option.some.inj hf
    exact he
  · split
    · refine yields_pure.2 fun f hf => ?_
      split at hf
      · obtain rfl := Option.some.inj hf
        exact ⟨by omega, by omega⟩
      · cases hf
    · exact yields_pure.2 nofun

end

theorem yields_read : Summarizes excuse text (read place text) := by
  have hm := fits_ofText (by decide : lua ∈ known) text
  unfold read loads declarations
  refine (yields_eachLine fun i line hi => yields_declarationAt hi hm.lines_le _ line).bind
    fun declarations hdecl => yields_pure.2 ?_
  refine (Summary.WellFormed.of_findings ?_).of_lists
  simp only [forall_mem_append, forall_mem_map]
  exact ⟨fun hit _ => hm.isLine hit.start, hdecl⟩

end Lua

/-! ## Swift -/

namespace Swift

theorem yields_declaration (hm : m.Fits last) (depths : List Nat) (hit : Match) :
    Finds excuse last (declaration m depths hit) := by
  have hentity (kind : EntityKind) := hm.within_entity (hit.groupText 3) kind hit.start hit.stop
  have hline : ∀ {exported : Bool}, ∀ f ∈ (if exported then
      [Finding.exported (hit.groupText 3) (m.lineOf hit.start)] else []), f.Within last := by
    intro exported
    split
    · exact forall_mem_singleton.2 (hm.isLine hit.start)
    · exact nofun
  unfold declaration
  refine (hm.yields_depthAt depths hit.start).bind fun depth _ => ?_
  dsimp only
  split
  · exact yields_pure.2 nofun
  · split
    · exact yields_pure.2 nofun
    · exact yields_singleton (hentity _)
  · exact yields_pure.2 hline
  · exact yields_pure.2 hline
  · exact yields_singleton (hm.within_entityTo _ _ hit.start hit.stop)
  · exact yields_singleton (hentity _)

theorem yields_read : Summarizes excuse text (read place text) := by
  have hm := fits_ofText (by decide : swift ∈ known) text
  unfold read imports
  refine (yields_eachMatch fun hit _ => yields_declaration hm _ hit).bind fun declarations hdecl => yields_pure.2 ?_
  refine (Summary.WellFormed.of_findings ?_).of_lists
  simp only [forall_mem_append, forall_mem_map]
  exact ⟨fun hit _ => hm.isLine hit.start, hdecl⟩

end Swift

/-! ## Dart -/

namespace Dart

section

variable (hm : m.Fits last) (depths : List Nat)
include hm

theorem within_directives : ∀ f ∈ directives m, f.Within last := by
  unfold directives
  refine forall_mem_flatMap.2 fun hit _ => ?_
  have hline := hm.isLine hit.start
  dsimp only
  split
  · exact forall_mem_singleton.2 hline
  · exact forall_mem_append.2 ⟨forall_mem_map.2 fun _ _ => hline, forall_mem_singleton.2 hline⟩
  · exact forall_mem_singleton.2 hline

theorem yields_types : Finds excuse last (types m depths) := by
  unfold types
  exact hm.yields_outermost fun hit _ =>
    yields_singleton (hm.within_entity _ _ hit.start hit.stop)

theorem yields_functions : Yields excuse (functions m depths) (∀ e ∈ ·, e.Within last) := by
  unfold functions
  refine hm.yields_outermost fun hit _ => ?_
  dsimp only
  split
  · exact yields_pure.2 nofun
  · exact yields_singleton (hm.within_entity _ _ hit.start hit.stop)

theorem yields_declaredVariables : Finds excuse last (declaredVariables m depths) := by
  unfold declaredVariables
  exact hm.yields_outermost fun hit _ => yields_singleton (hm.isLine hit.start)

end

theorem yields_read : Summarizes excuse text (read place text) := by
  have hm := fits_ofText (by decide : slashed ∈ known) text
  unfold read
  refine (yields_types hm _).bind fun types htypes => ?_
  refine (yields_functions hm _).bind fun functions hfunctions => ?_
  refine (yields_declaredVariables hm _).bind fun variables_ hvariables => yields_pure.2 ?_
  refine (Summary.WellFormed.of_findings ?_).of_lists
  simp only [forall_mem_append, forall_mem_map]
  exact ⟨⟨⟨within_directives hm, htypes⟩, hfunctions⟩, hvariables⟩

end Dart

/-! ## Shell scripts -/

namespace Shell

theorem wellFormed_read (place : Place) (text : String) : (read place text).WellFormed (1 + Text.feeds text) := by
  have hm := fits_ofText (by decide : shell ∈ known) text
  unfold read sources functions
  refine (Summary.WellFormed.of_findings (forall_mem_append.2 ⟨?_, ?_⟩)).of_lists
  · exact forall_mem_filterMap_map fun hit _ => hm.isLine hit.stop
  · exact forall_mem_filterMap_map fun hit _ => hm.within_entity _ _ hit.start hit.stop

end Shell

/-! ## Style sheets -/

namespace Markup

theorem yields_localPath? (raw : String) : Yields excuse (localPath? raw) fun _ => True := by
  unfold localPath?
  dsimp only
  split
  · exact yields_pure.2 trivial
  · have hstop (s : String) (p : Char → Bool) : IsBoundary s ((Text.findWhere? p s).getD s.utf8ByteSize) := by
      cases hfind : Text.findWhere? p s with
      | none => exact isBoundary_size s
      | some n => exact isBoundary_findWhere? hfind
    refine (yields_textBetween (Nat.zero_le _) (isBoundary_zero _) (hstop _ _)).bind fun path _ => ?_
    exact yields_pure.2 trivial

theorem isLine_lineOf (text : String) (offset : Nat) :
    IsLine (1 + Text.feeds text) ((LineIndex.ofText text).lineOf offset) :=
  ⟨LineIndex.one_le_lineOf text offset, LineIndex.lineOf_le text offset⟩

theorem yields_sheetImports (text masked : String) :
    Finds excuse (1 + Text.feeds text) (sheetImports (.ofText text) masked) := by
  unfold sheetImports
  refine yields_eachMatch fun hit _ => (yields_localPath? _).bind fun path _ => ?_
  split
  · exact yields_pure.2 nofun
  · exact yields_singleton (isLine_lineOf text hit.start)

theorem yields_sheetUrls (text masked : String) (taken : List Nat) :
    Finds excuse (1 + Text.feeds text) (sheetUrls (.ofText text) masked taken) := by
  unfold sheetUrls
  refine yields_eachMatch fun hit _ => ?_
  dsimp only
  split
  · exact yields_pure.2 nofun
  · refine (yields_localPath? _).bind fun path _ => ?_
    split
    · exact yields_pure.2 nofun
    · exact yields_singleton (isLine_lineOf text hit.start)

theorem yields_readSheet (text : String) : Summarizes excuse text (readSheet text) := by
  unfold readSheet
  refine (yields_sheetImports text _).bind fun imports himports => ?_
  refine (yields_sheetUrls text _ _).bind fun urls hurls => yields_pure.2 ?_
  exact (Summary.WellFormed.of_findings himports).recordAll hurls

end Markup

end Deadwood
