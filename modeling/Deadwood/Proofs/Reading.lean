import Deadwood.Dialect.Grammars
import Deadwood.Proofs.MaskBytes
import Deadwood.Proofs.Scripts

/-!
# Reading texts of any language

What holds of every reader: which texts stop it, and what is known of the summary it gives.

* **`script_stops_iff`**: the scripts that stop their reader;
* **`reading_never_stops`**: the languages whose readers are never stopped;
* **`summary_wellFormed`**: what is read is well formed.
-/

namespace Deadwood

open Text

/-! ## Readers -/

namespace Language

def StopsOn (text : String) : Language → Prop
  | javaScript | typeScript => EcmaScript.LeavesObjectOpen (mask .slashed false text)
  | html => Markup.HasOpenScript text
  | _ => False

def isParsed : Language → Bool
  | java | kotlin => true
  | _ => false

theorem yields_read [TreeReader] {language : Language} (h : language.isParsed = false) (place : Place) (text : String) :
    Summarizes (language.StopsOn text) text (language.read place text) := by
  cases language with
  | javaScript => exact EcmaScript.yields_read false place text
  | typeScript => exact EcmaScript.yields_read true place text
  | python => exact Python.yields_read place text
  | go => exact Go.yields_read place text
  | rust => exact Rust.yields_read place text
  | java | kotlin => cases h
  | c => exact CFamily.yields_read false place text
  | cpp => exact CFamily.yields_read true place text
  | cSharp => exact CSharp.yields_read place text
  | php => exact Php.yields_read place text
  | ruby => exact Ruby.yields_read place text
  | swift => exact Swift.yields_read place text
  | dart => exact Dart.yields_read place text
  | lua => exact Lua.yields_read place text
  | shell => exact yields_ok.2 (Shell.wellFormed_read place text)
  | html => exact Markup.yields_readDocument place text
  | css => exact Markup.yields_readSheet text
  | unknown => exact yields_ok.2 (.empty _)

end Language

/-! ## Units -/

namespace SourceUnit

variable {u : SourceUnit} {text : String}

theorem language_readText [TreeReader] (u : SourceUnit) (text : String) : (u.readText text).language = u.language := by
  unfold readText
  split
  · rfl
  · split <;> rfl

theorem readText_cases [TreeReader] (hfailure : u.failure = none) (hsummary : u.summary = {}) :
    (u.language.isReadable = false ∧ (u.readText text).failure = none ∧ (u.readText text).summary = {}) ∨
      (∃ s, u.language.read ⟨u.relative⟩ text = .ok s ∧ (u.readText text).failure = none ∧
        ((u.readText text).summary = s ∨ (u.readText text).summary = s.setFlag "shebang")) ∨
      ∃ fault, u.language.read ⟨u.relative⟩ text = .error fault ∧
        (u.readText text).failure = some "parser panicked" ∧ (u.readText text).summary = {} := by
  unfold readText
  split
  · rename_i hreadable
    exact .inl ⟨by simpa using hreadable, hfailure, hsummary⟩
  · refine .inr ?_
    split
    · rename_i s hs
      refine .inl ⟨s, hs, hfailure, ?_⟩
      dsimp only
      split
      · exact .inr rfl
      · exact .inl rfl
    · rename_i fault hfault
      refine .inr ⟨fault, hfault, ?_, rfl⟩
      cases fault <;> rfl

theorem language_ofText [TreeReader] {path : Path} {language : Language} (h : Language.ofPath? path = some language)
    (text : String) :
    (ofText path text).language = language := by
  unfold ofText
  rw [language_readText, h]
  rfl

theorem ofText_cases [TreeReader] {path : Path} {language : Language} (h : (ofText path text).language = language) :
    (language.isReadable = false ∧ (ofText path text).failure = none ∧ (ofText path text).summary = {}) ∨
      (∃ s, language.read ⟨path⟩ text = .ok s ∧ (ofText path text).failure = none ∧
        ((ofText path text).summary = s ∨ (ofText path text).summary = s.setFlag "shebang")) ∨
      ∃ fault, language.read ⟨path⟩ text = .error fault ∧
        (ofText path text).failure = some "parser panicked" ∧ (ofText path text).summary = {} := by
  unfold ofText at h ⊢
  rw [language_readText] at h
  subst h
  exact readText_cases rfl rfl

end SourceUnit

open SourceUnit

/-! ## Scripts -/

/-- **The scripts that stop their reader.** A script is read unless its code leaves open an object
that it assigns to `exports` and ends in a character of several bytes. -/
theorem script_stops_iff [TreeReader] {language : Language} (h : language ∈ [Language.javaScript, .typeScript]) (text : String) :
    (∀ place, (∃ s, language.read place text = .ok s) ↔
      ¬ EcmaScript.LeavesObjectOpen (mask .slashed false text)) ∧
    ∀ path, (ofText path text).language = language →
      ((ofText path text).failure = none ↔ ¬ EcmaScript.LeavesObjectOpen (mask .slashed false text)) ∧
      ((ofText path text).failure = some "parser panicked" ↔
        EcmaScript.LeavesObjectOpen (mask .slashed false text)) := by
  simp only [List.mem_cons, List.not_mem_nil, or_false] at h
  have hread (place : Place) : (∃ s, language.read place text = .ok s) ↔
      ¬ EcmaScript.LeavesObjectOpen (mask .slashed false text) := by
    rcases h with rfl | rfl
    · exact EcmaScript.read_eq_ok_iff false place text
    · exact EcmaScript.read_eq_ok_iff true place text
  refine ⟨hread, fun path hlanguage => ?_⟩
  rcases ofText_cases hlanguage with ⟨hreadable, -⟩ | ⟨s, hs, hfailure, -⟩ | ⟨fault, hfault, hfailure, -⟩
  · rcases h with rfl | rfl <;> cases hreadable
  · have hopen := (hread ⟨path⟩).1 ⟨s, hs⟩
    simp [hfailure, hopen]
  · have hopen : EcmaScript.LeavesObjectOpen (mask .slashed false text) := by
      refine Classical.byContradiction fun hopen => ?_
      obtain ⟨s, hs⟩ := (hread ⟨path⟩).2 hopen
      rw [hfault] at hs
      cases hs
    simp [hfailure, hopen]

/-- The object is left open, but the last character is hidden, as part of a literal. -/
theorem script_stops_iff_hidden : Language.javaScript ∈ [Language.javaScript, .typeScript] ∧
    (ofText ⟨"a.js"⟩ "module.exports = \x7b a: \"é").language = .javaScript ∧
    EcmaScript.HasOpenObject (mask .slashed false "module.exports = \x7b a: \"é") ∧
    (ofText ⟨"a.js"⟩ "module.exports = \x7b a: \"é").failure = none := by
  have hscript : Language.javaScript ∈ [Language.javaScript, .typeScript] := by decide
  have hlanguage : (ofText ⟨"a.js"⟩ "module.exports = \x7b a: \"é").language = .javaScript :=
    language_ofText (by decide +kernel) _
  have hends : ¬ EcmaScript.EndsWide (mask .slashed false "module.exports = \x7b a: \"é") := by decide +kernel
  exact ⟨hscript, hlanguage, by decide +kernel, ((script_stops_iff hscript _).2 _ hlanguage).1.2 fun h => hends h.2⟩

/-- A script that stops its reader. -/
theorem script_stops_openObject :
    (ofText ⟨"a.js"⟩ "module.exports = \x7b a: é").language = .javaScript ∧
    (ofText ⟨"a.js"⟩ "module.exports = \x7b a: é").failure = some "parser panicked" :=
  ⟨language_ofText (by decide +kernel) _, by decide +kernel⟩

/-! ## Other languages -/

/-- **The languages whose readers are never stopped.** Every text is read, wherever it is; and masking
it, byte by byte, goes through as well. -/
theorem reading_never_stops [TreeReader] {language : Language}
    (h : language ∈ [Language.python, .go, .rust, .c, .cpp, .cSharp, .php, .ruby, .swift, .dart, .lua, .shell, .css])
    (text : String) :
    (∀ place, ∃ s, language.read place text = .ok s) ∧
    (∀ path, (ofText path text).language = language → (ofText path text).failure = none) ∧
    ∀ lexicon ∈ Lexicon.known, ∀ keep,
      Bytes.mask? lexicon keep (Bytes.ofText text) = some (Bytes.ofText (mask lexicon keep text)) := by
  have hread (place : Place) : ∃ s, language.read place text = .ok s := by
    have hpatterns : language.isParsed = false ∧ ¬ language.StopsOn text := by
      cases language with
      | javaScript | typeScript | html | java | kotlin | unknown => exact absurd h (by decide)
      | _ => exact ⟨rfl, id⟩
    obtain ⟨s, hs, -⟩ := ((Language.yields_read hpatterns.1 place text).weaken hpatterns.2).exists_ok
    exact ⟨s, hs⟩
  refine ⟨hread, fun path hlanguage => ?_, fun lexicon hknown keep =>
    Bytes.mask?_ofText (Lexicon.regular_of_known hknown) keep text⟩
  rcases ofText_cases hlanguage with ⟨-, hfailure, -⟩ | ⟨s, -, hfailure, -⟩ | ⟨fault, hfault, -⟩
  · exact hfailure
  · exact hfailure
  · obtain ⟨s, hs⟩ := hread ⟨path⟩
    rw [hfault] at hs
    cases hs

theorem reading_never_stops_unfinished :
    Language.ruby ∈ [Language.python, .go, .rust, .c, .cpp, .cSharp, .php, .ruby, .swift, .dart, .lua, .shell, .css] ∧
    (ofText ⟨"a.rb"⟩ "module É\n  def é(").language = .ruby ∧
    (ofText ⟨"a.rb"⟩ "module É\n  def é(").failure = none ∧
    ∃ s, Language.ruby.read ⟨⟨"a.rb"⟩⟩ "module É\n  def é(" = .ok s := by
  have hlanguage : (ofText ⟨"a.rb"⟩ "module É\n  def é(").language = .ruby :=
    language_ofText (by decide +kernel) _
  obtain ⟨hread, hfailure, -⟩ := reading_never_stops (by decide : Language.ruby ∈ _) "module É\n  def é("
  exact ⟨by decide, hlanguage, hfailure _ hlanguage, hread _⟩

/-- **What is read is well formed**, and so is what a unit holds, whether its reader was stopped or
not. -/
theorem summary_wellFormed [TreeReader] {language : Language} (hjava : language ≠ .java) (hkotlin : language ≠ .kotlin)
    (text : String) :
    (∀ place s, language.read place text = .ok s → s.WellFormed (1 + feeds text)) ∧
    ∀ path, (ofText path text).language = language →
      (ofText path text).summary.WellFormed (1 + feeds text) := by
  have hpatterns : language.isParsed = false := by
    cases language with
    | java => exact absurd rfl hjava
    | kotlin => exact absurd rfl hkotlin
    | _ => rfl
  have hread (place : Place) (s : Summary) (hs : language.read place text = .ok s) :
      s.WellFormed (1 + feeds text) :=
    (Language.yields_read hpatterns place text).of_ok s hs
  refine ⟨hread, fun path hlanguage => ?_⟩
  rcases ofText_cases hlanguage with ⟨-, -, hempty⟩ | ⟨s, hs, -, heq | heq⟩ | ⟨fault, -, -, hempty⟩
  · exact hempty ▸ .empty _
  · exact heq ▸ hread _ s hs
  · exact heq ▸ (hread _ s hs).of_lists
  · exact hempty ▸ .empty _

theorem summary_wellFormed_unfinished : Language.go ≠ .java ∧ Language.go ≠ .kotlin ∧
    (ofText ⟨"a.go"⟩ "\nfunc F() \x7b").language = .go ∧
    (ofText ⟨"a.go"⟩ "\nfunc F() \x7b").summary.exports = [⟨"F", 2⟩] ∧
    (ofText ⟨"a.go"⟩ "\nfunc F() \x7b").summary.WellFormed 2 := by
  have hlanguage : (ofText ⟨"a.go"⟩ "\nfunc F() \x7b").language = .go :=
    language_ofText (by decide +kernel) _
  have hfeeds : feeds "\nfunc F() \x7b" = 1 := by decide +kernel
  have hwell := (summary_wellFormed (by decide : Language.go ≠ .java) (by decide) _).2 _ hlanguage
  rw [hfeeds] at hwell
  exact ⟨by decide, by decide, hlanguage, by decide +kernel, hwell⟩

end Deadwood
