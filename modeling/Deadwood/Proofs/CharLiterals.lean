import Mathlib.Data.Bool.AllAny
import Deadwood.Proofs.Segments

/-!
# Literals of one character

Where a single quote may also mark a lifetime, it opens a literal only if this closes after one character, or after an
escape with a quote among its next ten bytes. The escape of the quote itself is taken to end at the quote that it
escapes, and the closing quote is read as an opening one.

* **`mask_rust_segments`**: masking hides comments and bodies of literals; `mask_escaped_quote`: not quite.
-/

namespace Deadwood

open List

variable {body rest xs : List Char}

def hexDigits : List Char := "0123456789abcdefABCDEF".toList

/-- One character, or an escape. -/
inductive CharacterBody : List Char → Prop where
  | plain {c : Char} (hc : c ∉ ['\'', '\\', '\n']) : CharacterBody [c]
  | escape {c : Char} (hc : c ∈ ['n', 'r', 't', '\\', '0', '\'', '"']) : CharacterBody ['\\', c]
  | byte {c d : Char} (hc : c ∈ hexDigits) (hd : d ∈ hexDigits) : CharacterBody ['\\', 'x', c, d]
  | unicode {digits : List Char} (hne : digits ≠ []) (hle : digits.length ≤ 6) (h : ∀ c ∈ digits, c ∈ hexDigits) :
      CharacterBody ('\\' :: 'u' :: '{' :: (digits ++ ['}']))

/-- The literal of the single quote. -/
def escapedQuote : Segment := .literal '\'' ['\\', '\'']

namespace Segment

/-- The segment can stand before `rest`. -/
def FitsRust (rest : List Char) : Segment → Prop
  | code chars => (∀ c ∈ chars, c ∉ ['"', '\'']) ∧
      ∀ i < chars.length, ¬ ['/', '/'] <+: (chars ++ rest).drop i ∧ ¬ ['/', '*'] <+: (chars ++ rest).drop i
  | literal quote body => quote = '"' ∧ LiteralBody '"' body ∨ quote = '\'' ∧ CharacterBody body
  | comment => comment.Fits rest

deriving instance DecidableEq for Segment

/-- What is left of a segment when it is masked. Of an escaped quote only the backslash is hidden. -/
def showRust (s : Segment) : Bytes := if s = escapedQuote then Bytes.ofText "' ''" else s.hide false

end Segment

/-! ## The end of a literal -/

theorem quoteWithin_closed {budget : Nat} (h : ∀ c ∈ xs, c ≠ '\'' ∧ c.utf8Size = 1) (hlength : xs.length < budget)
    (rest : List Char) : quoteWithin budget (xs ++ '\'' :: rest) = some xs.length := by
  induction xs generalizing budget with
  | nil =>
    have hbudget : budget ≠ 0 := Nat.ne_of_gt hlength
    simp [quoteWithin, hbudget]
  | cons c xs ih =>
    obtain ⟨⟨hc, hsize⟩, hxs⟩ := forall_mem_cons.1 h
    rw [length_cons] at hlength
    rw [cons_append, quoteWithin, if_neg (by omega), if_neg (by simpa using hc), hsize, ih hxs (by omega)]
    rfl

/-- **The end of a literal is found**, unless it is that of a single quote. -/
theorem charBody?_closed (h : CharacterBody body) (hne : body ≠ ['\\', '\'']) (rest : List Char) :
    charBody? (body ++ '\'' :: rest) = some body.length := by
  have hescape {xs : List Char} (hxs : ∀ c ∈ xs, c ≠ '\'' ∧ c.utf8Size = 1) (hlength : xs.length < 10) :
      charBody? ('\\' :: xs ++ '\'' :: rest) = some ('\\' :: xs).length := by
    rw [cons_append, charBody?_escape, quoteWithin_closed hxs hlength]
    rfl
  have hhex {c : Char} (hc : c ∈ hexDigits) : c ≠ '\'' ∧ c.utf8Size = 1 := by
    have hall : ∀ c ∈ hexDigits, c ≠ '\'' ∧ c.utf8Size = 1 := all_iff_forall_prop.1 (by decide)
    exact hall c hc
  cases h with
  | @plain c hc =>
    rw [singleton_append, charBody?_plain (by simp_all), if_pos ⟨rest, rfl⟩]
    rfl
  | @escape c hc =>
    -- for a single quote the search would end at the escaped one
    refine hescape (forall_mem_singleton.2 ?_) (by simp)
    have hall : ∀ c ∈ ['n', 'r', 't', '\\', '0', '\'', '"'], c.utf8Size = 1 := all_iff_forall_prop.1 (by decide)
    exact ⟨fun heq => hne (by rw [heq]), hall c hc⟩
  | @byte c d hc hd =>
    exact hescape (forall_mem_cons.2 ⟨by decide, forall_mem_cons.2
      ⟨hhex hc, forall_mem_singleton.2 (hhex hd)⟩⟩) (by simp)
  | @unicode digits _ hle hdigits =>
    refine hescape (forall_mem_cons.2 ⟨by decide, forall_mem_cons.2 ⟨by decide, forall_mem_append.2
      ⟨fun c hc => hhex (hdigits c hc), forall_mem_singleton.2 (by decide)⟩⟩⟩) ?_
    simp only [length_cons, length_append, length_nil]
    omega

/-! ## Masking -/

theorem rust_hasSlashes : Lexicon.rust.HasSlashes := ⟨Lexicon.regular_of_known (by decide), rfl, rfl, rfl⟩

theorem pieceAt_rust_quote (rest : List Char) (before : Option Char) : pieceAt .rust before ('\'' :: rest) =
    ((charBody? rest).elim .code fun n => ⟨.literal, 1, n, 1⟩) := by
  rw [pieceAt_of_ne_slash rust_hasSlashes (by decide), unmarkedAt]
  cases charBody? rest <;> rfl

theorem masks_character (h : CharacterBody body) (hne : body ≠ ['\\', '\'']) (rest : List Char) :
    Masks .rust false (.literal '\'' body) rest ((Segment.literal '\'' body).hide false) := by
  refine masks_literal rust_hasSlashes (fun before => ?_) false
  rw [pieceAt_rust_quote, charBody?_closed h hne]
  rfl

/-- An escaped quote is read as a literal of a backslash and a quote that opens nothing. -/
theorem masks_escapedQuote (hrest : charBody? rest = none) :
    Masks .rust false escapedQuote rest (Bytes.ofText "' ''") := by
  intro before
  have hliteral : Masks .rust false (.literal '\'' ['\\']) ('\'' :: rest) (Bytes.ofText "' '") :=
    masks_literal rust_hasSlashes (fun before => by rw [pieceAt_rust_quote]; rfl) false
  obtain ⟨last, hlast⟩ := hliteral before
  -- the quote that closes it is left over
  have hcode : pieceAt .rust last ('\'' :: rest) = .code := by rw [pieceAt_rust_quote, hrest]; rfl
  refine ⟨some '\'', hlast.trans ?_⟩
  rw [masked_cons_of_code rust_hasSlashes.regular hcode, Bytes.ofChars_cons]
  rfl

/-- **Masking hides exactly comments and bodies of literals**, those of one character included, if the closing quote of
an escaped quote is not followed by what would make it open another literal. Only of the escaped quotes themselves a
byte is left that belongs to the body. -/
theorem mask_rust_segments {segments : List Segment}
    (h : Along (fun s rest => s.FitsRust rest ∧ (s = escapedQuote → charBody? rest = none)) segments) :
    Bytes.ofText (mask .rust false (textOf segments)) = segments.flatMap Segment.showRust := by
  refine ofText_mask_textOf (h.imp ?_)
  rintro s rest ⟨hfits, hquotes⟩
  rw [Segment.showRust]
  split
  · rename_i hescaped
    subst hescaped
    exact masks_escapedQuote (hquotes rfl)
  rename_i hne
  cases s with
  | code chars =>
    refine masks_code rust_hasSlashes (fun c hc => ?_) hfits.2 false
    have hplain := hfits.1 c hc
    simp_all [Lexicon.rust]
  | lineComment body => exact masks_lineComment rust_hasSlashes hfits.1 hfits.2 false
  | blockComment body => exact masks_blockComment rust_hasSlashes hfits false
  | literal quote body =>
    rcases hfits with ⟨rfl, hbody⟩ | ⟨rfl, hbody⟩
    · exact masks_literal rust_hasSlashes
        (pieceAt_literal rust_hasSlashes (by decide) (by decide) (fun _ => by decide) hbody _) false
    · exact masks_character hbody (fun heq => hne (by rw [heq, escapedQuote])) _

/-- A quotation mark and a mark of a comment as characters, an escape of the greatest length, and an escaped quote. -/
theorem mask_rust_segments_adjacent :
    let segments : List Segment := [.literal '\'' ['"'], .literal '\'' ['/'], .code ['/'],
      .literal '\'' ['\\', 'u', '{', '1', '0', 'f', 'F', 'f', 'f', '}'], .literal '"' ['\'', '\\', '"'], escapedQuote]
    textOf segments = "'\"''/'/'\\u\x7b10fFff\x7d'\"'\\\"\"'\\''" ∧
      Bytes.ofText (mask .rust false (textOf segments)) = Bytes.ofText "' '' '/'          '\"   \"' ''" := by
  intro segments
  have hstring : LiteralBody '"' ['\'', '\\', '"'] := .plain (by decide) (by decide) (by decide) (.escape _ .nil)
  have hunicode : CharacterBody ['\\', 'u', '{', '1', '0', 'f', 'F', 'f', 'f', '}'] :=
    @CharacterBody.unicode ['1', '0', 'f', 'F', 'f', 'f'] (by decide) (by decide)
      (List.all_iff_forall_prop.1 (by decide))
  have hsegments : Along (fun s rest => s.FitsRust rest ∧ (s = escapedQuote → charBody? rest = none)) segments :=
    ⟨⟨.inr ⟨rfl, .plain (by decide)⟩, nofun⟩, ⟨.inr ⟨rfl, .plain (by decide)⟩, nofun⟩, ⟨⟨by simp, by decide⟩, nofun⟩,
      ⟨.inr ⟨rfl, hunicode⟩, nofun⟩, ⟨.inl ⟨rfl, hstring⟩, nofun⟩,
      ⟨.inr ⟨rfl, .escape (by decide)⟩, fun _ => rfl⟩, trivial⟩
  exact ⟨by decide, (mask_rust_segments hsegments).trans (by decide)⟩

/-- The escaped quote itself: a part of the body is left. -/
theorem mask_escaped_quote : escapedQuote.FitsRust [] ∧ mask .rust false (textOf [escapedQuote]) = "' ''" ∧
    escapedQuote.hide false = Bytes.ofText "'  '" :=
  ⟨.inr ⟨rfl, .escape (by decide)⟩, by decide, by decide⟩

end Deadwood
