import Deadwood.Dialect.Grammars
import Deadwood.Proofs.Contexts
import Deadwood.Proofs.StaleLines

/-!
# What pruning leaves of a text

A line that is pruned may open a comment or a template, or close one; then the lines after it mean something else
without it. A line that ends within what it starts within can go without a trace.

* **`prune_keeps_contexts`**: which lines are pruned, and what the others are without them.
-/

namespace Deadwood

open List Text Context
open Text (rawLines)
open String (ofList toList_inj toList_ofList)

variable {imports : List StaleImport} {k : Nat} {text : String} {α : Type}

/-! ## Lines that go -/

/-- The members of a list at the places that are not flagged. -/
def unflagged {α : Type} : List Bool → List α → List α
  | true :: flags, _ :: l => unflagged flags l
  | false :: flags, a :: l => a :: unflagged flags l
  | _, _ => []

@[simp]
theorem unflagged_nil (flags : List Bool) : unflagged flags ([] : List α) = [] := by
  rcases flags with _ | ⟨_ | _, _⟩ <;> rfl

theorem unflagged_map {β : Type} (f : α → β) (flags : List Bool) (l : List α) :
    unflagged flags (l.map f) = (unflagged flags l).map f := by
  induction l generalizing flags with
  | nil => simp
  | cons a l ih =>
    rcases flags with _ | ⟨_ | _, flags⟩
    · rfl
    · rw [map_cons, unflagged, unflagged, ih, map_cons]
    · exact ih flags

/-- Tells of lines, numbered from `n` on, which hold an import of a plan as a whole. -/
def staleFlags (imports : List StaleImport) (n : Nat) (lines : List String) : List Bool :=
  (lines.zipIdx n).map fun (line, n) => (staleImport? imports n line).isSome

theorem staleFlags_cons (imports : List StaleImport) (n : Nat) (line : String) (lines : List String) :
    staleFlags imports n (line :: lines) =
      (staleImport? imports n line).isSome :: staleFlags imports (n + 1) lines := rfl

theorem isWholeImport_of_staleFlags {n : Nat} {lines : List String} {line : String}
    (hflag : (staleFlags imports n lines)[k]? = some true) (hline : lines[k]? = some line) :
    ∃ target, isWholeImport line target = true := by
  have hfound : (staleImport? imports (n + k) line).isSome = true := by
    simpa [staleFlags, hline] using hflag
  obtain ⟨x, hx⟩ := Option.isSome_iff_exists.1 hfound
  have hwhole := find?_some hx
  rw [Bool.and_eq_true] at hwhole
  exact ⟨x.target, hwhole.2⟩

theorem text_pruneLines (imports : List StaleImport) (n : Nat) (lines : List String) :
    (pruneLines imports n lines).text = String.join (unflagged (staleFlags imports n lines) lines) := by
  induction lines generalizing n with
  | nil => rfl
  | cons line lines ih =>
    rw [pruneLines, staleFlags_cons]
    split
    · rename_i hnone
      rw [hnone, Option.isSome_none, unflagged, String.join_cons, ← ih]
    · rename_i x hx
      rw [hx, Option.isSome_some, unflagged, ← ih]
      split <;> rfl

theorem count_pruneLines (imports : List StaleImport) (n : Nat) (lines : List String) :
    (pruneLines imports n lines).imports + (pruneLines imports n lines).reExports =
      (staleFlags imports n lines).count true := by
  induction lines generalizing n with
  | nil => rfl
  | cons line lines ih =>
    rw [pruneLines, staleFlags_cons, count_cons, ← ih]
    split
    · rename_i hnone
      simp [hnone]
    · rename_i x hx
      rw [hx]
      split <;> simp <;> omega

/-! ## Contexts of lines -/

namespace Context

variable {keep : Bool} {quote : Char} {context : Context} {lines : List (List Char)} {flags : List Bool}
  {line : List Char}

/-- The flagged lines end within what they start within. Nothing follows the last line, so it may end within
anything. -/
def KeptBy (context : Context) (flags : List Bool) (lines : List (List Char)) : Prop :=
  ∀ k, flags[k]? = some true → k + 1 < lines.length →
    context.after (lines.take (k + 1)).flatten = context.after (lines.take k).flatten

theorem KeptBy.tail {flag : Bool} (h : context.KeptBy (flag :: flags) (line :: lines))
    : (context.after line).KeptBy flags lines := by
  intro k hflag hk
  rw [← after_append, ← after_append]
  exact h (k + 1) hflag (Nat.succ_lt_succ hk)

theorem KeptBy.head (h : context.KeptBy (true :: flags) (line :: lines)) (hne : lines ≠ [])
    : context.after line = context := by
  have hline := h 0 rfl (Nat.succ_lt_succ (length_pos_iff.2 hne))
  simpa [after] using hline

/-- **Lines that keep the context go without a trace.** -/
theorem masked_unflagged (h : Text.IsLines lines) (hkept : context.KeptBy flags lines) :
    context.masked keep (unflagged flags lines).flatten =
      (unflagged flags (context.maskedLines keep lines)).flatten := by
  induction h generalizing flags context with
  | nil => simp [maskedLines, masked]
  | last => rcases flags with _ | ⟨_ | _, flags⟩ <;> simp [maskedLines, unflagged, masked]
  | @cons body lines _ _ ih =>
    rcases flags with _ | ⟨_ | _, flags⟩
    · rfl
    · rw [maskedLines, unflagged, unflagged, flatten_cons, flatten_cons, ← ih hkept.tail]
      exact masked_line_append context body _
    · rw [maskedLines, unflagged, unflagged, ← ih hkept.tail]
      by_cases hlines : lines = []
      · simp [hlines, masked]
      · rw [hkept.head hlines]

theorem eq_backslash_of_next {c : Char} (h : context.next c = escape quote) : c = '\\' := by
  cases context with
  | literal quote' =>
    rw [next] at h
    split_ifs at h with hc
    exact hc
  | escape quote' => cases h
  | _ =>
    simp only [next, opened] at h
    split_ifs at h

theorem eq_escape_or_of_next (h : context.next '\n' = literal quote) : context = escape quote ∨ quote = '`' := by
  cases context with
  | literal quote' =>
    rw [next, if_neg (by decide)] at h
    split at h
    · cases h
    · rename_i hopen
      cases h
      have htemplate : quote = '`' ∧ ¬ '\n' = quote := by simpa [closes] using hopen
      exact .inr htemplate.1
  | escape quote' => exact .inl (by simpa [next] using h)
  | _ => simp [next, opened] at h

theorem getLast?_of_after_escape {cs : List Char}
    (hcontext : context ≠ escape quote) (h : context.after cs = escape quote) : cs.getLast? = some '\\' := by
  rcases eq_nil_or_concat cs with rfl | ⟨cs, c, rfl⟩
  · exact absurd h hcontext
  · rw [concat_eq_append, after_append] at h
    rw [concat_eq_append, getLast?_concat, eq_backslash_of_next h]

theorem after_take_ne_escape (h : Text.IsLines lines) (hcontext : context ≠ escape quote) (hk : k < lines.length) :
    context.after (lines.take k).flatten ≠ escape quote := by
  induction h generalizing context k with
  | nil => simp at hk
  | last =>
    obtain rfl : k = 0 := by simpa using hk
    exact hcontext
  | @cons body lines _ _ ih =>
    cases k with
    | zero => exact hcontext
    | succ k =>
      rw [take_succ_cons, flatten_cons, after_append]
      refine ih (fun hescape => ?_) (Nat.lt_of_succ_lt_succ hk)
      rw [after_append] at hescape
      exact absurd (eq_backslash_of_next hescape) (by decide)

end Context

theorem Text.IsLines.exists_body {lines : List (List Char)} (h : Text.IsLines lines) (hk : k + 1 < lines.length) :
    ∃ body, lines[k]? = some (body ++ ['\n']) := by
  induction h generalizing k with
  | nil => simp at hk
  | last => simp at hk
  | @cons body lines _ _ ih =>
    cases k with
    | zero => exact ⟨body, rfl⟩
    | succ k => exact ih (Nat.lt_of_succ_lt_succ hk)

theorem getLast?_ne_of_isWholeImport {body : List Char} {target : String}
    (h : isWholeImport (ofList (body ++ ['\n'])) target = true) : body.getLast? ≠ some '\\' := by
  intro hlast
  obtain ⟨init, rfl⟩ := getLast?_eq_some_iff.1 hlast
  have htrim : trimEnd (ofList (init ++ ['\\'] ++ ['\n'])) = ofList init ++ "\\" := by
    have hfeed : isBlank '\n' = true := by decide
    have hback : isBlank '\\' = false := by decide
    rw [← toList_inj]
    simp [trimEnd, trimEndWhere, dropWhileEnd, hfeed, hback]
  have hends : endsWith (ofList init ++ "\\") "\\" = true := endsWith_iff.2 ⟨_, rfl⟩
  rw [isWholeImport, htrim, hends] at h
  simp at h

/-! ## Whole texts -/

/-- What the line at a place of a text starts within. -/
def contextAt (text : String) (k : Nat) : Context :=
  code.after (String.join ((rawLines text).take k)).toList

theorem join_map_ofList (lines : List (List Char)) : String.join (lines.map ofList) = ofList lines.flatten := by
  rw [← toList_inj, String.toList_join, toList_ofList, flatMap_map]
  simp [flatMap_def]

theorem contextAt_eq (text : String) (k : Nat) :
    contextAt text k = code.after ((splitAfterFeeds text.toList).take k).flatten := by
  rw [contextAt, rawLines, ← map_take, join_map_ofList, toList_ofList]

theorem contextAt_succ {line : List Char} (hline : (splitAfterFeeds text.toList)[k]? = some line) :
    contextAt text (k + 1) = (contextAt text k).after line := by
  rw [contextAt_eq, contextAt_eq, take_add_one, hline, Option.toList_some, flatten_append,
    after_append, flatten_singleton]

theorem eq_template_of_staleFlags {quote : Char}
    (hflag : (staleFlags imports 1 (rawLines text))[k]? = some true) (hk : k + 1 < (rawLines text).length)
    (hopen : contextAt text (k + 1) = .literal quote) : quote = '`' := by
  have hlines := isLines_splitAfterFeeds text.toList
  rw [rawLines, length_map] at hk
  obtain ⟨body, hbody⟩ := hlines.exists_body hk
  have hline : (rawLines text)[k]? = some (ofList (body ++ ['\n'])) := by
    rw [rawLines, getElem?_map, hbody, Option.map_some]
  obtain ⟨target, hwhole⟩ := isWholeImport_of_staleFlags hflag hline
  rw [contextAt_succ hbody, after_append] at hopen
  refine (eq_escape_or_of_next hopen).resolve_left fun hescape => ?_
  have hstart : contextAt text k ≠ .escape quote := by
    rw [contextAt_eq]
    exact after_take_ne_escape hlines (by simp) (Nat.lt_of_succ_lt hk)
  exact getLast?_ne_of_isWholeImport hwhole (getLast?_of_after_escape hstart hescape)

theorem rawLines_mask (keep : Bool) (text : String) : rawLines (mask .slashed keep text) =
    (code.maskedLines keep (splitAfterFeeds text.toList)).map ofList := by
  rw [rawLines, toList_mask, splitAfterFeeds_masked]

/-- **Pruning takes lines out and leaves the others as they are.** It takes out as many as it counts, and none that
leaves a quoted text open. Masked, the others are what they were, if each line that goes, but for the last of the
text, ends within what it starts within. -/
theorem prune_keeps_contexts (text : String) (imports : List StaleImport) :
    (prune text imports).text =
        String.join (unflagged (staleFlags imports 1 (rawLines text)) (rawLines text)) ∧
      (prune text imports).imports + (prune text imports).reExports =
        (staleFlags imports 1 (rawLines text)).count true ∧
      (∀ k quote, (staleFlags imports 1 (rawLines text))[k]? = some true →
        k + 1 < (rawLines text).length → contextAt text (k + 1) = .literal quote → quote = '`') ∧
      ((∀ k, (staleFlags imports 1 (rawLines text))[k]? = some true →
          k + 1 < (rawLines text).length → contextAt text (k + 1) = contextAt text k) →
        ∀ keep, mask .slashed keep (prune text imports).text =
          String.join (unflagged (staleFlags imports 1 (rawLines text))
            (rawLines (mask .slashed keep text)))) := by
  refine ⟨text_pruneLines imports 1 _, count_pruneLines imports 1 _, fun k quote => eq_template_of_staleFlags, ?_⟩
  intro hsame keep
  have hkept : Context.code.KeptBy (staleFlags imports 1 (rawLines text)) (Text.splitAfterFeeds text.toList) := by
    intro k hflag hk
    rw [← contextAt_eq, ← contextAt_eq]
    exact hsame k hflag (by rwa [rawLines, List.length_map])
  rw [← String.toList_inj, toList_mask, prune, text_pruneLines, rawLines_mask, masked_eq_masked_code, unflagged_map,
    join_map_ofList, String.toList_ofList, ← Context.masked_unflagged (Text.isLines_splitAfterFeeds _) hkept]
  rw [rawLines, unflagged_map, join_map_ofList, String.toList_ofList]

def scriptWithTemplate : String := "import './a';\nlet t = `\nimport './b'\n`; /* x\n*/ f();\n"

theorem prune_keeps_contexts_template :
    let imports : List StaleImport := [⟨1, .sideEffect, "./a"⟩, ⟨3, .sideEffect, "./b"⟩]
    let flags := [true, false, true, false, false]
    staleFlags imports 1 (rawLines scriptWithTemplate) = flags ∧
      (List.range 6).map (contextAt scriptWithTemplate) =
        [.code, .code, .literal '`', .literal '`', .comment, .code] ∧
      mask .slashed false (prune scriptWithTemplate imports).text =
        String.join (unflagged flags (rawLines (mask .slashed false scriptWithTemplate))) := by
  intro imports flags
  have hflags : staleFlags imports 1 (rawLines scriptWithTemplate) = flags := by decide +kernel
  have hcontexts : ∀ k < 5, flags[k]? = some true →
      contextAt scriptWithTemplate (k + 1) = contextAt scriptWithTemplate k := by
    decide +kernel
  have hlength : (rawLines scriptWithTemplate).length = 5 := by decide +kernel
  refine ⟨hflags, by decide +kernel, ?_⟩
  rw [← hflags]
  apply (prune_keeps_contexts scriptWithTemplate imports).2.2.2
  intro k hflag hk
  rw [hflags] at hflag
  exact hcontexts k (by omega) hflag

/-- An import is pruned along with the start of a comment, and what the comment hid is code. -/
theorem prune_uncovers_comment :
    let text := "import './a'; /* x\n*/ f();\n"
    let sites : List StaleImport :=
      (SourceUnit.ofText ⟨"a.js"⟩ text).summary.imports.map fun i => ⟨i.line, i.kind, i.target⟩
    let flags := staleFlags sites 1 (rawLines text)
    sites = [⟨1, .sideEffect, "./a"⟩] ∧ (prune text sites).text = "*/ f();\n" ∧
      mask .slashed false (prune text sites).text = "*/ f();\n" ∧
      String.join (unflagged flags (rawLines (mask .slashed false text))) = "   f();\n" := by
  decide +kernel

end Deadwood
