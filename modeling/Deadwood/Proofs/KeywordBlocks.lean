import Deadwood.Proofs.Blocks

/-!
# Blocks between keywords

Some words open blocks, and one closes them. Blocks are nested to any depth, and may be opened, closed and opened again
on one line.

* **`keywordBlockEnd_matches`**: a block ends on the line of the word that matches the one that opens it.
-/

namespace Deadwood

open List

/-- All that is opened is closed again, and `outer` holds of what stands outside. -/
inductive Nested {α : Type} (opens closes : α → Bool) : (outer : α → Prop) → List α → Prop
  | nil {outer : α → Prop} : Nested opens closes outer []
  | other {outer : α → Prop} {a : α} {as : List α} (hopens : opens a = false) (hcloses : closes a = false)
      (ha : outer a) (h : Nested opens closes outer as) : Nested opens closes outer (a :: as)
  | block {outer : α → Prop} {a b : α} {inner as : List α} (ha : opens a = true)
      (hinner : Nested opens closes (fun _ => True) inner) (hb : closes b = true)
      (h : Nested opens closes outer as) : Nested opens closes outer (a :: (inner ++ b :: as))

theorem Nested.append {α : Type} {opens closes : α → Bool} {outer : α → Prop} {as bs : List α}
    (has : Nested opens closes outer as) (hbs : Nested opens closes outer bs) :
    Nested opens closes outer (as ++ bs) := by
  induction has with
  | nil => exact hbs
  | other hopens hcloses ha _ ih => exact .other hopens hcloses ha (ih hbs)
  | block ha hinner hb _ _ ih => simpa using Nested.block ha hinner hb (ih hbs)

variable {openers : List String} {closer : String} {lines words : List String} {i r start : Nat}
  {behind body rest : List (Nat × String)}

/-- The words of lines with the numbers of their lines, from number `i` on. -/
def numberedWords (i : Nat) : List String → List (Nat × String)
  | [] => []
  | line :: lines => (codeWords line).map (i, ·) ++ numberedWords (i + 1) lines

/-- All blocks that are opened are closed. -/
abbrev NestedWords (openers : List String) (closer : String) :
    (outer : Nat × String → Prop) → List (Nat × String) → Prop :=
  Nested (openers.contains ·.2) (·.2 == closer)

/-- The word opens no block and closes none. -/
def IsIdle (openers : List String) (closer w : String) : Prop := openers.contains w = false ∧ (w == closer) = false

/-- The first word of the line that opens or closes a block opens one, and `behind` are the words behind it. -/
def OpensBlock (openers : List String) (closer : String) (lines : List String) (start : Nat)
    (behind : List (Nat × String)) : Prop :=
  ∃ line before w after, lines[start]? = some line ∧ codeWords line = before ++ w :: after ∧
    (∀ x ∈ before, IsIdle openers closer x) ∧ openers.contains w = true ∧
    behind = after.map (start, ·) ++ numberedWords (start + 1) (lines.drop (start + 1))

/-! ## The word that closes a block -/

/-- The line of the word that closes a block, within which `inner` more are open. -/
def closingLine? (openers : List String) (closer : String) (inner : Nat) : List (Nat × String) → Option Nat
  | [] => none
  | x :: xs =>
    if openers.contains x.2 then closingLine? openers closer (inner + 1) xs
    else if x.2 == closer then if inner = 0 then some x.1 else closingLine? openers closer (inner - 1) xs
    else closingLine? openers closer inner xs

section Matching

variable (hcloser : closer ∉ openers)
include hcloser

theorem closingLine?_closer {x : Nat × String} (hx : (x.2 == closer) = true) (inner : Nat) (xs : List (Nat × String)) :
    closingLine? openers closer inner (x :: xs) =
      if inner = 0 then some x.1 else closingLine? openers closer (inner - 1) xs := by
  rw [closingLine?, if_neg, if_pos hx]
  rwa [beq_iff_eq.1 hx, contains_iff_mem]

theorem closingLine?_nested {outer : Nat × String → Prop} (h : NestedWords openers closer outer body) (inner : Nat)
    (rest : List (Nat × String)) :
    closingLine? openers closer inner (body ++ rest) = closingLine? openers closer inner rest := by
  induction h generalizing inner rest with
  | nil => rfl
  | other hopens hcloses _ _ ih =>
    rw [cons_append, closingLine?, hopens, hcloses, if_neg Bool.false_ne_true, if_neg Bool.false_ne_true, ih]
  | block ha _ hb _ ihinner ih =>
    rw [cons_append, append_assoc, closingLine?, if_pos ha, ihinner, cons_append, closingLine?_closer hcloser hb,
      if_neg (Nat.succ_ne_zero inner), ih, Nat.add_sub_cancel]

/-- **What is closed is closed by a matching word.** -/
theorem exists_nested_of_closingLine? {inner : Nat} (xs : List (Nat × String))
    (h : closingLine? openers closer inner xs = some r) :
    ∃ body i after, xs = body ++ (i, closer) :: after ∧ NestedWords openers closer (fun _ => True) body := by
  match xs with
  | [] => cases h
  | x :: xs =>
    cases hopens : openers.contains x.2 with
    | true =>
      rw [closingLine?, if_pos hopens] at h
      obtain ⟨body, i, after, hxs, hbody⟩ := exists_nested_of_closingLine? xs h
      -- behind the block that `x` opens, the search goes on at the same depth
      rw [hxs, closingLine?_nested hcloser hbody, closingLine?_closer hcloser (beq_self_eq_true closer)] at h
      obtain ⟨body', i', after', hafter, hbody'⟩ := exists_nested_of_closingLine? after h
      exact ⟨x :: (body ++ (i, closer) :: body'), i', after', by simp [hxs, hafter],
        .block hopens hbody (by simp) hbody'⟩
    | false =>
      cases hcloses : x.2 == closer with
      | true => exact ⟨[], x.1, xs, by rw [← beq_iff_eq.1 hcloses]; rfl, .nil⟩
      | false =>
        rw [closingLine?, hopens, hcloses] at h
        obtain ⟨body, i, after, hxs, hbody⟩ := exists_nested_of_closingLine? xs h
        exact ⟨x :: body, i, after, by rw [hxs, cons_append], .other hopens hcloses trivial hbody⟩
termination_by xs.length
decreasing_by all_goals (simp_all; try omega)

end Matching

/-! ## Line by line -/

theorem keywordDepth_append (hbefore : ∀ x ∈ words, IsIdle openers closer x) (depth : Int) (ws : List String) :
    keywordDepth openers closer depth (words ++ ws) = keywordDepth openers closer depth ws := by
  induction words with
  | nil => rfl
  | cons w words ih =>
    obtain ⟨hw, hwords⟩ := forall_mem_cons.1 hbefore
    rw [cons_append, keywordDepth, hw.1, hw.2, ← ih hwords]
    rfl

theorem keywordDepth_cases (inner : Nat) (words : List String) (i : Nat) (rest : List (Nat × String)) :
    (keywordDepth openers closer (inner + 1) words = none ∧
      closingLine? openers closer inner (words.map (i, ·) ++ rest) = some i) ∨
    ∃ inner' : Nat, keywordDepth openers closer (inner + 1) words = some ((inner' : Int) + 1) ∧
      closingLine? openers closer inner (words.map (i, ·) ++ rest) = closingLine? openers closer inner' rest := by
  induction words generalizing inner with
  | nil => exact .inr ⟨inner, rfl, rfl⟩
  | cons w words ih =>
    simp only [keywordDepth, closingLine?, map_cons, cons_append, contains_iff_mem, beq_iff_eq]
    split
    · exact ih (inner + 1)
    split
    · cases inner with
      | zero => exact .inl ⟨rfl, rfl⟩
      | succ inner => simpa using ih inner
    · exact ih inner

/-- A line from some word on, within a block. -/
theorem keywordEndFrom_cons {depth : Int} {inner : Nat} {line : String}
    (hline : keywordDepth openers closer depth (codeWords line) = keywordDepth openers closer (inner + 1) words)
    (hlines : ∀ inner : Nat, keywordEndFrom openers closer start (i + 1) (inner + 1) lines =
      closingLine? openers closer inner rest) : keywordEndFrom openers closer start i depth (line :: lines) =
        closingLine? openers closer inner (words.map (i, ·) ++ rest) := by
  rw [keywordEndFrom, hline]
  rcases keywordDepth_cases inner words i rest with ⟨hdepth, hclosing⟩ | ⟨inner', hdepth, hclosing⟩
  · rw [hdepth, hclosing]
  · simp only [hdepth, hclosing, ← hlines]
    rw [if_neg (by simp)]

theorem keywordEndFrom_eq (inner i : Nat) (lines : List String) :
    keywordEndFrom openers closer start i (inner + 1) lines =
    closingLine? openers closer inner (numberedWords i lines) := by
  induction lines generalizing inner i with
  | nil => rfl
  | cons line lines ih => exact keywordEndFrom_cons rfl fun inner => ih inner (i + 1)

theorem OpensBlock.keywordEndFrom_zero (h : OpensBlock openers closer lines start behind) :
    keywordEndFrom openers closer start start 0 (lines.drop start) = closingLine? openers closer 0 behind := by
  obtain ⟨line, before, w, after, hline, hwords, hbefore, hw, rfl⟩ := h
  obtain ⟨hlt, hget⟩ := List.getElem?_eq_some_iff.1 hline
  have hopened : keywordDepth openers closer 0 (codeWords line) =
      keywordDepth openers closer ((0 : Nat) + 1) after := by
    rw [hwords, keywordDepth_append hbefore, keywordDepth, if_pos (by simpa using hw)]
    rfl
  rw [drop_eq_getElem_cons hlt, hget]
  exact keywordEndFrom_cons hopened fun inner => keywordEndFrom_eq inner _ _

/-- **A block ends on the line of the word that matches the one that opens it**, and on the last line if there is no
such word. A line that opens nothing ends itself. The end is a line, and none before the start. -/
theorem keywordBlockEnd_matches (lines : List String) (start : Nat) (openers : List String) (closer : String)
    (hcloser : closer ∉ openers) :
    (∀ body r after, OpensBlock openers closer lines start (body ++ (r, closer) :: after) →
      NestedWords openers closer (fun _ => True) body → keywordBlockEnd lines start openers closer = r) ∧
    (∀ behind, OpensBlock openers closer lines start behind →
      (∀ body r after, behind = body ++ (r, closer) :: after → ¬ NestedWords openers closer (fun _ => True) body) →
      keywordBlockEnd lines start openers closer = max (lines.length - 1) start) ∧
    ((∀ line, lines[start]? = some line → ∀ x ∈ codeWords line, IsIdle openers closer x) →
      keywordBlockEnd lines start openers closer = start) ∧
    start ≤ keywordBlockEnd lines start openers closer ∧
    (start < lines.length → keywordBlockEnd lines start openers closer < lines.length) := by
  have hbeyond (h : lines.length ≤ start) : keywordBlockEnd lines start openers closer = start := by
    rw [keywordBlockEnd, drop_eq_nil_of_le h, keywordEndFrom, Option.getD_none]
    omega
  refine ⟨fun body r after hopens hbody => ?_, fun behind hopens hnone => ?_, fun hidle => ?_, ?_,
    fun hstart => (keywordBlockEnd_mem hstart openers closer).2⟩
  · rw [keywordBlockEnd, hopens.keywordEndFrom_zero, closingLine?_nested hcloser hbody,
      closingLine?_closer hcloser (beq_self_eq_true closer), if_pos rfl, Option.getD_some]
  · rw [keywordBlockEnd, hopens.keywordEndFrom_zero]
    cases hend : closingLine? openers closer 0 behind with
    | none => rfl
    | some r =>
      obtain ⟨body, i, after, hbehind, hbody⟩ := exists_nested_of_closingLine? hcloser behind hend
      exact absurd hbody (hnone body i after hbehind)
  · by_cases hstart : start < lines.length
    · have hwords := hidle _ (getElem?_eq_getElem hstart)
      have hdepth := keywordDepth_append hwords 0 []
      rw [append_nil] at hdepth
      rw [keywordBlockEnd, drop_eq_getElem_cons hstart, keywordEndFrom, hdepth]
      simp [keywordDepth]
    · exact hbeyond (by omega)
  · by_cases hstart : start < lines.length
    · exact (keywordBlockEnd_mem hstart openers closer).1
    · exact Nat.le_of_eq (hbeyond (by omega)).symm

/-- A block within a block, and a block behind it on the line of its end. -/
theorem keywordBlockEnd_matches_inner : "end" ∉ ["def", "if"] ∧
    keywordBlockEnd ["def a if x", "y end", "end def b"] 0 ["def", "if"] "end" = 2 := by
  have hopens : OpensBlock ["def", "if"] "end" ["def a if x", "y end", "end def b"] 0
      ([(0, "a"), (0, "if"), (0, "x"), (1, "y"), (1, "end")] ++ (2, "end") :: [(2, "def"), (2, "b")]) :=
    ⟨"def a if x", [], "def", ["a", "if", "x"], rfl, by decide, by simp, by decide, by decide⟩
  have hinner : NestedWords ["def", "if"] "end" (fun _ => True) [(0, "x"), (1, "y")] :=
    .other (by decide) (by decide) trivial (.other (by decide) (by decide) trivial .nil)
  refine ⟨by decide, (keywordBlockEnd_matches _ 0 _ _ (by decide)).1 _ 2 _ hopens ?_⟩
  exact .other (by decide) (by decide) trivial (.block (by decide) hinner (by decide) .nil)

end Deadwood
