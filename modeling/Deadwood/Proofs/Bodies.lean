import Deadwood.Proofs.Blocks

/-!
# Heads and bodies of declarations

A declaration is a head and a body in braces, or a head and a semicolon. Semicolons may stand in the brackets of a head
and anywhere in a body, and the braces of a body may be nested to any depth.

* **`blockEnd_matches`**: the end of a block is the brace that closes it.
-/

namespace Deadwood

open List Text

variable {body cs head rest : List Char} {c : Char} {brackets depth offset : Nat}

/-- The round and square brackets that are open behind some characters, if `brackets` are open before them. A closing
one without an opening one does not count. -/
def bracketsAfter (brackets : Nat) (cs : List Char) : Nat :=
  cs.foldl (fun n c => if c ∈ ['(', '['] then n + 1 else if c ∈ [')', ']'] then n - 1 else n) brackets

/-- There is no brace, and every semicolon stands in brackets. -/
structure IsHead (head : List Char) : Prop where
  opening : '{' ∉ head
  closing : '}' ∉ head
  inBrackets : ∀ before after, head = before ++ ';' :: after → 0 < bracketsAfter 0 before

/-- Every brace has its partner. -/
inductive Balanced : List Char → Prop where
  | nil : Balanced []
  | other {c : Char} {cs : List Char} (hopening : c ≠ '{') (hclosing : c ≠ '}') (h : Balanced cs) : Balanced (c :: cs)
  | block {inner cs : List Char} (hinner : Balanced inner) (h : Balanced cs) : Balanced ('{' :: (inner ++ '}' :: cs))

/-! ## What is passed -/

theorem endByDepth_pass (hopening : c ≠ '{') (hclosing : c ≠ '}') (hstop : c = ';' → 0 < depth ∨ 0 < brackets) :
    endByDepth depth brackets offset (c :: rest) =
      endByDepth depth (bracketsAfter brackets [c]) (offset + c.utf8Size) rest := by
  conv => lhs; unfold endByDepth
  split
  · rfl
  · rfl
  · rfl
  · rfl
  · exact absurd rfl hopening
  · exact absurd rfl hclosing
  · rw [if_neg]
    · rfl
    · have := hstop rfl
      simp only [Bool.and_eq_true, decide_eq_true_eq]
      omega
  · simp_all [bracketsAfter]

/-- **A head is passed** up to what follows it. -/
theorem endByDepth_head (hopening : '{' ∉ head) (hclosing : '}' ∉ head)
    (hstop : ∀ before after, head = before ++ ';' :: after → 0 < bracketsAfter brackets before) :
    endByDepth 0 brackets offset (head ++ rest) =
      endByDepth 0 (bracketsAfter brackets head) (offset + byteLength head) rest := by
  induction head generalizing brackets offset with
  | nil => rfl
  | cons c head ih =>
    rw [mem_cons, not_or] at hopening hclosing
    rw [cons_append, endByDepth_pass (Ne.symm hopening.1) (Ne.symm hclosing.1), ih hopening.2 hclosing.2,
      byteLength_cons, Nat.add_assoc]
    · rfl
    · intro before after hhead
      exact hstop (c :: before) after (by rw [hhead, cons_append])
    · rintro rfl
      exact .inr (hstop [] head rfl)

/-- **A balanced text is passed** within a block, whatever else it holds. -/
theorem endByDepth_balanced (h : Balanced body) (depth brackets offset : Nat) (rest : List Char) : ∃ brackets',
    endByDepth (depth + 1) brackets offset (body ++ rest) =
      endByDepth (depth + 1) brackets' (offset + byteLength body) rest := by
  induction h generalizing depth brackets offset rest with
  | nil => exact ⟨brackets, rfl⟩
  | @other c cs hopening hclosing _ ih =>
    obtain ⟨brackets', hcs⟩ := ih depth (bracketsAfter brackets [c]) (offset + c.utf8Size) rest
    refine ⟨brackets', ?_⟩
    rw [cons_append, endByDepth_pass hopening hclosing fun _ => .inl (Nat.succ_pos depth), hcs,
      byteLength_cons, Nat.add_assoc]
  | @block inner cs _ _ ihinner ih =>
    obtain ⟨within, hinner⟩ := ihinner (depth + 1) brackets (offset + 1) ('}' :: (cs ++ rest))
    obtain ⟨brackets', hcs⟩ := ih depth within (offset + 1 + byteLength inner + 1) rest
    refine ⟨brackets', ?_⟩
    have hsize : byteLength ('{' :: (inner ++ '}' :: cs)) = 1 + byteLength inner + 1 + byteLength cs := by
      have hbrace : '{'.utf8Size = 1 ∧ '}'.utf8Size = 1 := by decide
      simp only [byteLength_cons, byteLength_append, hbrace]
      omega
    rw [hsize, cons_append, append_assoc, cons_append]
    -- the braces of the inner block take the depth up by one and down again
    calc endByDepth (depth + 1) brackets offset ('{' :: (inner ++ '}' :: (cs ++ rest)))
        = endByDepth (depth + 2) within (offset + 1 + byteLength inner) ('}' :: (cs ++ rest)) := hinner
      _ = endByDepth (depth + 1) within (offset + 1 + byteLength inner + 1) (cs ++ rest) := rfl
      _ = _ := by rw [hcs]; congr 1; omega

/-! ## The end -/

theorem blockEnd?_append (pre cs : List Char) :
    blockEnd? (.ofList (pre ++ cs)) (byteLength pre) = endByDepth 0 0 (byteLength pre) cs := by
  have hplace (offset : Nat) : placeFrom (offset + byteLength pre) offset (pre ++ cs) =
      (offset + byteLength pre, cs) := by
    induction pre generalizing offset with
    | nil => cases cs <;> simp [placeFrom]
    | cons c pre ih =>
      have hpos := c.utf8Size_pos
      rw [cons_append, placeFrom, if_pos (by rw [byteLength_cons]; omega), byteLength_cons, ← Nat.add_assoc, ih]
  have hplace := hplace 0
  rw [Nat.zero_add] at hplace
  rw [blockEnd?_eq, String.toList_ofList, hplace]

/-- **A block ends with the brace that closes it.** Behind any text, a head and a balanced body in braces end with the
closing brace, and a head and a semicolon outside of all brackets end with the semicolon. What is found in any text is
a closing brace or a semicolon, and never before the start. -/
theorem blockEnd_matches :
    (∀ pre head body rest, IsHead head → Balanced body →
      blockEnd? (.ofList (pre ++ head ++ '{' :: body ++ '}' :: rest)) (Text.byteLength pre) =
        some (Text.byteLength (pre ++ head ++ '{' :: body))) ∧
    (∀ pre head rest, IsHead head → bracketsAfter 0 head = 0 →
      blockEnd? (.ofList (pre ++ head ++ ';' :: rest)) (Text.byteLength pre) = some (Text.byteLength (pre ++ head))) ∧
    ∀ text start n, blockEnd? text start = some n → start ≤ n ∧
      ∃ before c after, text.toList = before ++ c :: after ∧ Text.byteLength before = n ∧ (c = '}' ∨ c = ';') := by
  have hpass {pre head : List Char} (h : IsHead head) (rest : List Char) : blockEnd? (.ofList (pre ++ (head ++ rest)))
      (Text.byteLength pre) =
        endByDepth 0 (bracketsAfter 0 head) (Text.byteLength pre + Text.byteLength head) rest := by
    rw [blockEnd?_append, endByDepth_head h.opening h.closing h.inBrackets]
  refine ⟨fun pre head body rest h hbody => ?_, fun pre head rest h hclosed => ?_,
    fun text start n hend => blockEnd?_eq_some hend⟩
  · obtain ⟨brackets, hinner⟩ := endByDepth_balanced hbody 0 (bracketsAfter 0 head)
      (Text.byteLength pre + Text.byteLength head + 1) ('}' :: rest)
    rw [List.append_assoc, List.append_assoc, List.cons_append, hpass h]
    refine hinner.trans ?_
    have hbrace : '{'.utf8Size = 1 := by decide
    simp only [endByDepth, Nat.zero_add, Nat.le_refl, if_true, Text.byteLength_append, Text.byteLength_cons, hbrace]
    congr 1
    omega
  · rw [List.append_assoc, hpass h, hclosed, Text.byteLength_append]
    rfl

/-- A semicolon in brackets before the body, and braces and stray brackets in it. -/
theorem blockEnd_matches_nested : IsHead [')', '(', ';', 'é'] ∧ Balanced ['x', ';', '{', '{', ')', '}', ';', '}'] ∧
    blockEnd? "\x7d; )(;é\x7bx;\x7b\x7b)\x7d;\x7d\x7d;\x7d" 3 = some 17 := by
  have hhead : IsHead [')', '(', ';', 'é'] := by
    refine ⟨by decide, by decide, fun before after heq => ?_⟩
    rcases before with _ | ⟨a, _ | ⟨b, _ | ⟨c, _ | ⟨d, before⟩⟩⟩⟩ <;> simp at heq
    obtain ⟨rfl, rfl, -⟩ := heq
    decide
  have hbody : Balanced ['x', ';', '{', '{', ')', '}', ';', '}'] :=
    .other (by decide) (by decide) (.other (by decide) (by decide)
      (.block (.block (.other (by decide) (by decide) .nil) (.other (by decide) (by decide) .nil)) .nil))
  have hend := blockEnd_matches.1 ['}', ';', ' '] _ _ [';', '}'] hhead hbody
  have htext : String.ofList (['}', ';', ' '] ++ [')', '(', ';', 'é'] ++
      '{' :: ['x', ';', '{', '{', ')', '}', ';', '}'] ++ '}' :: [';', '}']) =
        "\x7d; )(;é\x7bx;\x7b\x7b)\x7d;\x7d\x7d;\x7d" := by decide
  rw [htext] at hend
  exact ⟨hhead, hbody, hend⟩

end Deadwood
