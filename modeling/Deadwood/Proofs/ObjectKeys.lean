import Deadwood.Proofs.ImportClauses
import Deadwood.Proofs.KeywordBlocks

/-!
# Keys of objects

What is assigned to `module.exports` may be an object, and exports its keys: names alone, names with values, and
methods. Entries are written out here with all that may be nested in them, and read again.

* **`objectKeys_slots`**: what is read from the entries of an object.
-/

namespace Deadwood.EcmaScript

open List Text
open String (ofList ofList_toList toList_append toList_ofList)

/-! ## How objects are written -/

abbrev isOpening (c : Char) : Bool := c == '{' || c == '(' || c == '['

abbrev isClosing (c : Char) : Bool := c == '}' || c == ')' || c == ']'

abbrev isKeyEnd (c : Char) : Bool := c == ':' || c == '('

/-- All brackets are closed again, by brackets of any kind, and `outer` holds of what stands outside of them. -/
abbrev Bracketed : (outer : Char → Prop) → List Char → Prop := Nested isOpening isClosing

/-- A character with a meaning in entries. -/
def isEntryMark (c : Char) : Bool := isOpening c || isClosing c || isKeyEnd c || c == ',' || c == '.'

/-- An identifier that is a key. -/
structure Key extends Identifier where
  unbroken : text.toList.all (!isEntryMark ·) = true := by decide

/-- A key alone, a key with its value, or a method with its arguments and statements. -/
inductive ObjectEntry where
  | short (key : Key)
  | value (key : Key) (v : List Char) (h : Bracketed (· ≠ ',') v)
  | method (isAsync : Bool) (key : Key) (args stmts : List Char) (hargs : Bracketed (fun _ => True) args)
      (hstmts : Bracketed (fun _ => True) stmts)

namespace ObjectEntry

def key : ObjectEntry → Key
  | short key | value key _ _ | method _ key _ _ _ _ => key

def isAsync : ObjectEntry → Bool
  | method isAsync _ _ _ _ _ => isAsync
  | _ => false

/-- The key, perhaps with the word `async` before it. -/
def head (e : ObjectEntry) : String := if e.isAsync then "async" ++ " " ++ e.key.text else e.key.text

/-- What stands behind the key. -/
def tail : ObjectEntry → List Char
  | short _ => []
  | value _ v _ => ':' :: v
  | method _ _ args stmts _ _ => '(' :: (args ++ ')' :: ' ' :: '{' :: (stmts ++ ['}']))

end ObjectEntry

/-- What stands between two commas: an entry with white space around it, or white space alone. -/
structure Slot where
  before : Blanks
  entry : Option ObjectEntry
  after : Blanks

def Slot.text (s : Slot) : String := match s.entry with
  | none => s.before.text ++ s.after.text
  | some e => s.before.text ++ e.head ++ (ofList e.tail ++ s.after.text)

/-! ## What is cut at commas -/

variable {c : Char} {cs : List Char} {outer : Char → Prop} {depth : Nat}

theorem bracketed_of_forall (h : ∀ c ∈ cs, isEntryMark c = false) : Bracketed (· ≠ ',') cs := by
  induction cs with
  | nil => exact .nil
  | cons c cs ih =>
    obtain ⟨hc, hcs⟩ := forall_mem_cons.1 h
    simp only [isEntryMark, Bool.or_eq_false_iff, beq_eq_false_iff_ne] at hc
    exact .other (by simp [hc]) (by simp [hc]) hc.1.2 (ih hcs)

/-- **Text with its brackets closed is passed**, if it has no comma outside of them, or is in brackets itself. -/
theorem objectParts_bracketed (h : Bracketed outer cs) (hcomma : depth = 0 → ∀ c, outer c → c ≠ ',')
    (piece rest : List Char) : objectParts depth piece (cs ++ rest) = objectParts depth (cs.reverse ++ piece) rest := by
  induction h generalizing depth piece rest with
  | nil => rfl
  | @other outer c cs hopens hcloses hc _ ih =>
    have hpass : ¬ (c = ',' ∧ depth = 0) := fun ⟨heq, hzero⟩ => hcomma hzero c hc heq
    rw [cons_append, objectParts, if_neg (by simp [hopens]), if_neg (by simp [hcloses]), if_neg (by simpa using hpass),
      ih hcomma, reverse_cons, append_assoc, singleton_append]
  | @block outer a b inner cs ha _ hb _ ihinner ih =>
    have hopens : ¬ isOpening b = true := by
      simp only [Bool.or_eq_true, beq_iff_eq] at hb
      rcases hb with (rfl | rfl) | rfl <;> decide
    rw [cons_append, append_assoc, objectParts, if_pos ha, ihinner (by simp), cons_append, objectParts, if_neg hopens,
      if_pos hb, Nat.add_sub_cancel, ih hcomma]
    simp

theorem Key.isEntryMark_of_mem (key : Key) : ∀ c ∈ key.text.toList, isEntryMark c = false := by
  simpa using key.unbroken

theorem Blanks.bracketed (space : Blanks) : Bracketed (· ≠ ',') space.text.toList := by
  refine bracketed_of_forall fun c hc => ?_
  have hblank := space.isBlank_of_mem c hc
  by_contra hmark
  simp only [isEntryMark, Bool.not_eq_false, Bool.or_eq_true, beq_iff_eq] at hmark
  rcases hmark with (((((rfl | rfl) | rfl) | (rfl | rfl) | rfl) | rfl | rfl) | rfl) | rfl <;>
    exact absurd hblank (by decide)

namespace ObjectEntry

variable (e : ObjectEntry)

theorem isEntryMark_of_mem_head : ∀ c ∈ e.head.toList, isEntryMark c = false := by
  have hasync : ∀ c ∈ ("async" ++ " ").toList, isEntryMark c = false := by simp [isEntryMark]
  unfold head
  split
  · rw [toList_append, forall_mem_append]
    exact ⟨hasync, e.key.isEntryMark_of_mem⟩
  · exact e.key.isEntryMark_of_mem

theorem bracketed_tail : Bracketed (· ≠ ',') e.tail := by
  match e with
  | short _ => exact .nil
  | value _ v h => exact .other (by decide) (by decide) (by decide) h
  | method _ _ args stmts hargs hstmts =>
    exact .block (by decide) hargs (by decide) (.other (by decide) (by decide) (by decide)
      (.block (by decide) hstmts (by decide) .nil))

end ObjectEntry

theorem Slot.bracketed (s : Slot) : Bracketed (· ≠ ',') s.text.toList := by
  unfold text
  split
  · simpa using s.before.bracketed.append s.after.bracketed
  · rename_i e _
    have hhead := bracketed_of_forall e.isEntryMark_of_mem_head
    simpa using s.before.bracketed.append (hhead.append (e.bracketed_tail.append s.after.bracketed))

/-- **Slots are cut apart again.** -/
theorem objectParts_slots (s : Slot) (slots : List Slot) :
    objectParts 0 [] (join "," ((s :: slots).map (·.text))).toList = (s :: slots).map (·.text.toList) := by
  have hslot (s : Slot) (rest : List Char) :
      objectParts 0 [] (s.text.toList ++ rest) = objectParts 0 s.text.toList.reverse rest := by
    simpa using objectParts_bracketed s.bracketed (fun _ _ h => h) [] rest
  induction slots generalizing s with
  | nil => simpa [join, objectParts] using hslot s []
  | cons t slots ih =>
    have hcomma (rest : List Char) : objectParts 0 s.text.toList.reverse (',' :: rest) =
        s.text.toList :: objectParts 0 [] rest := by simp [objectParts]
    rw [map_cons, join_cons (by simp), toList_append, toList_append, append_assoc, hslot]
    exact (hcomma _).trans (congrArg _ (ih t))

/-! ## What is read from a slot -/

theorem dropHeads_eq_self {head : List Char} (h : ¬ head <+: cs) (fuel : Nat) : dropHeads head fuel cs = cs := by
  cases fuel with
  | zero => rfl
  | succ fuel => rw [dropHeads, afterHead?_eq_none_iff.2 h]

/-- The text before the first colon or bracket, if that is all there is to it. -/
theorem headD_splitWhere_trim {head after : String} (hhead : IsSolid head)
    (hends : ∀ c ∈ head.toList, isKeyEnd c = false)
    (before : Blanks) (hafter : ∀ c ∈ (dropWhileEnd isBlank after.toList).head?, isKeyEnd c = true) :
    trim ((splitWhere isKeyEnd (trim (before.text ++ head ++ after))).headD "") = head := by
  rw [hhead.trim_between before.isBlank_of_mem, splitWhere, toList_append, toList_ofList]
  cases hcs : dropWhileEnd isBlank after.toList with
  | nil =>
    rw [append_nil, splitList_eq_singleton hends, map_singleton, headD_cons, ofList_toList, hhead.trim_eq]
  | cons c cs =>
    rw [hcs] at hafter
    rw [splitList_append (hafter c rfl), splitList_eq_singleton hends, singleton_append, map_cons, headD_cons,
      ofList_toList, hhead.trim_eq]

namespace ObjectEntry

variable (e : ObjectEntry)

theorem isKeyEnd_of_tail (after : Blanks) :
    ∀ c ∈ (dropWhileEnd isBlank (ofList e.tail ++ after.text).toList).head?, isKeyEnd c = true := by
  have hcons {c : Char} (hc : isKeyEnd c = true) (hblank : isBlank c = false) (cs : List Char) :
      ∀ d ∈ (dropWhileEnd isBlank (c :: cs)).head?, isKeyEnd d = true := by
    rw [← singleton_append, dropWhileEnd_append_of_last (by simpa using hblank)]
    simpa using hc
  rw [toList_append, toList_ofList]
  match e with
  | short _ =>
    rw [tail, dropWhileEnd_append_eq (by simp) after.isBlank_of_mem]
    simp
  | value _ _ _ => exact hcons (by decide) (by decide) _
  | method _ _ _ _ _ _ => exact hcons (by decide) (by decide) _

theorem isKeyEnd_of_mem_head : ∀ c ∈ e.head.toList, isKeyEnd c = false := by
  intro c hc
  have hmark := e.isEntryMark_of_mem_head c hc
  simp only [isEntryMark, Bool.or_eq_false_iff] at hmark
  simp [hmark]

theorem isSolid_head : IsSolid e.head := by
  have hasync : IsSolid "async" := ⟨⟨'a', rfl, by decide⟩, ⟨'c', rfl, by decide⟩⟩
  unfold head
  split
  · exact hasync.around e.key.isSolid " "
  · exact e.key.isSolid

theorem dropHeads_head : dropHeads "async ".toList e.head.length e.head.toList = e.key.text.toList := by
  have hstep (fuel : Nat) : dropHeads "async ".toList (fuel + 1) ("async ".toList ++ e.key.text.toList) =
      dropHeads "async ".toList fuel e.key.text.toList := by
    simp only [dropHeads, afterHead?_eq_some_iff.2 rfl]
  have hkey (fuel : Nat) : dropHeads "async ".toList fuel e.key.text.toList = e.key.text.toList :=
    dropHeads_eq_self (fun h => e.key.space_notMem (h.subset (by decide))) fuel
  unfold head
  split
  · have htoList : ("async" ++ " " ++ e.key.text).toList = "async ".toList ++ e.key.text.toList := toList_append
    rw [← String.length_toList, htoList, length_append, Nat.add_comm]
    exact (hstep (e.key.text.toList.length + 5)).trans (hkey _)
  · exact hkey _

/-- **An entry gives its key**, if letters, digits, `_` and `$` are all that the key has. -/
theorem objectKey?_padded (before after : Blanks) :
    objectKey? (before.text ++ e.head ++ (ofList e.tail ++ after.text)).toList =
      if e.key.text.toList.all isNameChar then some e.key.text else none := by
  have hdots : ¬ "...".toList <+: e.key.text.toList := fun h =>
    absurd (e.key.isEntryMark_of_mem '.' (h.subset (by decide))) (by decide)
  rw [objectKey?, ofList_toList, headD_splitWhere_trim e.isSolid_head e.isKeyEnd_of_mem_head before
    (e.isKeyEnd_of_tail after), e.dropHeads_head, dropHeads_eq_self hdots, ofList_toList, e.key.isSolid.trim_eq]
  simp [e.key.nonempty]

end ObjectEntry

theorem Slot.objectKey?_text (s : Slot) :
    objectKey? s.text.toList = (s.entry.map (·.key.text)).filter (·.toList.all isNameChar) := by
  unfold text
  split
  · rename_i hentry
    have hblank : trim (s.before.text ++ s.after.text) = "" := by
      refine trim_blanks ?_
      rw [toList_append, forall_mem_append]
      exact ⟨s.before.isBlank_of_mem, s.after.isBlank_of_mem⟩
    rw [hentry, objectKey?, ofList_toList, hblank]
    decide
  · rename_i e hentry
    rw [hentry, e.objectKey?_padded, Option.map_some, Option.filter_some]

/-- **The keys of an object are found, in order**, but for those in which there is more than letters, digits, `_` and
`$`. -/
theorem objectKeys_slots (slots : List Slot) : objectKeys (join "," (slots.map (·.text))) =
    (slots.filterMap (·.entry.map (·.key.text))).filter (·.toList.all isNameChar) := by
  cases slots with
  | nil => decide
  | cons s slots =>
    rw [objectKeys, objectParts_slots, filterMap_map, List.filter_filterMap]
    refine filterMap_congr fun s _ => ?_
    rw [Function.comp_apply, s.objectKey?_text]

/-- An accent that is a character of its own is more than letters. -/
theorem objectKeys_accent : objectKeys "e\u0301" = [] ∧ objectKeys "\u00e9" = ["\u00e9"] := by decide

end Deadwood.EcmaScript
