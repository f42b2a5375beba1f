import Deadwood.Proofs.Text
import Deadwood.Source.Fault

/-!
# Offsets between characters

Offsets count bytes, and a text can only be cut where a character ends and the next one starts.
`Yields` is how the readers are specified: by what they give, and by what may stop them.
-/

namespace Deadwood

open Text String Option List

variable {start stop : Nat} {text : String} {α β : Type} {excuse : Prop} {x : Except Fault α}

namespace Text

variable {c : Char} {p : Char → Bool} {cs head rest tail : List Char} {n offset start stop : Nat} {s t : String}

/-! ## Bytes of characters -/

@[simp] theorem byteLength_nil : byteLength [] = 0 := rfl

@[simp] theorem byteLength_cons (c : Char) (cs : List Char) : byteLength (c :: cs) = c.utf8Size + byteLength cs := rfl

@[simp] theorem byteLength_append (xs ys : List Char) : byteLength (xs ++ ys) = byteLength xs + byteLength ys := by
  induction xs with
  | nil => simp
  | cons c xs ih =>
    simp only [cons_append, byteLength_cons, ih]
    omega

theorem byteLength_eq_zero_iff : byteLength cs = 0 ↔ cs = [] := by
  cases cs with
  | nil => simp
  | cons c cs =>
    have := c.utf8Size_pos
    simp only [byteLength_cons, reduceCtorEq, iff_false]
    omega

@[simp] theorem byteLength_toList (s : String) : byteLength s.toList = s.utf8ByteSize := by
  have hlist (cs : List Char) : byteLength cs = (String.ofList cs).utf8ByteSize := by
    induction cs with
    | nil => simp
    | cons c cs ih =>
      rw [byteLength_cons, ih, ← singleton_append, ofList_append, utf8ByteSize_append,
        ← singleton_eq_ofList, utf8ByteSize_singleton]
  rw [hlist, ofList_toList]

theorem cons_eq_split_iff : c :: cs = head ++ rest ∧ byteLength head = n + 1 ↔
      c.utf8Size ≤ n + 1 ∧ ∃ front, head = c :: front ∧ cs = front ++ rest ∧ byteLength front = n + 1 - c.utf8Size := by
  constructor
  · rintro ⟨hcs, h⟩
    cases head with
    | nil => simp at h
    | cons d front =>
      obtain ⟨rfl, htail⟩ := List.cons.inj hcs
      rw [byteLength_cons] at h
      exact ⟨by omega, front, rfl, htail, by omega⟩
  · rintro ⟨hle, front, rfl, rfl, h⟩
    exact ⟨rfl, by rw [byteLength_cons]; omega⟩

theorem nil_ne_split : ¬ ([] = head ++ rest ∧ byteLength head = n + 1) := by
  rintro ⟨h, hn⟩
  obtain ⟨rfl, -⟩ := append_eq_nil_iff.1 h.symm
  simp at hn

theorem dropBytes?_eq_some_iff : dropBytes? n cs = some rest ↔ ∃ head, cs = head ++ rest ∧ byteLength head = n := by
  fun_induction dropBytes? n cs with
  | case1 cs => simp [byteLength_eq_zero_iff]
  | case2 n => simp [nil_ne_split, -nil_eq, -append_eq_nil_iff]
  | case3 n c cs hle ih =>
    rw [ih]
    simp only [cons_eq_split_iff, hle, true_and]
    exact ⟨fun ⟨front, h⟩ => ⟨_, front, rfl, h⟩, fun ⟨_, front, _, h⟩ => ⟨front, h⟩⟩
  | case4 n c cs hgt => simp [cons_eq_split_iff, hgt]

theorem takeBytes?_eq_some_iff : takeBytes? n cs = some head ↔ ∃ rest, cs = head ++ rest ∧ byteLength head = n := by
  fun_induction takeBytes? n cs generalizing head with
  | case1 cs =>
    simp only [Option.some.injEq, byteLength_eq_zero_iff]
    exact ⟨fun h => ⟨cs, by simp [← h], h.symm⟩, by rintro ⟨_, -, rfl⟩; rfl⟩
  | case2 n => simp [nil_ne_split, -nil_eq, -append_eq_nil_iff]
  | case3 n c cs hle ih =>
    simp only [map_eq_some_iff, ih, cons_eq_split_iff, hle, true_and]
    constructor
    · rintro ⟨front, ⟨rest, h⟩, rfl⟩
      exact ⟨rest, front, rfl, h⟩
    · rintro ⟨rest, front, rfl, h⟩
      exact ⟨front, ⟨rest, h⟩, rfl⟩
  | case4 n c cs hgt => simp [cons_eq_split_iff, hgt]
/-! ## Boundaries -/

/-- The offset lies between two characters of the text, or at one of its ends. -/
def IsBoundary (s : String) (n : Nat) : Prop := ∃ head tail, s.toList = head ++ tail ∧ byteLength head = n

theorem isBoundary_zero (s : String) : IsBoundary s 0 := ⟨[], s.toList, rfl, rfl⟩

theorem isBoundary_size (s : String) : IsBoundary s s.utf8ByteSize := ⟨s.toList, [], by simp, by simp⟩

theorem IsBoundary.le_size (h : IsBoundary s n) : n ≤ s.utf8ByteSize := by
  obtain ⟨head, tail, hs, rfl⟩ := h
  rw [← byteLength_toList, hs, byteLength_append]
  omega

theorem IsBoundary.max {a b : Nat} (ha : IsBoundary s a) (hb : IsBoundary s b) : IsBoundary s (max a b) := by
  rcases Nat.le_total a b with h | h
  · rwa [Nat.max_eq_right h]
  · rwa [Nat.max_eq_left h]

theorem IsBoundary.shift {part : String} (h : IsBoundary part n)
    (hs : s.toList = head ++ (part.toList ++ tail)) : IsBoundary s (byteLength head + n) := by
  obtain ⟨front, back, hpart, rfl⟩ := h
  exact ⟨head ++ front, back ++ tail, by simp [hs, hpart], by simp⟩

theorem exists_part {head' tail' : List Char} (h : head ++ tail = head' ++ tail')
    (hle : byteLength head ≤ byteLength head') : ∃ part, head' = head ++ part ∧ tail = part ++ tail' := by
  rcases append_eq_append_iff.1 h with ⟨part, hhead, htail⟩ | ⟨part, hhead, htail⟩
  · exact ⟨part, hhead, htail⟩
  · have hpart : part = [] := byteLength_eq_zero_iff.1 (by rw [hhead, byteLength_append] at hle; omega)
    subst hpart
    exact ⟨[], by simp [hhead], by simp [htail]⟩

theorem from?_eq_some_iff : from? s n = some t ↔ ∃ head, s.toList = head ++ t.toList ∧ byteLength head = n := by
  rw [from?, map_eq_some_iff]
  constructor
  · rintro ⟨rest, hrest, rfl⟩
    simpa using dropBytes?_eq_some_iff.1 hrest
  · intro h
    exact ⟨t.toList, dropBytes?_eq_some_iff.2 h, ofList_toList⟩

theorem cut?_eq_some_iff : cut? s start stop = some t ↔
    ∃ head tail, s.toList = head ++ (t.toList ++ tail) ∧ byteLength head = start ∧ start + t.utf8ByteSize = stop := by
  rw [cut?]
  split
  · rename_i hle
    simp only [bind_eq_bind, bind_eq_some_iff, dropBytes?_eq_some_iff, takeBytes?_eq_some_iff,
      Option.pure_def, Option.some.injEq]
    constructor
    · rintro ⟨_, ⟨head, hs, hhead⟩, part, ⟨tail, rfl, hpart⟩, rfl⟩
      refine ⟨head, tail, by simpa using hs, hhead, ?_⟩
      rw [← byteLength_toList, toList_ofList]
      omega
    · rintro ⟨head, tail, hs, hhead, hstop⟩
      refine ⟨_, ⟨head, hs, hhead⟩, t.toList, ⟨tail, rfl, ?_⟩, ofList_toList⟩
      rw [byteLength_toList]
      omega
  · simp only [reduceCtorEq, false_iff]
    rintro ⟨head, tail, -, -, hstop⟩
    omega

theorem isSome_from?_iff : (∃ t, from? s n = some t) ↔ IsBoundary s n := by
  simp only [from?_eq_some_iff]
  constructor
  · rintro ⟨t, head, h⟩
    exact ⟨head, t.toList, h⟩
  · rintro ⟨head, tail, h⟩
    exact ⟨String.ofList tail, head, by simpa using h⟩

theorem isSome_cut?_iff : (∃ t, cut? s start stop = some t) ↔
    start ≤ stop ∧ IsBoundary s start ∧ IsBoundary s stop := by
  simp only [cut?_eq_some_iff]
  constructor
  · rintro ⟨t, head, tail, hs, rfl, rfl⟩
    exact ⟨Nat.le_add_right _ _, ⟨head, _, hs, rfl⟩, head ++ t.toList, tail, by simpa using hs, by simp⟩
  · rintro ⟨hle, ⟨head, tail, hs, rfl⟩, head', tail', hs', rfl⟩
    obtain ⟨part, rfl, rfl⟩ := exists_part (hs ▸ hs') hle
    exact ⟨String.ofList part, head, tail', by simpa using hs, rfl, by rw [← byteLength_toList]; simp⟩

/-! ## Looking for a place to cut -/

theorem findWhereFrom?_eq_some (h : findWhereFrom? p offset cs = some n) :
    ∃ head c tail, cs = head ++ c :: tail ∧ p c = true ∧ n = offset + byteLength head := by
  fun_induction findWhereFrom? p offset cs with
  | case1 => cases h
  | case2 offset c cs hc =>
    cases h
    exact ⟨[], c, cs, rfl, hc, rfl⟩
  | case3 offset c cs hc ih =>
    obtain ⟨head, d, tail, rfl, hd, rfl⟩ := ih h
    exact ⟨c :: head, d, tail, rfl, hd, by simp [Nat.add_assoc]⟩

theorem findWhereFrom?_append (hc : p c = true) {before : List Char}
    (h : ∀ d ∈ before, p d = false) (after : List Char) (offset : Nat) :
    findWhereFrom? p offset (before ++ c :: after) = some (offset + byteLength before) := by
  induction before generalizing offset with
  | nil => simp [findWhereFrom?, hc]
  | cons d before ih =>
    obtain ⟨hd, hbefore⟩ := forall_mem_cons.1 h
    rw [cons_append, findWhereFrom?, if_neg (by simp [hd]), ih hbefore, byteLength_cons, Nat.add_assoc]

theorem findWhereFrom?_eq_none (h : ∀ c ∈ cs, p c = false) (offset : Nat) : findWhereFrom? p offset cs = none := by
  induction cs generalizing offset with
  | nil => rfl
  | cons c cs ih =>
    obtain ⟨hc, hcs⟩ := forall_mem_cons.1 h
    rw [findWhereFrom?, if_neg (by simp [hc]), ih hcs]

theorem findLastWhereFrom?_eq_some (h : findLastWhereFrom? p offset cs = some n) :
    ∃ head c tail, cs = head ++ c :: tail ∧ p c = true ∧ n = offset + byteLength head := by
  induction cs generalizing offset with
  | nil => cases h
  | cons c cs ih =>
    simp only [findLastWhereFrom?, orElse_eq_orElse, orElse_eq_or, or_eq_some_iff] at h
    rcases h with h | ⟨-, h⟩
    · obtain ⟨head, d, tail, rfl, hd, rfl⟩ := ih h
      exact ⟨c :: head, d, tail, rfl, hd, by simp [Nat.add_assoc]⟩
    · obtain ⟨hc, rfl⟩ : p c = true ∧ offset = n := by simpa using h
      exact ⟨[], c, cs, rfl, hc, rfl⟩

theorem isBoundary_findWhere? (h : findWhere? p s = some n) : IsBoundary s n := by
  obtain ⟨head, c, tail, hs, -, rfl⟩ := findWhereFrom?_eq_some h
  exact ⟨head, c :: tail, hs, by simp⟩

theorem find?_eq_some {needle : String} (h : find? s needle = some n) :
    ∃ head tail, s.toList = head ++ (needle.toList ++ tail) ∧ byteLength head = n := by
  rw [find?, map_eq_some_iff] at h
  obtain ⟨⟨head, tail⟩, hbreak, rfl⟩ := h
  exact ⟨head, tail, by simpa using eq_append_of_breakAt? hbreak, rfl⟩

end Text

/-! ## What a reader gives -/

/-- A computation that gives a value with a property, unless `excuse` holds and it is stopped. -/
structure Yields {α : Type} (excuse : Prop) (x : Except Fault α) (P : α → Prop) : Prop where
  of_ok : ∀ a, x = .ok a → P a
  of_error : ∀ fault, x = .error fault → excuse

variable {P : α → Prop} {f : α → Except Fault β}

@[simp] theorem yields_ok {a : α} : Yields excuse (.ok a) P ↔ P a :=
  ⟨fun h => h.of_ok a rfl, fun h => ⟨fun _ hb => Except.ok.inj hb ▸ h, nofun⟩⟩

@[simp] theorem yields_error {fault : Fault} : Yields excuse (.error fault) P ↔ excuse :=
  ⟨fun h => h.of_error fault rfl, fun h => ⟨nofun, fun _ _ => h⟩⟩

@[simp] theorem yields_pure {a : α} : Yields excuse (pure a) P ↔ P a := yields_ok

theorem Yields.mono {Q : α → Prop} (h : Yields excuse x P) (hPQ : ∀ a, P a → Q a) : Yields excuse x Q where
  of_ok a ha := hPQ a (h.of_ok a ha)
  of_error := h.of_error

theorem Yields.of_excuse (h : excuse) (x : Except Fault α) : Yields excuse x fun _ => True :=
  ⟨fun _ _ => trivial, fun _ _ => h⟩

theorem Yields.weaken {excuse' : Prop} (h : Yields excuse x P) (himp : excuse → excuse') : Yields excuse' x P :=
  ⟨h.of_ok, fun fault hfault => himp (h.of_error fault hfault)⟩

theorem Yields.exists_ok (h : Yields False x P) : ∃ a, x = .ok a ∧ P a := by
  cases x with
  | ok a => exact ⟨a, rfl, yields_ok.1 h⟩
  | error fault => exact (yields_error.1 h).elim

theorem Yields.bind {Q : β → Prop}
    (hx : Yields excuse x P) (hf : ∀ a, P a → Yields excuse (f a) Q) : Yields excuse (x >>= f) Q := by
  cases x with
  | ok a => exact hf a (yields_ok.1 hx)
  | error fault => exact yields_error.2 (yields_error.1 hx)

theorem yields_mapM {Q : β → Prop} {as : List α}
    (h : ∀ a ∈ as, Yields excuse (f a) Q) : Yields excuse (as.mapM f) (∀ b ∈ ·, Q b) := by
  induction as with
  | nil => simp
  | cons a as ih =>
    obtain ⟨ha, has⟩ := forall_mem_cons.1 h
    rw [mapM_cons]
    exact ha.bind fun b hb => (ih has).bind fun bs hbs => yields_pure.2 (forall_mem_cons.2 ⟨hb, hbs⟩)

theorem exists_ok_of_mapM {as : List α} {bs : List β} (h : as.mapM f = .ok bs) {a : α}
    (ha : a ∈ as) : ∃ b, f a = .ok b := by
  induction as generalizing bs with
  | nil => cases ha
  | cons x as ih =>
    rw [mapM_cons] at h
    cases hx : f x with
    | error fault =>
      rw [hx] at h
      cases h
    | ok b =>
      cases hrest : as.mapM f with
      | error fault =>
        rw [hx, hrest] at h
        cases h
      | ok bs =>
        rcases mem_cons.1 ha with rfl | ha
        · exact ⟨b, hx⟩
        · exact ih hrest ha

/-! ## The operations that can stop a reader -/

theorem yields_minus {a b : Nat} (h : b ≤ a) : Yields excuse (minus a b) (· = a - b) := by
  rw [minus, if_pos h, yields_ok]

theorem yields_textFrom (h : Text.IsBoundary text start) : Yields excuse (textFrom text start) fun rest =>
      ∃ head, text.toList = head ++ rest.toList ∧ byteLength head = start := by
  obtain ⟨rest, hrest⟩ := isSome_from?_iff.2 h
  rw [textFrom, hrest]
  exact yields_ok.2 (from?_eq_some_iff.1 hrest)

theorem yields_textBetween (hle : start ≤ stop)
    (hstart : Text.IsBoundary text start) (hstop : Text.IsBoundary text stop) :
    Yields excuse (textBetween text start stop) fun part =>
      ∃ head tail, text.toList = head ++ (part.toList ++ tail) ∧ byteLength head = start ∧
        start + part.utf8ByteSize = stop := by
  obtain ⟨part, hpart⟩ := isSome_cut?_iff.2 ⟨hle, hstart, hstop⟩
  rw [textBetween, hpart]
  exact yields_ok.2 (cut?_eq_some_iff.1 hpart)

theorem textBetween_eq_ok_iff : (∃ part, textBetween text start stop = .ok part) ↔
    start ≤ stop ∧ Text.IsBoundary text start ∧ Text.IsBoundary text stop := by
  rw [← isSome_cut?_iff, textBetween]
  cases cut? text start stop <;> simp

theorem yields_bytesOfLines {lines : List String} {first last : Nat} (hfirst : first ≤ last + 1)
    (hlast : last < lines.length) : Yields excuse (bytesOfLines lines first last) fun _ => True := by
  rw [bytesOfLines, if_pos (by simp [hfirst, hlast])]
  exact yields_ok.2 trivial

end Deadwood
