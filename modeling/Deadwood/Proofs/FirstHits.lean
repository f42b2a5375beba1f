import Deadwood.Proofs.Matching

/-!
# The hit that is preferred

A search takes the first hit of a pattern. Where no choice has to be taken back, the first hit of a pattern comes from
the first hits of its parts, and a greedy repetition goes on as long as its body fits.

* `Pattern.Runs`, **`Pattern.Runs.first`**: a greedy repetition.
-/

namespace Deadwood

open List Cursor

def Cursor.past (here : Cursor) : List Char → Cursor
  | [] => here
  | c :: cs => past ⟨here.offset + c.utf8Size, some c, here.rest.tail⟩ cs

namespace Cursor

variable {here : Cursor} {xs ys : List Char}

theorem past_append (here : Cursor) (xs ys : List Char) : here.past (xs ++ ys) = (here.past xs).past ys := by
  induction xs generalizing here with
  | nil => rfl
  | cons c xs ih => exact ih _

theorem leads_past (h : here.rest = xs ++ ys) : here.Leads xs (here.past xs) ∧ (here.past xs).rest = ys := by
  induction xs generalizing here with
  | nil => exact ⟨.refl here, h⟩
  | cons c xs ih =>
    have hnext : (⟨here.offset + c.utf8Size, some c, here.rest.tail⟩ : Cursor).rest = xs ++ ys := by simp [h]
    refine ⟨(leads_cons ?_).trans (ih hnext).1, (ih hnext).2⟩
    rw [h, cons_append, tail_cons]

theorem offset_lt_past (h : here.rest = xs ++ ys) (hne : xs ≠ []) : here.offset < (here.past xs).offset := by
  obtain ⟨c, xs, rfl⟩ := exists_cons_of_ne_nil hne
  have hsize := c.utf8Size_pos
  rw [(leads_past h).1.offset_eq, Text.byteLength_cons]
  omega

end Cursor

namespace Pattern

/-! ## First hits -/

/-- The first hit of the pattern from here is behind the characters `xs`, and before `rest`. -/
structure First (p : Pattern) (here : Cursor) (xs rest : List Char) (cs : List Capture) : Prop where
  head : (p.ends here).head? = some ⟨here.past xs, cs⟩
  rest_eq : here.rest = xs ++ rest

variable {p q body : Pattern} {here : Cursor} {set : CharClass} {c : Char} {xs ys rest : List Char}
  {cs ds : List Capture}

theorem First.next (h : p.First here xs rest cs) : (here.past xs).rest = rest := (leads_past h.rest_eq).2

theorem First.textTo (h : p.First here xs rest cs) : here.textTo (here.past xs).offset = String.ofList xs :=
  (leads_past h.rest_eq).1.textTo_eq

theorem head?_firstHits (hits : List Hit) : (firstHits [] hits).head? = hits.head? := by
  cases hits with
  | nil => rfl
  | cons hit hits => rfl

theorem first_one (hrest : here.rest = c :: rest) (hc : set.holds c = true) : First (one set) here [c] rest [] :=
  ⟨by simp [ends, hrest, hc, past], hrest⟩

theorem first_look {anchor : Anchor} (h : anchor.holds here = true) : First (look anchor) here [] here.rest [] :=
  ⟨by simp [ends, h, past], rfl⟩

theorem First.seq (h : p.First here xs (ys ++ rest) cs) (h' : q.First (here.past xs) ys rest ds) :
    (seq p q).First here (xs ++ ys) rest (ds ++ cs) := by
  refine ⟨?_, by rw [h.rest_eq, append_assoc]⟩
  obtain ⟨hits, hp⟩ := head?_eq_some_iff.1 h.head
  obtain ⟨hits', hq⟩ := head?_eq_some_iff.1 h'.head
  rw [ends, hp, past_append]
  cases hits with
  | nil => simp [hq]
  | cons hit hits => simp [head?_firstHits, hq]

theorem First.alt (h : p.First here xs rest cs) : (alt p q).First here xs rest cs := by
  obtain ⟨hits, hp⟩ := head?_eq_some_iff.1 h.head
  refine ⟨?_, h.rest_eq⟩
  rw [ends, hp]
  exact head?_firstHits _

theorem first_alt_of_nil (hp : p.ends here = []) (h : q.First here xs rest cs) :
    (Pattern.alt p q).First here xs rest cs := ⟨by rw [ends, hp]; exact h.head, h.rest_eq⟩

theorem First.group (n : Nat) (h : p.First here xs rest cs) :
    (group n p).First here xs rest (⟨n, here, (here.past xs).offset⟩ :: cs) := by
  refine ⟨?_, h.rest_eq⟩
  rw [ends, head?_map, h.head]
  rfl

theorem ends_seq_of_nil (hp : p.ends here = []) : (Pattern.seq p q).ends here = [] := by rw [ends, hp]

theorem ends_one_of_not (h : ∀ c ∈ here.rest.head?, set.holds c = false) : (one set).ends here = [] := by
  rw [ends]
  cases hrest : here.rest with
  | nil => rfl
  | cons c cs => simp [h c (by simp [hrest])]

theorem holds_range (c d : Char) : (ClassItem.range c c).holds d = (d == c) := by
  rw [Bool.eq_iff_iff, ClassItem.holds, Bool.and_eq_true, decide_eq_true_eq, decide_eq_true_eq, beq_iff_eq]
  exact ⟨fun h => Char.le_antisymm h.2 h.1, fun h => h ▸ ⟨Char.le_refl _, Char.le_refl _⟩⟩

def spell (p : Pattern) (word : List Char) : Pattern := word.foldl (fun p c => .seq p (one (single c))) p

theorem First.spell {word : List Char} (h : p.First here xs (word ++ rest) cs) :
    (spell p word).First here (xs ++ word) rest cs := by
  induction word generalizing p xs with
  | nil => rwa [append_nil]
  | cons c word ih =>
    have h : p.First here xs ([c] ++ (word ++ rest)) cs := h
    have hc : (single c).holds c = true := by simp [single, CharClass.holds, ClassItem.holds]
    have hword := ih (h.seq (first_one h.next hc))
    rwa [append_assoc] at hword

/-! ## Repetitions -/

/-- Repeated as long as it fits, the body leads past some characters. -/
inductive Runs (body : Pattern) : Cursor → (xs rest : List Char) → Prop
  | stop {here : Cursor} (h : body.ends here = []) : Runs body here [] here.rest
  | step {here : Cursor} {xs ys rest : List Char} (h : body.First here xs (ys ++ rest) []) (hne : xs ≠ [])
      (h' : Runs body (here.past xs) ys rest) : Runs body here (xs ++ ys) rest

theorem Runs.rest_eq (h : Runs body here xs rest) : here.rest = xs ++ rest := by
  cases h with
  | stop => rfl
  | step h => rw [h.rest_eq, append_assoc]

theorem mark?_of_lt {n : Nat} {seen : List Nat} (h : ∀ m ∈ seen, m < n) : mark? n seen = some (n :: seen) := by
  cases seen with
  | nil => rfl
  | cons m seen => simp [mark?, h m mem_cons_self]

section StarHits

variable {step : Cursor → List Hit} {left : List Char} {hit : Hit} {hits : List Hit} {seen seen' : List Nat}

theorem starHits_cons (h : mark? hit.place.offset seen = some seen') :
    (starHits step true (c :: left) hit (hits, seen)).1 =
      hit :: (((step hit.place).filter (hit.place.offset < ·.place.offset)).foldl (fun found next =>
        starHits step true left ⟨next.place, next.captures ++ hit.captures⟩ found) (hits, seen')).1 := by
  simp [starHits, h]

/-- Hits are added before those that are there. -/
theorem exists_foldl_eq {add : Hit → List Hit × List Nat → List Hit × List Nat}
    (hadd : ∀ next found, ∃ new, (add next found).1 = new ++ found.1) (nexts : List Hit)
    (found : List Hit × List Nat) :
    ∃ new, (nexts.foldl (fun found next => add next found) found).1 = new ++ found.1 := by
  induction nexts generalizing found with
  | nil => exact ⟨[], rfl⟩
  | cons next nexts ih =>
    obtain ⟨new, hnew⟩ := hadd next found
    obtain ⟨more, hmore⟩ := ih (add next found)
    exact ⟨more ++ new, by rw [foldl_cons, hmore, hnew, append_assoc]⟩

theorem exists_starHits_eq (step : Cursor → List Hit) (left : List Char) (hit : Hit) (found : List Hit × List Nat) :
    ∃ new, (starHits step true left hit found).1 = new ++ found.1 := by
  induction left generalizing hit found with
  | nil =>
    rw [starHits]
    split
    · exact ⟨[], rfl⟩
    · exact ⟨[hit], rfl⟩
  | cons c left ih =>
    obtain ⟨hits, seen⟩ := found
    cases hmark : mark? hit.place.offset seen with
    | none => exact ⟨[], by simp [starHits, hmark]⟩
    | some seen' =>
      obtain ⟨new, hnew⟩ := exists_foldl_eq (fun next found => ih ⟨next.place, next.captures ++ hit.captures⟩ found)
        ((step hit.place).filter (hit.place.offset < ·.place.offset)) (hits, seen')
      exact ⟨hit :: new, by rw [starHits_cons hmark, hnew, cons_append]⟩

end StarHits

/-- The hit that is added first is where the body fits no more. -/
theorem Runs.getLast?_starHits (h : Runs body here xs rest) (cs : List Capture) {left : List Char} {seen : List Nat}
    (hleft : here.rest.length ≤ left.length) (hseen : ∀ m ∈ seen, m < here.offset) :
    (starHits body.ends true left ⟨here, cs⟩ ([], seen)).1.getLast? = some ⟨here.past xs, cs⟩ := by
  -- hits are put before those found earlier, so the last one is where the run ends
  induction h generalizing left seen with
  | stop h => cases left <;> simp [starHits, mark?_of_lt hseen, h, past]
  | @step here xs ys rest h hne h' ih =>
    have hpos := length_pos_iff.2 hne
    rw [h.rest_eq, length_append] at hleft
    cases left with
    | nil =>
      rw [length_nil] at hleft
      omega
    | cons d left =>
      obtain ⟨hits, hends⟩ := head?_eq_some_iff.1 h.head
      have hoffset := offset_lt_past h.rest_eq hne
      have hleft' : (here.past xs).rest.length ≤ left.length := by
        rw [h.next]
        rw [length_cons] at hleft
        omega
      have hseen' : ∀ m ∈ here.offset :: seen, m < (here.past xs).offset :=
        forall_mem_cons.2 ⟨hoffset, fun m hm => Nat.lt_trans (hseen m hm) hoffset⟩
      have hlast := ih hleft' hseen'
      rw [starHits_cons (mark?_of_lt hseen), hends, filter_cons_of_pos (by simpa using hoffset), foldl_cons,
        past_append]
      obtain ⟨new, hnew⟩ := exists_foldl_eq (fun next found => exists_starHits_eq body.ends left
        ⟨next.place, next.captures ++ cs⟩ found) (hits.filter (here.offset < ·.place.offset))
        (starHits body.ends true left ⟨here.past xs, cs⟩ ([], here.offset :: seen))
      dsimp only [nil_append]
      rw [hnew, ← cons_append, getLast?_append, hlast]
      rfl

theorem Runs.first (h : Runs body here xs rest) : (star true body).First here xs rest [] := by
  refine ⟨?_, h.rest_eq⟩
  rw [ends, head?_reverse]
  exact h.getLast?_starHits [] (Nat.le_refl _) (forall_mem_nil _)

def plus (body : Pattern) : Pattern := .seq body (star true body)

theorem Runs.first_plus (h : Runs body here xs rest) (hne : xs ≠ []) : (plus body).First here xs rest [] := by
  cases h with
  | stop h => exact absurd rfl hne
  | step h _ h' => exact h.seq h'.first

theorem runs_one (hrest : here.rest = xs ++ rest) (hxs : ∀ c ∈ xs, set.holds c = true)
    (hstop : ∀ c ∈ rest.head?, set.holds c = false) : Runs (one set) here xs rest := by
  induction xs generalizing here with
  | nil =>
    obtain rfl : here.rest = rest := hrest
    exact .stop (ends_one_of_not hstop)
  | cons c xs ih =>
    obtain ⟨hc, hxs⟩ := forall_mem_cons.1 hxs
    have hone := first_one hrest hc
    exact .step hone (cons_ne_nil c []) (ih hone.next hxs)

theorem First.plus (h : p.First here xs (ys ++ rest) cs) (hne : ys ≠ []) (hys : ∀ c ∈ ys, set.holds c = true)
    (hstop : ∀ c ∈ rest.head?, set.holds c = false) :
    (Pattern.seq p (plus (one set))).First here (xs ++ ys) rest cs := h.seq ((runs_one h.next hys hstop).first_plus hne)

/-! ## Matches -/

theorem First.seek (h : p.First here xs rest cs) : p.seek here = some (here, ⟨here.past xs, cs⟩) := by
  obtain ⟨hits, hends⟩ := head?_eq_some_iff.1 h.head
  obtain ⟨offset, before, left⟩ := here
  cases left <;> simp only [Pattern.seek, seekFrom, hends]

/-- **The first match** is where the text begins, if the pattern fits there. -/
theorem First.findAll_eq {s : String} (h : p.First (.start s) xs rest cs) (hne : xs ≠ []) :
    p.findAll s = .ofHit (.start s) ⟨(start s).past xs, cs⟩ :: p.findFrom s.length ((start s).past xs) := by
  simp only [findAll, findFrom, h.seek, if_pos (offset_lt_past h.rest_eq hne)]

/-- Every way of the pattern takes a character of the set. -/
def requires (set : CharClass) : Pattern → Bool
  | one set' => set' == set
  | seq p q => p.requires set || q.requires set
  | alt p q => p.requires set && q.requires set
  | group _ p => p.requires set
  | _ => false

theorem Takes.exists_mem_of_requires {there : Cursor} (h : p.Takes here there cs) (hp : p.requires set = true) :
    ∃ piece, here.Leads piece there ∧ ∃ c ∈ piece, set.holds c = true := by
  induction h with
  | one hrest hc =>
    obtain rfl : _ = set := by simpa [requires] using hp
    exact ⟨_, leads_cons hrest, _, mem_cons_self, hc⟩
  | seq h h' ih ih' =>
    obtain ⟨xs, hxs⟩ := h.leads
    obtain ⟨ys, hys⟩ := h'.leads
    rw [requires, Bool.or_eq_true] at hp
    rcases hp with hp | hp
    · obtain ⟨xs, hxs, c, hc, hset⟩ := ih hp
      exact ⟨_, hxs.trans hys, c, mem_append_left _ hc, hset⟩
    · obtain ⟨ys, hys, c, hc, hset⟩ := ih' hp
      exact ⟨_, hxs.trans hys, c, mem_append_right _ hc, hset⟩
  | first _ ih => exact ih (Bool.and_eq_true_iff.1 hp).1
  | second _ ih => exact ih (Bool.and_eq_true_iff.1 hp).2
  | group _ ih => exact ih hp
  | _ => cases hp

theorem findFrom_eq_nil (h : ∀ head, head <+: here.rest → p.ends (here.past head) = []) (fuel : Nat) :
    p.findFrom fuel here = [] := by
  have hseek : p.seek here = none := by
    obtain ⟨offset, before, rest⟩ := here
    rw [Pattern.seek]
    induction rest generalizing offset before with
    | nil => rw [seekFrom, show p.ends ⟨offset, before, []⟩ = [] from h [] prefix_rfl]
    | cons c rest ih =>
      rw [seekFrom, show p.ends ⟨offset, before, c :: rest⟩ = [] from h [] (List.nil_prefix)]
      exact ih _ _ fun head hhead => h (c :: head) (cons_prefix_cons.2 ⟨rfl, hhead⟩)
  cases fuel with
  | zero => rfl
  | succ fuel => rw [findFrom, hseek]

theorem findFrom_eq_nil_of_requires (set : CharClass) (hp : p.requires set = true)
    (hrest : ∀ c ∈ here.rest, set.holds c = false) (fuel : Nat) : p.findFrom fuel here = [] := by
  refine findFrom_eq_nil (fun head ⟨rest, hhead⟩ => eq_nil_iff_forall_not_mem.2 fun hit hmem => ?_) fuel
  obtain ⟨piece, hpiece, c, hc, hset⟩ := (takes_of_mem_ends hmem).exists_mem_of_requires hp
  have hin : c ∈ here.rest := by
    rw [((leads_past hhead.symm).1.trans hpiece).rest_eq]
    simp [hc]
  rw [hrest c hin] at hset
  cases hset

theorem Takes.exists_of_spell {there : Cursor} {word : List Char} (h : (spell p word).Takes here there cs) :
    ∃ mid ds, p.Takes here mid ds ∧ mid.rest = word ++ there.rest := by
  induction word generalizing p with
  | nil => exact ⟨there, cs, h, rfl⟩
  | cons c word ih =>
    obtain ⟨_, _, hboth, hrest⟩ := ih h
    cases hboth with
    | seq hp hc =>
      cases hc with
      | @one _ _ d rest hmid hd =>
        obtain rfl : d = c := by simpa [single, CharClass.holds, holds_range] using hd
        obtain rfl : rest = word ++ there.rest := hrest
        exact ⟨_, _, hp, hmid⟩

theorem Takes.exists_of_star_one {there : Cursor} {greedy : Bool} (h : (star greedy (.one set)).Takes here there cs) :
    ∃ xs, here.rest = xs ++ there.rest ∧ ∀ c ∈ xs, set.holds c = true := by
  generalize hp : star greedy (.one set) = p at h
  induction h with
  | done => exact ⟨[], rfl, nofun⟩
  | more _ h' ih _ =>
    cases hp
    obtain ⟨xs, hxs, hall⟩ := ih rfl
    cases h' with
    | one hrest hc =>
      refine ⟨xs ++ [_], by rw [hxs, hrest, append_assoc]; rfl, forall_mem_append.2 ⟨hall, ?_⟩⟩
      exact forall_mem_singleton.2 hc
  | _ => cases hp

end Pattern

end Deadwood
