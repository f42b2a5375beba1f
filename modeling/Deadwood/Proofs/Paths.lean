import Deadwood.Path
import Deadwood.Proofs.Text
import Mathlib.Data.List.TakeWhile

/-!
# Paths and their components

What the operations on paths do to components.
-/

namespace Deadwood

open List
open String (ofList toList_inj toList_ofList)

/-- A name that a file can have: it is not empty, holds no slash, and does not stand for a directory. -/
def IsName (name : String) : Prop := name ≠ "" ∧ name ≠ "." ∧ name ≠ ".." ∧ '/' ∉ name.toList

instance (name : String) : Decidable (IsName name) := inferInstanceAs (Decidable (_ ∧ _))

namespace Path

variable {k : Component} {cs piece xs : List Char} {fuel : Nat} {p q : Path}

/-! ## Components between slashes -/

def namedIn (cs : List Char) : List Component :=
  ((Text.splitList (· == '/') cs).map ofList).filterMap component?

def named (p : Path) : List Component := namedIn p.text.toList

def start (p : Path) : List Component :=
  if p.isAbsolute then [.root] else if p.startsHere then [.current] else []

theorem components_eq (p : Path) : p.components = p.start ++ p.named := by
  unfold components start
  split
  · rfl
  · split <;> rfl

theorem namedIn_append (xs ys : List Char) : namedIn (xs ++ '/' :: ys) = namedIn xs ++ namedIn ys := by
  rw [namedIn, Text.splitList_append (by rfl), map_append, filterMap_append]
  rfl

theorem namedIn_piece (h : '/' ∉ xs) : namedIn xs = (component? (ofList xs)).toList := by
  have hno : ∀ c ∈ xs, (c == '/') = false := fun c hc => by
    rw [beq_eq_false_iff_ne]
    rintro rfl
    exact h hc
  rw [namedIn, Text.splitList_eq_singleton hno, map_singleton, filterMap_cons]
  cases component? (ofList xs) <;> rfl

@[simp]
theorem namedIn_nil : namedIn [] = [] := rfl

theorem component?_eq_some_normal {piece name : String} :
    component? piece = some (.normal name) ↔ piece = name ∧ piece ≠ "" ∧ piece ≠ "." ∧ piece ≠ ".." := by
  unfold component?
  split
  · rename_i h
    simp only [Bool.or_eq_true, beq_iff_eq] at h
    rcases h with rfl | rfl <;> simp
  · rename_i h
    simp only [Bool.or_eq_true, beq_iff_eq, not_or] at h
    split
    · rename_i h'
      rw [beq_iff_eq] at h'
      simp [h']
    · rename_i h'
      rw [beq_iff_eq] at h'
      simp [h, h']

theorem mem_namedIn (h : k ∈ namedIn cs) : k = .parent ∨ ∃ name, k = .normal name := by
  obtain ⟨piece, -, hk⟩ := mem_filterMap.1 h
  unfold component? at hk
  split at hk
  · cases hk
  · split at hk <;> cases hk
    · exact .inl rfl
    · exact .inr ⟨piece, rfl⟩

theorem isAbsolute_iff : p.isAbsolute = true ↔ p.text.toList.head? = some '/' := by
  rw [isAbsolute, Text.startsWith, isPrefixOf_iff_prefix, head?_eq_some_iff]
  exact exists_congr fun _ => eq_comm

theorem startsHere_iff : p.startsHere = true ↔ p.text.toList = ['.'] ∨ ∃ rest, p.text.toList = '.' :: '/' :: rest := by
  rw [startsHere, Bool.or_eq_true, beq_iff_eq, Text.startsWith, isPrefixOf_iff_prefix, ← toList_inj]
  exact or_congr Iff.rfl (exists_congr fun _ => eq_comm)

/-! ## Paths below paths -/

theorem components_of_isAbsolute (h : p.isAbsolute = true) : p.components = .root :: p.named := by
  rw [components_eq, start, if_pos h, singleton_append]

theorem toList_join (hq : q.isAbsolute = false) : (p.text = "" ∧ (p.join q).text.toList = q.text.toList) ∨
      (p.text ≠ "" ∧ ∃ before, (p.text.toList = before ∨ p.text.toList = before ++ ['/']) ∧
        (p.join q).text.toList = before ++ '/' :: q.text.toList) := by
  rw [join, hq]
  simp only [Bool.false_eq_true, if_false]
  by_cases hp : p.text = ""
  · exact .inl ⟨hp, by simp [hp]⟩
  · refine .inr ⟨hp, ?_⟩
    split
    · rename_i h
      rw [Bool.or_eq_true, String.isEmpty_iff, Text.endsWith_iff] at h
      obtain ⟨before, h⟩ := h.resolve_left hp
      exact ⟨before.toList, .inr (by simp [h]), by simp [h]⟩
    · exact ⟨p.text.toList, .inl rfl, by simp⟩

/-- **The names of a path below another follow its names.** -/
theorem named_join (hq : q.isAbsolute = false) : (p.join q).named = p.named ++ q.named := by
  unfold named
  rcases toList_join (p := p) hq with ⟨hp, h⟩ | ⟨-, before, hp | hp, h⟩
  · rw [h, hp, String.toList_empty, namedIn_nil, nil_append]
  · rw [h, hp, namedIn_append]
  · rw [h, hp, namedIn_append, namedIn_append, namedIn_nil, append_nil]

theorem head?_join (hp : p.text ≠ "") (hq : q.isAbsolute = false) :
    (p.join q).text.toList.head? = p.text.toList.head? := by
  rcases toList_join (p := p) hq with ⟨hnil, -⟩ | ⟨-, before, hb | hb, hjoin⟩
  · exact absurd hnil hp
  · obtain ⟨c, cs, rfl⟩ := exists_cons_of_ne_nil (show before ≠ [] from hb ▸ fun h => hp (String.toList_eq_nil_iff.1 h))
    rw [hjoin, hb]
    rfl
  · rw [hjoin, hb, head?_append, head?_append]
    rfl

theorem isAbsolute_join (hp : p.isAbsolute = true) : (p.join q).isAbsolute = true := by
  cases hq : q.isAbsolute with
  | true => rwa [join, if_pos hq]
  | false =>
    have hne : p.text ≠ "" := fun h => by simp [isAbsolute_iff, h] at hp
    rw [isAbsolute_iff] at hp ⊢
    rw [head?_join hne hq, hp]

theorem isAbsolute_join_eq_false (hp : p.isAbsolute = false) (hq : q.isAbsolute = false) :
    (p.join q).isAbsolute = false := by
  by_cases hne : p.text = ""
  · rw [join, hq, hne]
    simpa using hq
  · rw [← Bool.not_eq_true, isAbsolute_iff] at hp ⊢
    rwa [head?_join hne hq]

/-! ## Parents -/

/-- A list read backwards is one piece, or a piece before a slash. -/
theorem takeWhile_cases (cs : List Char) :
    ('/' ∉ cs ∧ cs.takeWhile (· != '/') = cs ∧ (cs.dropWhile (· != '/')).drop 1 = []) ∨
      ∃ rest, cs = cs.takeWhile (· != '/') ++ '/' :: rest ∧ (cs.dropWhile (· != '/')).drop 1 = rest := by
  by_cases hc : '/' ∈ cs
  · obtain ⟨before, after, rfl, hno⟩ := eq_append_cons_of_mem hc
    have hb : ∀ c ∈ before, (c != '/') = true := fun c hc => by
      rw [bne_iff_ne]
      rintro rfl
      exact hno hc
    refine .inr ⟨after, ?_, ?_⟩
    · rw [takeWhile_append_of_pos hb]
      simp
    · rw [dropWhile_append_of_pos hb]
      simp
  · have hall : ∀ c ∈ cs, (c != '/') = true := fun c hc' => by
      rw [bne_iff_ne]
      rintro rfl
      exact hc hc'
    refine .inl ⟨hc, ?_, ?_⟩
    · exact takeWhile_eq_self_iff.2 hall
    · rw [dropWhile_eq_nil_iff.2 hall, drop_nil]

/-- What `dropIdle` leaves of a list read backwards: all components are left, the last piece is one,
and the cut is at a slash. -/
structure Trimmed (cs rest : List Char) : Prop where
  named : namedIn rest.reverse = namedIn cs.reverse
  /-- The last piece is a component, unless nothing is left. -/
  last : rest ≠ [] → rest.takeWhile (· != '/') ≠ [] ∧ rest.takeWhile (· != '/') ≠ ['.']
  cut : rest = [] ∨ cs = rest ∨ ∃ before, cs = before ++ '/' :: rest

theorem dropIdle_nil (fuel : Nat) : dropIdle fuel [] = [] := by
  cases fuel <;> rfl

theorem namedIn_idle (h : piece = [] ∨ piece = ['.']) : namedIn piece.reverse = [] := by
  rcases h with rfl | rfl <;> rfl

theorem Trimmed.refl (h : ¬ (cs.takeWhile (· != '/') = [] ∨ cs.takeWhile (· != '/') = ['.'])) : Trimmed cs cs :=
  ⟨rfl, fun _ => not_or.1 h, .inr (.inl rfl)⟩

theorem Trimmed.drop {rest r : List Char} (h : Trimmed rest r) (hidle : piece = [] ∨ piece = ['.']) :
    Trimmed (piece ++ '/' :: rest) r where
  named := by
    rw [h.named, reverse_append, reverse_cons, append_assoc, singleton_append,
      namedIn_append, namedIn_idle hidle, append_nil]
  last := h.last
  cut := by
    rcases h.cut with hnil | rfl | ⟨before, rfl⟩
    · exact .inl hnil
    · exact .inr (.inr ⟨piece, rfl⟩)
    · exact .inr (.inr ⟨piece ++ '/' :: before, by simp⟩)

theorem trimmed_dropIdle (hfuel : cs.length ≤ fuel) : Trimmed cs (dropIdle fuel cs) := by
  induction fuel generalizing cs with
  | zero =>
    obtain rfl := length_eq_zero_iff.1 (Nat.le_zero.1 hfuel)
    exact ⟨rfl, fun h => absurd rfl h, .inl rfl⟩
  | succ fuel ih =>
    rw [dropIdle]
    by_cases hnil : cs = []
    · subst hnil
      exact ⟨rfl, fun h => absurd rfl h, .inl rfl⟩
    · simp only [List.isEmpty_iff, hnil, if_false, Bool.or_eq_true, beq_iff_eq]
      split
      · rename_i hidle
        rcases takeWhile_cases cs with ⟨-, hpiece, hdrop⟩ | ⟨rest, hcs, hdrop⟩
        · rw [hpiece] at hidle
          rw [hdrop, dropIdle_nil]
          exact ⟨(namedIn_idle hidle).symm, fun h => absurd rfl h, .inl rfl⟩
        · rw [hdrop]
          have hlen := congrArg List.length hcs
          rw [length_append, length_cons] at hlen
          rw [hcs]
          exact (ih (by omega)).drop hidle
      · rename_i hidle
        exact Trimmed.refl hidle

theorem namedIn_reverse (h : cs.takeWhile (· != '/') ≠ [] ∧ cs.takeWhile (· != '/') ≠ ['.']) :
    ∃ k, namedIn cs.reverse = namedIn ((cs.dropWhile (· != '/')).drop 1).reverse ++ [k] := by
  have hpiece {piece : List Char} (hno : '/' ∉ piece) (hp : piece ≠ [] ∧ piece ≠ ['.']) :
      ∃ k, namedIn piece.reverse = [k] := by
    rw [namedIn_piece (by simpa using hno)]
    have h1 : ofList piece.reverse ≠ "" := by
      rw [Ne, ← toList_inj, toList_ofList]
      simpa using hp.1
    have h2 : ofList piece.reverse ≠ "." := by
      rw [Ne, ← toList_inj, toList_ofList, ← reverse_inj, reverse_reverse]
      exact hp.2
    unfold component?
    simp only [h1, h2, beq_iff_eq, Bool.or_eq_true, or_self, if_false]
    split <;> exact ⟨_, rfl⟩
  rcases takeWhile_cases cs with ⟨hno, hcs, hdrop⟩ | ⟨rest, hcs, hdrop⟩
  · rw [hcs] at h
    rw [hdrop]
    exact hpiece hno h
  · have hno : '/' ∉ cs.takeWhile (· != '/') := fun hc => by simpa using mem_takeWhile_imp hc
    obtain ⟨k, hk⟩ := hpiece hno h
    refine ⟨k, ?_⟩
    calc namedIn cs.reverse = namedIn (cs.takeWhile (· != '/') ++ '/' :: rest).reverse := by rw [← hcs]
      _ = namedIn rest.reverse ++ [k] := by
          rw [reverse_append, reverse_cons, append_assoc, singleton_append, namedIn_append, hk]
      _ = _ := by rw [hdrop]

theorem dropIdle_spec (hfuel : xs.length ≤ fuel) : (dropIdle fuel xs.reverse = [] ∧ namedIn xs = []) ∨
      (dropIdle fuel xs.reverse ≠ [] ∧ ∃ ys k,
        dropIdle fuel (((dropIdle fuel xs.reverse).dropWhile (· != '/')).drop 1) = ys.reverse ∧
          namedIn xs = namedIn ys ++ [k] ∧ (ys = [] ∨ ∃ zs, xs = ys ++ '/' :: zs)) := by
  have hbody : Trimmed xs.reverse (dropIdle fuel xs.reverse) := trimmed_dropIdle (by simpa using hfuel)
  generalize dropIdle fuel xs.reverse = body at hbody
  have hnamed : namedIn body.reverse = namedIn xs := by
    have := hbody.named
    rwa [reverse_reverse] at this
  by_cases hnil : body = []
  · exact .inl ⟨hnil, by rw [← hnamed, hnil]; rfl⟩
  · refine .inr ⟨hnil, ?_⟩
    obtain ⟨k, hk⟩ := namedIn_reverse (hbody.last hnil)
    -- `body` is a tail of what is read backwards
    have htail : ∃ before, xs.reverse = before ++ body := by
      rcases hbody.cut with h | h | ⟨before, h⟩
      · exact absurd h hnil
      · exact ⟨[], h⟩
      · exact ⟨before ++ ['/'], by simp [h]⟩
    obtain ⟨before, hbefore⟩ := htail
    have hlen := congrArg List.length hbefore
    rw [length_append, length_reverse] at hlen
    have hle : ((body.dropWhile (· != '/')).drop 1).length ≤ fuel := by
      have := (dropWhile_sublist (· != '/') (l := body)).length_le
      rw [length_drop]
      omega
    have habove := trimmed_dropIdle hle
    refine ⟨(dropIdle fuel ((body.dropWhile (· != '/')).drop 1)).reverse, k, by simp, ?_, ?_⟩
    · rw [← hnamed, hk, ← habove.named]
    · generalize dropIdle fuel ((body.dropWhile (· != '/')).drop 1) = above at habove
      by_cases hanil : above = []
      · exact .inl (by rw [hanil]; rfl)
      · right
        have habody : ∃ mid, body = mid ++ '/' :: above := by
          rcases takeWhile_cases body with ⟨-, -, hdrop⟩ | ⟨rest, hb, hdrop⟩
          · rw [hdrop] at habove
            rcases habove.cut with h | h | ⟨mid, h⟩
            · exact absurd h hanil
            · exact absurd h.symm hanil
            · simp at h
          · rw [hdrop] at habove
            rcases habove.cut with h | h | ⟨mid, h⟩
            · exact absurd h hanil
            · exact ⟨_, h ▸ hb⟩
            · exact ⟨body.takeWhile (· != '/') ++ '/' :: mid, by rw [append_assoc, cons_append, ← h, ← hb]⟩
        obtain ⟨mid, hmid⟩ := habody
        refine ⟨(before ++ mid).reverse, ?_⟩
        rw [← reverse_inj, hbefore, hmid]
        simp

def AtSlash (xs : List Char) : Prop := xs = [] ∨ ∃ rest, xs = '/' :: rest

theorem components_slash (h : p.text.toList = '/' :: xs) : p.components = .root :: namedIn xs := by
  rw [components_of_isAbsolute (isAbsolute_iff.2 (by rw [h]; rfl)), named, h]
  exact congrArg _ (namedIn_append [] xs)

theorem components_here (h : p.text.toList = '.' :: xs) (hxs : AtSlash xs) : p.components = .current :: namedIn xs := by
  have habs : ¬ p.isAbsolute = true := by
    rw [isAbsolute_iff, h]
    simp
  have hhere : p.startsHere = true := startsHere_iff.2 <| hxs.imp (fun hnil => by rw [h, hnil])
    (Exists.imp fun rest hrest => by rw [h, hrest])
  rw [components_eq, start, if_neg habs, if_pos hhere, named, h]
  rcases hxs with rfl | ⟨rest, rfl⟩
  · rfl
  · exact congrArg _ ((namedIn_append ['.'] rest).trans (namedIn_append [] rest).symm)

theorem components_other (h : ¬ p.isAbsolute = true) (h' : ¬ p.startsHere = true) :
    p.components = namedIn p.text.toList := by
  rw [components_eq, start, if_neg h, if_neg h', nil_append, named]

/-- What the parent of a path can be: there is none at the start, else it lacks the last component. -/
def ParentSpec (p : Path) : Prop :=
  (p.parent? = none ∧ (p.components = [] ∨ p.components = [.root])) ∨
    ∃ q k, p.parent? = some q ∧ p.components = q.components ++ [k]

theorem parentSpec_of_slash (hxs : p.text.toList = '/' :: xs) : ParentSpec p := by
  have habs : p.isAbsolute = true := isAbsolute_iff.2 (by rw [hxs]; rfl)
  have hfuel : xs.length ≤ p.text.length := by
    rw [← String.length_toList, hxs]
    exact Nat.le_succ _
  unfold ParentSpec parent?
  simp only [habs, Bool.true_or, if_true, hxs, take_succ_cons, take_zero, drop_succ_cons, drop_zero, List.isEmpty_iff]
  rw [components_slash hxs]
  rcases dropIdle_spec hfuel with ⟨hnil, hnamed⟩ | ⟨hne, ys, k, hys, hnamed, -⟩
  · exact .inl ⟨by rw [if_pos hnil], .inr (by rw [hnamed])⟩
  · refine .inr ⟨⟨ofList ('/' :: ys)⟩, k, by rw [if_neg hne, hys, reverse_reverse]; rfl, ?_⟩
    rw [components_slash (p := ⟨ofList ('/' :: ys)⟩) toList_ofList, hnamed, cons_append]

theorem parentSpec_of_here (hxs : p.text.toList = '.' :: xs) (hslash : AtSlash xs) : ParentSpec p := by
  have habs : p.isAbsolute = false := by
    rw [← Bool.not_eq_true, isAbsolute_iff, hxs]
    simp
  have hhere : p.startsHere = true := startsHere_iff.2 <| hslash.imp (fun hnil => by rw [hxs, hnil])
    (Exists.imp fun rest hrest => by rw [hxs, hrest])
  have hfuel : xs.length ≤ p.text.length := by
    rw [← String.length_toList, hxs]
    exact Nat.le_succ _
  unfold ParentSpec parent?
  simp only [habs, hhere, Bool.or_true, if_true, hxs, take_succ_cons, take_zero,
    drop_succ_cons, drop_zero, List.isEmpty_iff, Bool.false_eq_true, if_false]
  rw [components_here hxs hslash]
  right
  rcases dropIdle_spec hfuel with ⟨hnil, hnamed⟩ | ⟨hne, ys, k, hys, hnamed, hcut⟩
  · exact ⟨⟨""⟩, .current, by rw [if_pos hnil], by rw [hnamed]; rfl⟩
  · refine ⟨⟨ofList ('.' :: ys)⟩, k, by rw [if_neg hne, hys, reverse_reverse]; rfl, ?_⟩
    have hyslash : AtSlash ys := by
      rcases hcut with rfl | ⟨zs, rfl⟩
      · exact .inl rfl
      · cases ys with
        | nil => exact .inl rfl
        | cons y ys =>
          rcases hslash with h | ⟨rest, h⟩
          · cases h
          · rw [cons_append, List.cons.injEq] at h
            exact .inr ⟨ys, by rw [h.1]⟩
    rw [components_here (p := ⟨ofList ('.' :: ys)⟩) toList_ofList hyslash, hnamed, cons_append]

theorem parentSpec_of_other (habs : p.isAbsolute = false) (hhere : p.startsHere = false) : ParentSpec p := by
  have hfuel : p.text.toList.length ≤ p.text.length := Nat.le_of_eq String.length_toList
  unfold ParentSpec parent?
  simp only [habs, hhere, Bool.or_self, Bool.false_eq_true, if_false, take_zero, drop_zero,
    List.isEmpty_iff, nil_append]
  rw [components_other (by simp [habs]) (by simp [hhere])]
  rcases dropIdle_spec hfuel with ⟨hnil, hnamed⟩ | ⟨hne, ys, k, hys, hnamed, hcut⟩
  · exact .inl ⟨by rw [if_pos hnil], .inl hnamed⟩
  · refine .inr ⟨⟨ofList ys⟩, k, by rw [if_neg hne, hys, reverse_reverse], ?_⟩
    rw [← Bool.not_eq_true, isAbsolute_iff] at habs
    rw [← Bool.not_eq_true, startsHere_iff] at hhere
    have habs' : ¬ (Path.mk (ofList ys)).isAbsolute = true := by
      rw [isAbsolute_iff, toList_ofList]
      rcases hcut with rfl | ⟨zs, hzs⟩
      · simp
      · intro h
        exact habs (by rw [hzs, head?_append, h, Option.some_or])
    have hhere' : ¬ (Path.mk (ofList ys)).startsHere = true := by
      rw [startsHere_iff, toList_ofList]
      rcases hcut with rfl | ⟨zs, hzs⟩
      · simp
      · rintro (rfl | ⟨rest, rfl⟩)
        · exact hhere (.inr ⟨zs, hzs⟩)
        · exact hhere (.inr ⟨_, hzs⟩)
    rw [components_other habs' hhere', hnamed, toList_ofList]

/-- **A parent has all components but the last**, and only the root and the empty path have none. -/
theorem parentSpec (p : Path) : ParentSpec p := by
  cases habs : p.isAbsolute with
  | true =>
    obtain ⟨xs, hxs⟩ := head?_eq_some_iff.1 (isAbsolute_iff.1 habs)
    exact parentSpec_of_slash hxs
  | false =>
    cases hhere : p.startsHere with
    | true =>
      rcases startsHere_iff.1 hhere with h | ⟨rest, h⟩
      · exact parentSpec_of_here h (.inl rfl)
      · exact parentSpec_of_here h (.inr ⟨rest, rfl⟩)
    | false => exact parentSpec_of_other habs hhere

theorem components_parent? (h : p.parent? = some q) : q.components = p.components.dropLast := by
  rcases parentSpec p with ⟨hnone, -⟩ | ⟨q', k, hq', hk⟩
  · rw [hnone] at h
    cases h
  · rw [hq'] at h
    cases h
    rw [hk, dropLast_concat]

theorem exists_parent? {cs : List Component} (h : p.components = cs ++ [k])
    (hk : k ≠ .root) : ∃ q, p.parent? = some q ∧ q.components = cs := by
  rcases parentSpec p with ⟨-, hnil | hroot⟩ | ⟨q, k', hq, hk'⟩
  · rw [hnil] at h
    simp at h
  · rw [hroot] at h
    have := congrArg List.getLast? h
    simp at this
    exact absurd this.symm hk
  · refine ⟨q, hq, ?_⟩
    rw [components_parent? hq, h, dropLast_concat]

/-! ## Plain paths -/

/-- The path is written as its components with one slash between them. -/
def IsPlain (p : Path) : Prop := p.text = Text.join "/" (p.components.map Component.text)

instance (p : Path) : Decidable p.IsPlain := inferInstanceAs (Decidable (_ = _))

def before (above : List Component) : String :=
  if above = [] then "" else Text.join "/" (above.map Component.text) ++ "/"

end Path

end Deadwood
