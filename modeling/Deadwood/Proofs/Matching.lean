import Deadwood.Pattern.Match
import Deadwood.Pattern.Notation
import Deadwood.Proofs.Offsets

/-!
# Ways through a text

`Pattern.Takes` says when a pattern leads from one place of a text to another, whatever order a
search tries the ways in. Every hit of the search is such a way, so matches start and stop between
characters and their groups lie within them.
-/

namespace Deadwood

open Text List

/-! ## Places -/

/-- The characters `piece` stand between two places. -/
structure Cursor.Leads (here : Cursor) (piece : List Char) (there : Cursor) : Prop where
  rest_eq : here.rest = piece ++ there.rest
  offset_eq : there.offset = here.offset + Text.byteLength piece

variable {here there : Cursor} {hit : Hit} {p : Pattern} {s : String}

namespace Cursor

variable {mid : Cursor} {xs ys : List Char}

theorem Leads.refl (here : Cursor) : here.Leads [] here := ⟨rfl, rfl⟩

theorem Leads.trans (h : here.Leads xs mid) (h' : mid.Leads ys there) : here.Leads (xs ++ ys) there where
  rest_eq := by rw [h.rest_eq, h'.rest_eq, append_assoc]
  offset_eq := by rw [h'.offset_eq, h.offset_eq, byteLength_append, Nat.add_assoc]

theorem Leads.offset_le (h : here.Leads xs there) : here.offset ≤ there.offset := by
  have := h.offset_eq
  omega

theorem leads_cons {c : Char} {cs : List Char} {before : Option Char} (h : here.rest = c :: cs) :
    here.Leads [c] ⟨here.offset + c.utf8Size, before, cs⟩ := ⟨h, by simp⟩

theorem textTo_take (stop offset : Nat) (piece rest : List Char) (h : offset + Text.byteLength piece = stop) :
    textTo.take stop offset (piece ++ rest) = piece := by
  induction piece generalizing offset with
  | nil =>
    have hstop : ¬ offset < stop := by simp at h; omega
    cases rest with
    | nil => rfl
    | cons c rest => simp [textTo.take, hstop]
  | cons c piece ih =>
    rw [byteLength_cons] at h
    have hlt : offset < stop := by have := c.utf8Size_pos; omega
    rw [cons_append, textTo.take, if_pos hlt, ih (offset + c.utf8Size) (by omega)]

theorem Leads.textTo_eq (h : here.Leads xs there) : here.textTo there.offset = String.ofList xs := by
  rw [textTo, h.rest_eq, textTo_take _ _ _ _ h.offset_eq.symm]

def IsIn (here : Cursor) (s : String) : Prop := ∃ head, (start s).Leads head here

theorem IsIn.leads {s : String} (h : here.IsIn s) (hlead : here.Leads xs there) : there.IsIn s :=
  let ⟨_, hhead⟩ := h
  ⟨_, hhead.trans hlead⟩

end Cursor

/-! ## The ways of a pattern -/

/-- The pattern leads from one place to another, and its groups remember the captures. -/
inductive Pattern.Takes : Pattern → Cursor → Cursor → List Capture → Prop where
  | empty (here : Cursor) : Takes .empty here here []
  | one {set : CharClass} {here : Cursor} {c : Char} {cs : List Char} (hrest : here.rest = c :: cs)
      (hc : set.holds c = true) : Takes (.one set) here ⟨here.offset + c.utf8Size, some c, cs⟩ []
  | look {anchor : Anchor} {here : Cursor} (h : anchor.holds here = true) : Takes (.look anchor) here here []
  | seq {p q : Pattern} {here mid there : Cursor} {cs ds : List Capture} (h : Takes p here mid cs)
      (h' : Takes q mid there ds) : Takes (.seq p q) here there (ds ++ cs)
  | first {p q : Pattern} {here there : Cursor} {cs : List Capture} (h : Takes p here there cs) :
      Takes (.alt p q) here there cs
  | second {p q : Pattern} {here there : Cursor} {cs : List Capture} (h : Takes q here there cs) :
      Takes (.alt p q) here there cs
  | done {greedy : Bool} {p : Pattern} (here : Cursor) : Takes (.star greedy p) here here []
  | more {greedy : Bool} {p : Pattern} {here mid there : Cursor} {cs ds : List Capture}
      (h : Takes (.star greedy p) here mid cs) (h' : Takes p mid there ds) :
      Takes (.star greedy p) here there (ds ++ cs)
  | group {n : Nat} {p : Pattern} {here there : Cursor} {cs : List Capture} (h : Takes p here there cs) :
      Takes (.group n p) here there (⟨n, here, there.offset⟩ :: cs)

namespace Pattern

variable {c : Capture} {q : Pattern}

theorem mem_of_mem_firstHits {seen : List Nat} {hits : List Hit} (h : hit ∈ firstHits seen hits) : hit ∈ hits := by
  induction hits generalizing seen with
  | nil => cases h
  | cons next hits ih =>
    rw [firstHits] at h
    split at h
    · rcases mem_cons.1 h with rfl | h
      · exact mem_cons_self
      · exact mem_cons_of_mem _ (ih h)
    · exact mem_cons_of_mem _ (ih h)

theorem starHits_induction {P : Hit → Prop} {step : Cursor → List Hit} {greedy : Bool}
    (hstep : ∀ hit, P hit → ∀ next ∈ step hit.place, P ⟨next.place, next.captures ++ hit.captures⟩)
    (left : List Char) {found : List Hit × List Nat} (hhit : P hit) (hfound : ∀ h ∈ found.1, P h) :
    ∀ h ∈ (starHits step greedy left hit found).1, P h := by
  have hcons {hits : List Hit} (hits_P : ∀ h ∈ hits, P h) : ∀ h ∈ hit :: hits, P h :=
    forall_mem_cons.2 ⟨hhit, hits_P⟩
  obtain ⟨hits, seen⟩ := found
  induction left generalizing hit hits seen with
  | nil =>
    rw [starHits]
    split
    · exact hfound
    · exact hcons hfound
  | cons c left ih =>
    -- a step on from `hit`, into hits that have the property already
    have hgoOn {found : List Hit × List Nat} (hfound : ∀ h ∈ found.1, P h) :
        ∀ h ∈ (((step hit.place).filter (hit.place.offset < ·.place.offset)).foldl (fun found next =>
          starHits step greedy left ⟨next.place, next.captures ++ hit.captures⟩ found) found).1, P h := by
      refine List.foldlRecOn (motive := fun found : List Hit × List Nat => ∀ h ∈ found.1, P h) _ _ hfound
        fun found hfound next hnext => ?_
      have hP := hstep hit hhit next (mem_filter.1 hnext).1
      exact ih hP (fun hits_P => forall_mem_cons.2 ⟨hP, hits_P⟩) found.1 found.2 hfound
    rw [starHits]
    split
    · exact hfound
    · split
      · exact hcons (hgoOn hfound)
      · exact hgoOn (hcons hfound)

theorem exists_of_mem_ends_seq (h : hit ∈ (seq p q).ends here) : ∃ first ∈ p.ends here, ∃ second ∈ q.ends first.place,
      hit = ⟨second.place, second.captures ++ first.captures⟩ := by
  rw [ends] at h
  split at h
  · cases h
  · rename_i first hfirst
    obtain ⟨second, hsecond, rfl⟩ := mem_map.1 h
    exact ⟨first, by simp [hfirst], second, hsecond, rfl⟩
  · obtain ⟨first, hfirst, h⟩ := mem_flatMap.1 (mem_of_mem_firstHits h)
    obtain ⟨second, hsecond, rfl⟩ := mem_map.1 h
    exact ⟨first, hfirst, second, hsecond, rfl⟩

theorem mem_ends_alt (h : hit ∈ (alt p q).ends here) : hit ∈ p.ends here ∨ hit ∈ q.ends here := by
  rw [ends] at h
  split at h
  · exact .inr h
  · exact mem_append.1 (mem_of_mem_firstHits h)

/-- **Every hit of the search is a way of the pattern.** -/
theorem takes_of_mem_ends (h : hit ∈ p.ends here) : p.Takes here hit.place hit.captures := by
  induction p generalizing here hit with
  | empty =>
    obtain rfl := mem_singleton.1 h
    exact .empty here
  | never => cases h
  | one set =>
    rw [ends] at h
    split at h
    · cases h
    · rename_i c cs hrest
      split at h
      · rename_i hc
        obtain rfl := mem_singleton.1 h
        exact .one hrest hc
      · cases h
  | look anchor =>
    rw [ends] at h
    split at h
    · rename_i hanchor
      obtain rfl := mem_singleton.1 h
      exact .look hanchor
    · cases h
  | seq p q ihp ihq =>
    obtain ⟨first, hfirst, second, hsecond, rfl⟩ := exists_of_mem_ends_seq h
    exact .seq (ihp hfirst) (ihq hsecond)
  | alt p q ihp ihq =>
    rcases mem_ends_alt h with h | h
    · exact .first (ihp h)
    · exact .second (ihq h)
  | star greedy p ih =>
    refine starHits_induction (P := fun hit => (star greedy p).Takes here hit.place hit.captures)
      (fun _ hhit _ hnext => .more hhit (ih hnext)) here.rest (.done here) ?_ hit (mem_reverse.1 h)
    simp
  | group n p ih =>
    obtain ⟨inner, hinner, rfl⟩ := mem_map.1 h
    exact .group (ih hinner)

/-! ## What holds of all ways -/

variable {cs : List Capture}

theorem Takes.leads (h : p.Takes here there cs) : ∃ piece, here.Leads piece there := by
  induction h with
  | empty here => exact ⟨[], .refl here⟩
  | one hrest _ => exact ⟨_, Cursor.leads_cons hrest⟩
  | look _ => exact ⟨[], .refl _⟩
  | seq _ _ ih ih' => exact ⟨_, ih.choose_spec.trans ih'.choose_spec⟩
  | first _ ih => exact ih
  | second _ ih => exact ih
  | done here => exact ⟨[], .refl here⟩
  | more _ _ ih ih' => exact ⟨_, ih.choose_spec.trans ih'.choose_spec⟩
  | group _ ih => exact ih

/-- The numbered groups of a pattern, with their bodies. -/
def groups : Pattern → List (Nat × Pattern)
  | seq p q => groups p ++ groups q
  | alt p q => groups p ++ groups q
  | star _ p => groups p
  | group n p => (n, p) :: groups p
  | _ => []

structure Remembers (p : Pattern) (here there : Cursor) (c : Capture) (body : Pattern) (mid : Cursor) : Prop where
  mem_groups : (c.number, body) ∈ p.groups
  before : ∃ piece, here.Leads piece c.start
  takes : ∃ captures, body.Takes c.start mid captures
  stop_eq : c.stop = mid.offset
  after : ∃ piece, mid.Leads piece there

theorem Remembers.within {here' there' mid : Cursor} {body : Pattern}
    (h : q.Remembers here' there' c body mid) (hgroups : q.groups ⊆ p.groups)
    (hbefore : ∃ piece, here.Leads piece here')
    (hafter : ∃ piece, there'.Leads piece there) : p.Remembers here there c body mid where
  mem_groups := hgroups h.mem_groups
  before := ⟨_, hbefore.choose_spec.trans h.before.choose_spec⟩
  takes := h.takes
  stop_eq := h.stop_eq
  after := ⟨_, h.after.choose_spec.trans hafter.choose_spec⟩

/-- **What a group remembers is a way of its body.** -/
theorem Takes.of_mem (h : p.Takes here there cs) (hc : c ∈ cs) : ∃ body mid, p.Remembers here there c body mid := by
  have hrefl (a : Cursor) : ∃ piece, a.Leads piece a := ⟨[], .refl a⟩
  induction h with
  | empty | one | look | done => cases hc
  | seq h h' ih ih' =>
    rcases mem_append.1 hc with hc | hc
    · obtain ⟨body, mid, hr⟩ := ih' hc
      exact ⟨body, mid, hr.within (subset_append_right _ _) h.leads (hrefl _)⟩
    · obtain ⟨body, mid, hr⟩ := ih hc
      exact ⟨body, mid, hr.within (subset_append_left _ _) (hrefl _) h'.leads⟩
  | first _ ih =>
    obtain ⟨body, mid, hr⟩ := ih hc
    exact ⟨body, mid, hr.within (subset_append_left _ _) (hrefl _) (hrefl _)⟩
  | second _ ih =>
    obtain ⟨body, mid, hr⟩ := ih hc
    exact ⟨body, mid, hr.within (subset_append_right _ _) (hrefl _) (hrefl _)⟩
  | more h h' ih ih' =>
    rcases mem_append.1 hc with hc | hc
    · obtain ⟨body, mid, hr⟩ := ih' hc
      exact ⟨body, mid, hr.within (Subset.refl _) h.leads (hrefl _)⟩
    · obtain ⟨body, mid, hr⟩ := ih hc
      exact ⟨body, mid, hr.within (Subset.refl _) (hrefl _) h'.leads⟩
  | @group n p here there cs h ih =>
    rcases mem_cons.1 hc with rfl | hc
    · exact ⟨p, there, mem_cons_self, hrefl _, ⟨cs, h⟩, rfl, hrefl _⟩
    · obtain ⟨body, mid, hr⟩ := ih hc
      exact ⟨body, mid, hr.within (subset_cons_self _ _) (hrefl _) (hrefl _)⟩

/-- Every way of the pattern takes a character. -/
def isSolid : Pattern → Bool
  | never | one _ => true
  | seq p q => p.isSolid || q.isSolid
  | alt p q => p.isSolid && q.isSolid
  | group _ p => p.isSolid
  | empty | look _ | star _ _ => false

theorem Takes.offset_lt (h : p.Takes here there cs) (hp : p.isSolid = true) : here.offset < there.offset := by
  induction h with
  | empty | look | done | more => cases hp
  | @one set here c cs _ _ => exact Nat.lt_add_of_pos_right c.utf8Size_pos
  | seq h h' ih ih' =>
    have hle := h.leads.choose_spec.offset_le
    have hle' := h'.leads.choose_spec.offset_le
    rcases Bool.or_eq_true _ _ ▸ hp with hp | hp
    · exact Nat.lt_of_lt_of_le (ih hp) hle'
    · exact Nat.lt_of_le_of_lt hle (ih' hp)
  | first _ ih => exact ih (Bool.and_eq_true _ _ ▸ hp).1
  | second _ ih => exact ih (Bool.and_eq_true _ _ ▸ hp).2
  | group _ ih => exact ih hp

end Pattern

/-! ## Pieces of a text -/

def Span.IsPieceOf (span : Span) (s : String) : Prop := Text.cut? s span.start span.stop = some span.text

namespace Span.IsPieceOf

variable {span : Span} (h : span.IsPieceOf s)

include h

theorem isBoundary_start : IsBoundary s span.start := (isSome_cut?_iff.1 ⟨_, h⟩).2.1

theorem isBoundary_stop : IsBoundary s span.stop := (isSome_cut?_iff.1 ⟨_, h⟩).2.2

theorem start_le_stop : span.start ≤ span.stop := (isSome_cut?_iff.1 ⟨_, h⟩).1

end Span.IsPieceOf

theorem Cursor.Leads.isPieceOf {s : String} {here there : Cursor} {piece : List Char} (hin : here.IsIn s)
    (h : here.Leads piece there) : Span.IsPieceOf ⟨here.offset, there.offset, String.ofList piece⟩ s := by
  obtain ⟨head, hhead⟩ := hin
  refine cut?_eq_some_iff.2 ⟨head, there.rest, ?_, ?_, ?_⟩
  · rw [String.toList_ofList, ← h.rest_eq]
    exact hhead.rest_eq
  · simpa [Cursor.start] using hhead.offset_eq.symm
  · rw [← byteLength_toList, String.toList_ofList]
    exact h.offset_eq.symm

/-! ## Matches -/

namespace Pattern

variable {m : Match}

/-- The match is a way of the pattern from some place of the text. -/
def Found (p : Pattern) (s : String) (m : Match) : Prop :=
  ∃ here hit, here.IsIn s ∧ p.Takes here hit.place hit.captures ∧ m = .ofHit here hit

theorem seekFrom_eq_some {offset : Nat} {before : Option Char} {rest : List Char}
    (h : p.seekFrom offset before rest = some (here, hit)) :
    (∃ piece, (Cursor.mk offset before rest).Leads piece here) ∧ hit ∈ p.ends here := by
  induction rest generalizing offset before with
  | nil =>
    rw [seekFrom] at h
    split at h
    · rename_i hends
      obtain ⟨rfl, rfl⟩ := Prod.mk.inj (Option.some.inj h)
      exact ⟨⟨[], .refl _⟩, hends ▸ mem_cons_self⟩
    · cases h
  | cons c cs ih =>
    rw [seekFrom] at h
    split at h
    · rename_i hends
      obtain ⟨rfl, rfl⟩ := Prod.mk.inj (Option.some.inj h)
      exact ⟨⟨[], .refl _⟩, hends ▸ mem_cons_self⟩
    · obtain ⟨⟨piece, hpiece⟩, hmem⟩ := ih h
      exact ⟨⟨_, (Cursor.leads_cons rfl).trans hpiece⟩, hmem⟩

theorem found_of_seek {from_ : Cursor} (hin : here.IsIn s) (h : p.seek here = some (from_, hit)) :
    p.Found s (.ofHit from_ hit) ∧ hit.place.IsIn s := by
  obtain ⟨⟨piece, hpiece⟩, hmem⟩ := seekFrom_eq_some h
  have htakes := takes_of_mem_ends hmem
  have hfrom := hin.leads hpiece
  exact ⟨⟨from_, hit, hfrom, htakes, rfl⟩, hfrom.leads htakes.leads.choose_spec⟩

theorem found_of_mem_findFrom {fuel : Nat} (hin : here.IsIn s) (h : m ∈ p.findFrom fuel here) : p.Found s m := by
  induction fuel generalizing here with
  | zero => cases h
  | succ fuel ih =>
    rw [findFrom] at h
    split at h
    · cases h
    · rename_i from_ hit hseek
      obtain ⟨hfound, hplace⟩ := found_of_seek hin hseek
      split at h
      · rcases mem_cons.1 h with rfl | h
        · exact hfound
        · exact ih hplace h
      · split at h
        · rename_i next hnext
          have hnext_in : next.IsIn s := by
            unfold Cursor.next? at hnext
            split at hnext
            · cases hnext
            · rename_i hrest
              cases hnext
              exact hplace.leads (Cursor.leads_cons hrest)
          rcases mem_cons.1 h with rfl | h
          · exact hfound
          · exact ih hnext_in h
        · obtain rfl := mem_singleton.1 h
          exact hfound

theorem found_of_mem_findAll (h : m ∈ p.findAll s) : p.Found s m :=
  found_of_mem_findFrom ⟨[], .refl _⟩ h

namespace Found

variable (h : p.Found s m)
include h

theorem whole : m.whole.IsPieceOf s := by
  obtain ⟨here, hit, hin, htakes, rfl⟩ := h
  obtain ⟨piece, hpiece⟩ := htakes.leads
  rw [Match.ofHit, hpiece.textTo_eq]
  exact hpiece.isPieceOf hin

theorem start_lt_stop (hp : p.isSolid = true) : m.start < m.stop := by
  obtain ⟨here, hit, -, htakes, rfl⟩ := h
  exact htakes.offset_lt hp

theorem group {n : Nat} {span : Span} (hspan : m.group? n = some span) :
    ∃ body here there captures, (n, body) ∈ p.groups ∧ here.IsIn s ∧ body.Takes here there captures ∧
      here.Leads span.text.toList there ∧ span.start = here.offset ∧ span.stop = there.offset := by
  obtain ⟨here, hit, hin, htakes, rfl⟩ := h
  obtain ⟨before, after, hgroups, -⟩ := lookup_eq_some_iff.1 hspan
  have hmem : (n, span) ∈ (Match.ofHit here hit).groups := hgroups ▸ by simp
  obtain ⟨c, hc, heq⟩ := mem_map.1 hmem
  obtain ⟨rfl, rfl⟩ := Prod.mk.inj heq
  obtain ⟨body, mid, hr⟩ := htakes.of_mem hc
  obtain ⟨captures, hbody⟩ := hr.takes
  obtain ⟨piece, hpiece⟩ := hbody.leads
  refine ⟨body, c.start, mid, captures, hr.mem_groups, hin.leads hr.before.choose_spec, hbody, ?_, rfl, hr.stop_eq⟩
  rwa [hr.stop_eq, hpiece.textTo_eq, String.toList_ofList]

theorem isPieceOf {n : Nat} {span : Span} (hspan : m.group? n = some span) : span.IsPieceOf s := by
  obtain ⟨body, here, there, captures, -, hin, -, hlead, hstart, hstop⟩ := h.group hspan
  have hpiece := hlead.isPieceOf hin
  rwa [String.ofList_toList, ← hstart, ← hstop] at hpiece

theorem isPieceOf_getD (n : Nat) : ((m.group? n).getD m.whole).IsPieceOf s := by
  cases hspan : m.group? n with
  | none => exact h.whole
  | some span => exact h.isPieceOf hspan

end Found

end Pattern

end Deadwood
