import Deadwood.Proofs.Tasks
import Deadwood.Quarantine.Store
import Mathlib.Data.List.Pairwise

/-!
# What a session holds

A tree `t` is taken apart by a session and becomes a tree `s`. `Holding` says how the two belong together:
what was taken is stored, files with new contents have their old ones stored, and all else is as it was,
but for empty directories.
-/

namespace Deadwood

open List

variable {p : Path}

/-! ## Places -/

def Component.name? : Component → Option String
  | .normal name => some name
  | _ => none

def Path.names (p : Path) : List String := p.named.filterMap Component.name?

theorem Path.IsRelative.names_eq {names : List String} (h : p.IsRelative names) : p.names = names := by
  rw [Path.names, h.named, filterMap_map]
  exact filterMap_some

theorem Path.filterMap_components (p : Path) : p.components.filterMap Component.name? = p.names := by
  have hstart : p.start.filterMap Component.name? = [] := by
    unfold Path.start
    split
    · rfl
    · split <;> rfl
  rw [Path.components_eq, filterMap_append, hstart, nil_append, Path.names]

theorem Path.names_eq_of_beq {q : Path} (h : (p == q) = true) : p.names = q.names := by
  have hcs : p.components = q.components := beq_iff_eq.1 h
  rw [← Path.filterMap_components, hcs, Path.filterMap_components]

def StoredFile.names (f : StoredFile) : List String := f.home.names

def storeAt (r : Address) : Address := r ++ [".deadfiles"]

def sessionAt (r : Address) (id : String) : Address := r ++ [".deadfiles", "quarantine", id]

def filesAt (r : Address) (id : String) : Address := r ++ [".deadfiles", "quarantine", id, "files"]

/-- Names of something in the project that is not in the store. -/
def IsOutside (names : List String) : Prop := names ≠ [] ∧ names.head? ≠ some ".deadfiles"

instance (names : List String) : Decidable (IsOutside names) := inferInstanceAs (Decidable (_ ∧ _))

section Places

variable {r : Address} {id : String} {m x : List String} {c : Address}

theorem ne_filesAt (m : List String) : r ++ m ≠ filesAt r id ++ m := by
  intro h
  have hlength := congrArg List.length h
  simp only [filesAt, length_append, length_cons] at hlength
  omega

theorem sessionAt_append (r : Address) (id : String) (x : List String) :
    sessionAt r id ++ x = r ++ ".deadfiles" :: "quarantine" :: id :: x := by
  rw [sessionAt, append_assoc]
  rfl

theorem store_prefix_files (x : List String) : storeAt r <+: filesAt r id ++ x := by
  rw [storeAt, filesAt, append_assoc, prefix_append_right_inj]
  exact ⟨"quarantine" :: id :: "files" :: x, rfl⟩

theorem IsOutside.of_prefix (h : IsOutside x) (hm : m <+: x) (hne : m ≠ []) : IsOutside m := by
  obtain ⟨name, m, rfl⟩ := exists_cons_of_ne_nil hne
  obtain ⟨y, rfl⟩ := hm
  exact ⟨hne, h.2⟩

variable (h : IsOutside m)
include h

theorem IsOutside.not_above_store (hc : storeAt r <+: c) : ¬ r ++ m <+: c := by
  obtain ⟨x, rfl⟩ := hc
  rw [storeAt, append_assoc, prefix_append_right_inj]
  obtain ⟨name, m, rfl⟩ := exists_cons_of_ne_nil h.1
  rw [singleton_append, cons_prefix_cons]
  rintro ⟨rfl, -⟩
  exact h.2 rfl

theorem IsOutside.not_storeAt_prefix (x : List String) : ¬ storeAt r <+: r ++ m ++ x := by
  rw [storeAt, append_assoc, prefix_append_right_inj]
  obtain ⟨name, m, rfl⟩ := exists_cons_of_ne_nil h.1
  rw [cons_append, cons_prefix_cons]
  rintro ⟨rfl, -⟩
  exact h.2 rfl

theorem IsOutside.not_storeAt_prefix_of_prefix (hc : r ++ m <+: c) : ¬ storeAt r <+: c := by
  obtain ⟨x, rfl⟩ := hc
  exact h.not_storeAt_prefix x

theorem IsOutside.not_prefix_above (hc : storeAt r <+: c) : ¬ c <+: (r ++ m).dropLast := fun hp =>
  h.not_storeAt_prefix_of_prefix prefix_rfl (hc.trans (hp.trans (List.dropLast_prefix _)))

theorem IsOutside.not_files_prefix (hc : r ++ m <+: c) : ¬ filesAt r id ++ x <+: c := fun hp =>
  h.not_storeAt_prefix_of_prefix hc ((store_prefix_files x).trans hp)

theorem IsOutside.ne_files (x : List String) : r ++ m ≠ filesAt r id ++ x := fun heq =>
  h.not_above_store (store_prefix_files x) (by rw [heq])

end Places

/-! ## Nested names -/

/-- Neither of two places is at or above the other. -/
def Apart (m n : List String) : Prop := ¬ m <+: n ∧ ¬ n <+: m

section Apart

variable {m n x y : List String}

theorem Apart.symm (h : Apart m n) : Apart n m := ⟨h.2, h.1⟩

theorem Apart.not_prefix_append (h : Apart m n) (x : List String) : ¬ m <+: n ++ x := fun hm =>
  (List.prefix_or_prefix_of_prefix hm (prefix_append n x)).elim h.1 h.2

theorem Apart.append (h : Apart m n) (c : Address) : Apart (c ++ m) (c ++ n) := by
  rwa [Apart, prefix_append_right_inj, prefix_append_right_inj]

end Apart

/-! ## The invariant -/

/-- A stored file comes from a tree and is stored in the usual place. -/
structure StoredFile.From (f : StoredFile) (t : FileTree) (r : Address) : Prop where
  home : f.home.IsRelative f.names
  stored : f.stored = filesDirectory.join f.home
  outside : IsOutside f.names
  there : (t.get? (r ++ f.names)).isSome
  wants : FileTree.wantsDirectory ⟨String.ofList ('/' :: f.home.text.toList)⟩ = true →
    t.get? (r ++ f.names) = some .directory

/-- The tree `s` is what a session has left of the tree `t`: the files `fs` are stored in the session. -/
structure Holding (t s : FileTree) (r : Address) (id : String) (fs : List StoredFile) : Prop where
  wf : s.WellFormed
  origin : ∀ f ∈ fs, f.From t r
  apart : fs.Pairwise fun f g => Apart f.names g.names
  taken : ∀ f ∈ fs, f.edited = false → s.get? (r ++ f.names) = none ∧
    ∀ x, s.get? (filesAt r id ++ f.names ++ x) = t.get? (r ++ f.names ++ x)
  /-- What got new contents has its old contents stored, and the new ones are known. -/
  edited : ∀ f ∈ fs, f.edited = true → ∃ old new, t.get? (r ++ f.names) = some (.file old) ∧
    s.get? (filesAt r id ++ f.names) = some (.file old) ∧ s.get? (r ++ f.names) = some (.file new) ∧
    (new = old ∨ f.writtenHash = some (fingerprint new))
  /-- All else is as it was, but for directories that were left empty. -/
  rest : ∀ c, ¬ storeAt r <+: c → (∀ f ∈ fs, ¬ r ++ f.names <+: c) → s.get? c = t.get? c ∨
    (t.get? c = some .directory ∧ s.get? c = none ∧ ∃ f ∈ fs, c <+: r ++ f.names)

namespace Holding

open FileTree

variable {t s u : FileTree} {r : Address} {id : String} {f g : StoredFile} {fs : List StoredFile} {contents : Bytes}
  {m : List String}

instance : Std.Symm fun f g : StoredFile => Apart f.names g.names := ⟨fun _ _ h => h.symm⟩

theorem eq_or_apart (h : Holding t s r id fs) (hf : f ∈ fs) (hg : g ∈ fs) : f = g ∨ Apart f.names g.names := by
  by_cases hfg : f = g
  · exact .inl hfg
  · exact .inr (h.apart.forall hf hg hfg)

theorem congr (h : Holding t s r id fs) (wf : u.WellFormed) (hsame : ∀ c, u.get? c = s.get? c ∨
      (storeAt r <+: c ∧ ∀ f ∈ fs, ¬ filesAt r id ++ f.names <+: c)) : Holding t u r id fs := by
  have hhome {f : StoredFile} (hf : f ∈ fs) : u.get? (r ++ f.names) = s.get? (r ++ f.names) :=
    (hsame _).resolve_right fun hs => (h.origin f hf).outside.not_above_store hs.1 prefix_rfl
  have hstored {f : StoredFile} (hf : f ∈ fs) (x : List String) :
      u.get? (filesAt r id ++ f.names ++ x) = s.get? (filesAt r id ++ f.names ++ x) :=
    (hsame _).resolve_right fun hs => hs.2 f hf (prefix_append _ x)
  refine ⟨wf, h.origin, h.apart, fun f hf he => ?_, fun f hf he => ?_, fun c hc hcov => ?_⟩
  · obtain ⟨hnone, hall⟩ := h.taken f hf he
    exact ⟨(hhome hf).trans hnone, fun x => (hstored hf x).trans (hall x)⟩
  · obtain ⟨old, new, hold, hst, hnew, hhash⟩ := h.edited f hf he
    have := hstored hf []
    rw [append_nil] at this
    exact ⟨old, new, hold, this.trans hst, (hhome hf).trans hnew, hhash⟩
  · rw [(hsame c).resolve_right fun hs => hc hs.1]
    exact h.rest c hc hcov

/-! ## Setting aside -/

section

variable (h : Holding t s r id fs)
include h

theorem not_prefix_of_isSome (hg : g ∈ fs) (he : g.edited = false) (hm : (s.get? (r ++ m)).isSome) :
    ¬ g.names <+: m := by
  rintro ⟨x, rfl⟩
  rw [← append_assoc, h.wf.get?_append_eq_none (h.taken g hg he).1] at hm
  cases hm

theorem apart_of_movable (hall : ∀ g ∈ fs, g.edited = false) (hmov : s.Movable (r ++ m) (filesAt r id ++ m)) :
    ∀ g ∈ fs, Apart g.names m := by
  intro g hg
  have hbelow := h.not_prefix_of_isSome hg (hall g hg) hmov.source
  refine ⟨hbelow, ?_⟩
  rintro ⟨x, hx⟩
  -- something is stored below the target, which has to be empty
  have hnil : x ≠ [] := by
    rintro rfl
    rw [append_nil] at hx
    exact hbelow ⟨[], by rw [hx, append_nil]⟩
  have hstored := (h.taken g hg (hall g hg)).2 []
  rw [append_nil, append_nil, ← hx, ← append_assoc, hmov.room x hnil, hx] at hstored
  have hthere := (h.origin g hg).there
  rw [← hstored] at hthere
  cases hthere

theorem get?_of_apart (hm : IsOutside m) (hapart : ∀ g ∈ fs, Apart g.names m) (x : List String) :
    s.get? (r ++ m ++ x) = t.get? (r ++ m ++ x) := by
  refine (h.rest _ (hm.not_storeAt_prefix x) fun g hg => ?_).resolve_right ?_
  · exact ((hapart g hg).append r).not_prefix_append x
  · rintro ⟨-, -, g, hg, hp⟩
    exact ((hapart g hg).append r).2 ((prefix_append _ x).trans hp)

theorem take (hall : ∀ g ∈ fs, g.edited = false) (hf : f.From t r) (he : f.edited = false)
    (hmov : s.Movable (r ++ f.names) (filesAt r id ++ f.names)) :
    Holding t (s.transfer (r ++ f.names) (filesAt r id ++ f.names)) r id (fs ++ [f]) := by
  have hapart := h.apart_of_movable hall hmov
  have hout := hf.outside
  have hstore (x : List String) : ¬ r ++ f.names <+: filesAt r id ++ x :=
    hout.not_above_store (store_prefix_files x)
  refine ⟨h.wf.transfer hmov, ?_, ?_, ?_, ?_, ?_⟩
  · exact forall_mem_append.2 ⟨h.origin, forall_mem_singleton.2 hf⟩
  · exact pairwise_append.2 ⟨h.apart, pairwise_singleton _ _, fun g hg => forall_mem_singleton.2 (hapart g hg)⟩
  · intro g hg _
    rcases mem_append.1 hg with hg | hg
    · obtain ⟨hnone, hst⟩ := h.taken g hg (hall g hg)
      have ha := (hapart g hg).symm
      constructor
      · rw [get?_transfer_rest h.wf hmov (ha.append r).1, hnone]
        exact fun hp => (h.origin g hg).outside.not_above_store ((store_prefix_files _).trans hp) prefix_rfl
      · intro x
        rw [get?_transfer_rest h.wf hmov, hst x]
        · rw [append_assoc]
          exact hstore _
        · exact (ha.append _).not_prefix_append x
    · obtain rfl := mem_singleton.1 hg
      constructor
      · exact get?_transfer_at_source h.wf hmov
      · intro x
        rw [get?_transfer_target h.wf hmov, h.get?_of_apart hout hapart]
  · intro g hg hedited
    rcases mem_append.1 hg with hg | hg
    · rw [hall g hg] at hedited
      cases hedited
    · rw [mem_singleton.1 hg, he] at hedited
      cases hedited
  · intro c hc hcov
    have hcf : ¬ r ++ f.names <+: c := hcov f (by simp)
    have hcs : ¬ filesAt r id ++ f.names <+: c := fun hp => hc ((store_prefix_files _).trans hp)
    rw [get?_transfer_rest h.wf hmov hcf hcs]
    refine (h.rest c hc (forall_mem_append.1 hcov).1).imp_right ?_
    rintro ⟨hdir, hnone, g, hg, hp⟩
    exact ⟨hdir, hnone, g, mem_append_left _ hg, hp⟩

theorem prune {c : Address} (hcm : c = r ++ m) (hm : IsOutside m) (hdir : s.get? c = some .directory)
    (hempty : ∀ name, s.get? (c ++ [name]) = none) (hf : f ∈ fs) (hcf : c <+: r ++ f.names) :
    Holding t (s.erase c) r id fs := by
  have hc : c ≠ [] := by
    rw [hcm]
    simp [hm.1]
  have hget (b : Address) : (s.erase c).get? b = s.get? b ∨ b = c := by
    rw [get?_erase hc]
    split
    · rename_i hp
      obtain ⟨x, rfl⟩ := hp
      by_cases hx : x = []
      · exact .inr (by rw [hx, append_nil])
      · exact .inl (h.wf.get?_below_empty hempty hx).symm
    · exact .inl rfl
  have hstored (x : List String) : filesAt r id ++ x ≠ c := hcm ▸ (hm.ne_files x).symm
  refine ⟨h.wf.erase hc, h.origin, h.apart, fun g hg he => ?_, fun g hg he => ?_, fun b hb hcov => ?_⟩
  · obtain ⟨hnone, hst⟩ := h.taken g hg he
    refine ⟨(hget _).elim (·.trans hnone) fun heq => ?_, fun x => ?_⟩
    · rw [heq, hdir] at hnone
      cases hnone
    · rw [← hst x]
      refine (hget _).resolve_right ?_
      rw [append_assoc]
      exact hstored _
  · obtain ⟨old, new, hold, hst, hnew, hhash⟩ := h.edited g hg he
    refine ⟨old, new, hold, ?_, ?_, hhash⟩
    · rw [← hst]
      exact (hget _).resolve_right (hstored _)
    · rw [← hnew]
      refine (hget _).resolve_right fun heq => ?_
      rw [heq, hdir] at hnew
      cases hnew
  · rcases hget b with heq | rfl
    · rw [heq]
      exact h.rest b hb hcov
    · have ht : t.get? b = some .directory := by
        rcases h.rest b hb hcov with hsame | ⟨-, hnone, -⟩
        · rw [← hsame, hdir]
        · rw [hdir] at hnone
          cases hnone
      refine .inr ⟨ht, ?_, f, hf, hcf⟩
      rw [get?_erase hc, if_pos prefix_rfl]

theorem apart_of_file (wf : t.WellFormed) (hm : IsOutside m) (hfile : s.get? (r ++ m) = some (.file contents))
    (hnew : ∀ g ∈ fs, g.edited = true → g.names ≠ m) :
    t.get? (r ++ m) = some (.file contents) ∧ ∀ g ∈ fs, Apart g.names m := by
  have habove : ∀ g ∈ fs, ¬ g.names <+: m := by
    intro g hg hp
    cases he : g.edited with
    | false => exact h.not_prefix_of_isSome hg he (by rw [hfile]; rfl) hp
    | true =>
      obtain ⟨x, rfl⟩ := hp
      obtain ⟨-, new, -, -, hhome, -⟩ := h.edited g hg he
      have hx : x ≠ [] := fun hx => hnew g hg he (by rw [hx, append_nil])
      rw [← append_assoc, h.wf.get?_below_file hx hhome] at hfile
      cases hfile
  have ht : t.get? (r ++ m) = some (.file contents) := by
    have hst := hm.not_storeAt_prefix_of_prefix (prefix_refl (r ++ m))
    rcases h.rest (r ++ m) hst fun g hg hp => habove g hg ((prefix_append_right_inj r).1 hp) with
      hsame | ⟨-, hnone, -⟩
    · rw [← hsame, hfile]
    · rw [hfile] at hnone
      cases hnone
  refine ⟨ht, fun g hg => ⟨habove g hg, ?_⟩⟩
  rintro ⟨x, hx⟩
  obtain ⟨n, hn⟩ := Option.isSome_iff_exists.1 (h.origin g hg).there
  by_cases hnil : x = []
  · exact habove g hg (by rw [← hx, hnil, append_nil])
  · rw [← hx, ← append_assoc, wf.get?_below_file hnil ht] at hn
    cases hn

theorem backUp (wf : t.WellFormed) (hf : f.From t r) (he : f.edited = true)
    (hfile : s.get? (r ++ f.names) = some (.file contents)) (hnew : ∀ g ∈ fs, g.edited = true → g.names ≠ f.names)
    (hwf : (s.put (filesAt r id ++ f.names) (.file contents)).WellFormed) :
    Holding t (s.put (filesAt r id ++ f.names) (.file contents)) r id (fs ++ [f]) := by
  obtain ⟨ht, hapart⟩ := h.apart_of_file wf hf.outside hfile hnew
  have hne : filesAt r id ++ f.names ≠ [] := by simp [hf.outside.1]
  have hkeep := h.congr hwf fun c => ((SameBut.put hne).get?_or c).imp_right fun hc => by
    subst hc
    exact ⟨store_prefix_files _, fun g hg => ((hapart g hg).append _).1⟩
  refine ⟨hwf, ?_, ?_, ?_, ?_, ?_⟩
  · exact forall_mem_append.2 ⟨h.origin, forall_mem_singleton.2 hf⟩
  · exact pairwise_append.2 ⟨h.apart, pairwise_singleton _ _, fun g hg => forall_mem_singleton.2 (hapart g hg)⟩
  · intro g hg hge
    rcases mem_append.1 hg with hg | hg
    · exact hkeep.taken g hg hge
    · rw [mem_singleton.1 hg, he] at hge
      cases hge
  · intro g hg hge
    rcases mem_append.1 hg with hg | hg
    · exact hkeep.edited g hg hge
    · obtain rfl := mem_singleton.1 hg
      refine ⟨contents, contents, ht, by rw [get?_put hne, if_pos rfl], ?_, .inl rfl⟩
      rw [get?_put hne, if_neg (hf.outside.ne_files _), hfile]
  · intro c hc hcov
    refine (hkeep.rest c hc (forall_mem_append.1 hcov).1).imp_right ?_
    rintro ⟨hdir, hnone, g, hg, hp⟩
    exact ⟨hdir, hnone, g, mem_append_left _ hg, hp⟩

theorem rewrite (hf : f ∈ fs) (he : f.edited = true) {new : Bytes} (hhash : f.writtenHash = some (fingerprint new))
    (hwf : (s.put (r ++ f.names) (.file new)).WellFormed) : Holding t (s.put (r ++ f.names) (.file new)) r id fs := by
  have hout := (h.origin f hf).outside
  have hne : r ++ f.names ≠ [] := by simp [hout.1]
  have hget {c : Address} := (SameBut.put (t := s) (n := .file new) hne).get? c
  have hstored (x : List String) : filesAt r id ++ x ≠ r ++ f.names := (hout.ne_files x).symm
  refine ⟨hwf, h.origin, h.apart, fun g hg hge => ?_, fun g hg hge => ?_, fun c hc hcov => ?_⟩
  · obtain ⟨hnone, hst⟩ := h.taken g hg hge
    have hgf : g ≠ f := by
      rintro rfl
      rw [he] at hge
      cases hge
    refine ⟨?_, fun x => ?_⟩
    · rw [hget, hnone]
      intro heq
      exact (((h.eq_or_apart hg hf).resolve_left hgf).append r).1 (by rw [heq])
    · rw [append_assoc, hget (hstored _), ← append_assoc, hst x]
  · obtain ⟨old, new', hold, hst, hnew, hhash'⟩ := h.edited g hg hge
    rcases h.eq_or_apart hg hf with rfl | hapart
    · exact ⟨old, new, hold, by rw [hget (hstored _), hst], by rw [get?_put hne, if_pos rfl], .inr hhash⟩
    · refine ⟨old, new', hold, by rw [hget (hstored _), hst], ?_, hhash'⟩
      rw [hget, hnew]
      intro heq
      exact (hapart.append r).1 (by rw [heq])
  · rw [hget]
    · exact h.rest c hc hcov
    · rintro rfl
      exact hcov f hf prefix_rfl

end

/-! ## Putting back -/

/-- **What is put back is as it was:** a tree in which a file is at home again, and which has changed
nowhere else but for directories above it, holds the other files. -/
theorem release (h : Holding t s r id (f :: fs)) (wf : t.WellFormed) (hwf : u.WellFormed)
    (hhome : ∀ x, u.get? (r ++ f.names ++ x) = t.get? (r ++ f.names ++ x))
    (hsame : ∀ c, ¬ r ++ f.names <+: c → ¬ filesAt r id ++ f.names <+: c →
      u.get? c = s.get? c ∨ (s.get? c = none ∧ c <+: r ++ f.names)) : Holding t u r id fs := by
  have hfrom := h.origin f mem_cons_self
  have hapart : ∀ g ∈ fs, Apart f.names g.names := (pairwise_cons.1 h.apart).1
  obtain ⟨n, hn⟩ := Option.isSome_iff_exists.1 hfrom.there
  have hthere : u.get? (r ++ f.names) = some n := by
    have := hhome []
    rw [append_nil] at this
    rw [this, hn]
  -- directories above the file are there in both trees
  have habove {c : Address} (hc : c <+: r ++ f.names) (hne : c ≠ r ++ f.names) :
      u.get? c = some .directory ∧ t.get? c = some .directory := by
    obtain ⟨x, hx⟩ := hc
    have hxne : x ≠ [] := fun hnil => hne (by rw [← hx, hnil, append_nil])
    rw [← hx] at hthere hn
    exact ⟨hwf.directory_above hxne hthere, wf.directory_above hxne hn⟩
  have hgood {g : StoredFile} (hg : g ∈ fs) : u.get? (r ++ g.names) = s.get? (r ++ g.names) := by
    have ha := (hapart g hg).append r
    refine (hsame _ ha.1 fun hp => ?_).resolve_right fun hs => ha.2 hs.2
    exact (h.origin g (mem_cons_of_mem _ hg)).outside.not_above_store ((store_prefix_files _).trans hp) prefix_rfl
  have hstored {g : StoredFile} (hg : g ∈ fs) (x : List String) :
      u.get? (filesAt r id ++ g.names ++ x) = s.get? (filesAt r id ++ g.names ++ x) := by
    have hst : storeAt r <+: filesAt r id ++ g.names ++ x := by
      rw [append_assoc]
      exact store_prefix_files _
    refine (hsame _ (hfrom.outside.not_above_store hst)
      (((hapart g hg).append _).not_prefix_append x)).resolve_right fun hs => ?_
    exact hfrom.outside.not_storeAt_prefix [] ((hst.trans hs.2).trans (by simp))
  refine ⟨hwf, (forall_mem_cons.1 h.origin).2, h.apart.tail, fun g hg he => ?_, fun g hg he => ?_, fun c hc hcov => ?_⟩
  · obtain ⟨hnone, hst⟩ := h.taken g (mem_cons_of_mem _ hg) he
    exact ⟨(hgood hg).trans hnone, fun x => (hstored hg x).trans (hst x)⟩
  · obtain ⟨old, new, hold, hst, hnew, hhash⟩ := h.edited g (mem_cons_of_mem _ hg) he
    have := hstored hg []
    rw [append_nil] at this
    exact ⟨old, new, hold, this.trans hst, (hgood hg).trans hnew, hhash⟩
  · by_cases hcf : r ++ f.names <+: c
    · obtain ⟨x, rfl⟩ := hcf
      exact .inl (hhome x)
    · have hne : c ≠ r ++ f.names := by
        rintro rfl
        exact hcf prefix_rfl
      rcases hsame c hcf fun hp => hc ((store_prefix_files _).trans hp) with heq | ⟨-, hp⟩
      · rw [heq]
        have hcov' : ∀ g ∈ f :: fs, ¬ r ++ g.names <+: c := forall_mem_cons.2 ⟨hcf, hcov⟩
        rcases h.rest c hc hcov' with hrest | ⟨hdir, hnone, g, hg, hp⟩
        · exact .inl hrest
        · rcases mem_cons.1 hg with rfl | hg
          · obtain ⟨hu, ht⟩ := habove hp hne
            exact .inl (by rw [← heq, hu, ht])
          · exact .inr ⟨hdir, hnone, g, hg, hp⟩
      · obtain ⟨hu, ht⟩ := habove hp hne
        exact .inl (by rw [hu, ht])

end Holding

end Deadwood
