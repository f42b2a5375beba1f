import Deadwood.Files.Tree
import Deadwood.Proofs.Paths
import Mathlib.Data.List.Infix
import Mathlib.Data.List.Nodup

/-!
# Well-formed trees of files

A tree is read through `FileTree.get?` only: every change is stated as what is at each address
afterwards.
-/

namespace Deadwood

open List

/-- A name that a file can have and that is not too long. -/
def IsFileName (name : String) : Prop := IsName name ∧ name.utf8ByteSize ≤ FileTree.maxNameLength

instance (name : String) : Decidable (IsFileName name) := inferInstanceAs (Decidable (_ ∧ _))

namespace FileTree

/-- A tree that a file system can hold. -/
structure WellFormed (t : FileTree) : Prop where
  keys : (t.nodes.map (·.1)).Nodup
  below : ∀ x ∈ t.nodes, x.1 ≠ []
  names : ∀ x ∈ t.nodes, ∀ name ∈ x.1, IsFileName name
  parents : ∀ x ∈ t.nodes, t.get? x.1.dropLast = some .directory

instance (t : FileTree) : Decidable t.WellFormed :=
  decidable_of_iff ((t.nodes.map (·.1)).Nodup ∧ (∀ x ∈ t.nodes, x.1 ≠ []) ∧
      (∀ x ∈ t.nodes, ∀ name ∈ x.1, IsFileName name) ∧ ∀ x ∈ t.nodes, t.get? x.1.dropLast = some .directory)
    ⟨fun ⟨h₁, h₂, h₃, h₄⟩ => ⟨h₁, h₂, h₃, h₄⟩, fun h => ⟨h.keys, h.below, h.names, h.parents⟩⟩

/-! ## Looking up -/

variable {t : FileTree} {a b c : Address} {n : Node}

@[simp]
theorem get?_nil : t.get? [] = some .directory := rfl

theorem get?_of_ne_nil (h : a ≠ []) : t.get? a = t.nodes.lookup a := by
  rw [get?, if_neg (by rwa [List.isEmpty_iff])]

theorem lookup_eq_some_iff {l : List (Address × Node)} (h : (l.map (·.1)).Nodup) :
    l.lookup a = some n ↔ (a, n) ∈ l := by
  induction l with
  | nil => simp
  | cons x l ih =>
    rw [map_cons, nodup_cons] at h
    obtain ⟨b, m⟩ := x
    rw [lookup_cons, mem_cons, Prod.mk.injEq]
    by_cases hab : a = b
    · have hnot : (a, n) ∉ l := fun hm => h.1 (mem_map.2 ⟨_, hm, hab⟩)
      simp [hab, hab ▸ hnot, eq_comm]
    · have hab' : (a == b) = false := beq_false_of_ne hab
      simp [hab, hab', ih h.2]

theorem lookup_filter (p : Address → Bool) (l : List (Address × Node)) :
    (l.filter fun x => p x.1).lookup a = if p a then l.lookup a else none := by
  induction l with
  | nil => simp
  | cons x l ih =>
    obtain ⟨b, m⟩ := x
    rw [filter_cons, lookup_cons]
    by_cases hab : a = b
    · subst hab
      by_cases hp : p a
      · simp [hp]
      · simp [hp, ih]
    · have hab' : (a == b) = false := beq_false_of_ne hab
      split
      · rw [lookup_cons, hab', ih]
      · rw [hab', ih]

section

variable (wf : t.WellFormed) {x : Address}
include wf

theorem WellFormed.get?_eq_some_iff (ha : a ≠ []) : t.get? a = some n ↔ (a, n) ∈ t.nodes := by
  rw [get?_of_ne_nil ha, lookup_eq_some_iff wf.keys]

theorem WellFormed.parent (ha : a ≠ []) (h : t.get? a = some n) : t.get? a.dropLast = some .directory :=
  wf.parents _ ((wf.get?_eq_some_iff ha).1 h)

theorem WellFormed.isFileName (h : t.get? a = some n) : ∀ name ∈ a, IsFileName name := by
  by_cases ha : a = []
  · simp [ha]
  · exact wf.names _ ((wf.get?_eq_some_iff ha).1 h)

theorem WellFormed.isName (h : t.get? a = some n) : ∀ name ∈ a, IsName name :=
  fun name hname => (wf.isFileName h name hname).1

theorem WellFormed.directory_above (hx : x ≠ []) (h : t.get? (a ++ x) = some n) : t.get? a = some .directory := by
  induction x using List.reverseRecOn generalizing n with
  | nil => exact absurd rfl hx
  | append_singleton x name ih =>
    have hp := wf.parent (by simp) h
    rw [← append_assoc, dropLast_concat] at hp
    by_cases hx : x = []
    · rwa [hx, append_nil] at hp
    · exact ih hx hp

theorem WellFormed.get?_append_eq_none (h : t.get? a = none) : t.get? (a ++ x) = none := by
  by_cases hx : x = []
  · rwa [hx, append_nil]
  · rw [Option.eq_none_iff_forall_ne_some]
    intro n hn
    rw [wf.directory_above hx hn] at h
    cases h

theorem WellFormed.get?_below_file (hx : x ≠ []) {contents : Bytes} (h : t.get? a = some (.file contents))
    : t.get? (a ++ x) = none := by
  rw [Option.eq_none_iff_forall_ne_some]
  intro n hn
  rw [wf.directory_above hx hn] at h
  cases h

theorem WellFormed.get?_eq_none_of_isPrefix (hab : a <+: b) (h : t.get? a = none) : t.get? b = none := by
  obtain ⟨x, rfl⟩ := hab
  exact wf.get?_append_eq_none h

end

/-! ## Names in a directory -/

theorem mem_children (wf : t.WellFormed) {name : String} : name ∈ t.children a ↔ (t.get? (a ++ [name])).isSome := by
  rw [children, mem_filterMap, Option.isSome_iff_exists]
  constructor
  · rintro ⟨⟨b, n⟩, hb, hname⟩
    simp only [beq_iff_eq, Option.ite_none_right_eq_some] at hname
    have hba : b = a ++ [name] := by
      rw [← dropLast_append_getLast? name hname.2, hname.1]
    exact ⟨n, (wf.get?_eq_some_iff (by simp)).2 (hba ▸ hb)⟩
  · rintro ⟨n, hn⟩
    exact ⟨_, (wf.get?_eq_some_iff (by simp)).1 hn, by simp⟩

theorem children_isEmpty_iff (wf : t.WellFormed) :
    (t.children a).isEmpty = true ↔ ∀ name, t.get? (a ++ [name]) = none := by
  rw [List.isEmpty_iff, eq_nil_iff_forall_not_mem]
  exact forall_congr' fun name => by rw [mem_children wf, Option.not_isSome_iff_eq_none]

theorem nodup_children (wf : t.WellFormed) : (t.children a).Nodup := by
  rw [children]
  -- the names come from the keys alone
  have hkeys : (t.nodes.filterMap fun x => if x.1.dropLast == a then x.1.getLast? else none) =
      (t.nodes.map (·.1)).filterMap fun b => if b.dropLast == a then b.getLast? else none := by
    rw [filterMap_map]
    rfl
  refine hkeys ▸ Nodup.filterMap (fun b c name hb hc => ?_) wf.keys
  simp only [beq_iff_eq, Option.mem_def, Option.ite_none_right_eq_some] at hb hc
  rw [← dropLast_append_getLast? name hb.2, ← dropLast_append_getLast? name hc.2, hb.1, hc.1]

theorem WellFormed.get?_below_empty (wf : t.WellFormed) (h : ∀ name, t.get? (a ++ [name]) = none)
    {x : Address} (hx : x ≠ []) : t.get? (a ++ x) = none := by
  obtain ⟨name, rest, rfl⟩ := exists_cons_of_ne_nil hx
  have := wf.get?_append_eq_none (x := rest) (h name)
  rwa [append_assoc, singleton_append] at this

/-! ## Changes -/

theorem get?_put (ha : a ≠ []) : (t.put a n).get? b = if b = a then some n else t.get? b := by
  by_cases hb : b = []
  · rw [hb, if_neg (Ne.symm ha)]
    rfl
  · rw [get?_of_ne_nil hb, get?_of_ne_nil hb, put, lookup_cons]
    by_cases hba : b = a
    · simp [hba]
    · have hba' : (b == a) = false := beq_false_of_ne hba
      rw [hba', lookup_filter (· != a), if_neg hba, if_pos (bne_iff_ne.2 hba)]

theorem not_isPrefixOf_iff : (!a.isPrefixOf b) = true ↔ ¬ a <+: b := by
  rw [Bool.not_eq_true', ← Bool.not_eq_true, isPrefixOf_iff_prefix]

theorem get?_erase (ha : a ≠ []) : (t.erase a).get? b = if a <+: b then none else t.get? b := by
  by_cases hb : b = []
  · rw [hb, if_neg (by rwa [prefix_nil])]
    rfl
  · rw [get?_of_ne_nil hb, get?_of_ne_nil hb, erase, lookup_filter (fun b => !a.isPrefixOf b)]
    by_cases hab : a <+: b
    · rw [if_pos hab, if_neg (not_isPrefixOf_iff.not.2 (not_not_intro hab))]
    · rw [if_neg hab, if_pos (not_isPrefixOf_iff.2 hab)]

theorem dropLast_ne (ha : a ≠ []) : a.dropLast ≠ a := by
  intro h
  have hlen := congrArg List.length h
  have hpos := length_pos_iff.2 ha
  rw [length_dropLast] at hlen
  omega

theorem WellFormed.put (wf : t.WellFormed) (ha : a ≠ []) (hnames : ∀ name ∈ a, IsFileName name)
    (hparent : t.get? a.dropLast = some .directory) (hn : n = .directory ∨ t.get? a ≠ some .directory) :
    (t.put a n).WellFormed where
  keys := by
    rw [FileTree.put, map_cons, nodup_cons]
    refine ⟨?_, (filter_sublist.map _).nodup wf.keys⟩
    simp
  below := by
    intro x hx
    rcases mem_cons.1 hx with rfl | hx
    · exact ha
    · exact wf.below x (mem_filter.1 hx).1
  names := by
    intro x hx
    rcases mem_cons.1 hx with rfl | hx
    · exact hnames
    · exact wf.names x (mem_filter.1 hx).1
  parents := by
    intro x hx
    rw [get?_put ha]
    rcases mem_cons.1 hx with rfl | hx
    · split
      · rename_i h
        exact absurd h (dropLast_ne ha)
      · exact hparent
    · have hx := wf.parents x (mem_filter.1 hx).1
      split
      · rename_i h
        rw [h] at hx
        rw [hn.resolve_right (not_not_intro hx)]
      · exact hx

theorem WellFormed.erase (wf : t.WellFormed) (ha : a ≠ []) : (t.erase a).WellFormed where
  keys := (filter_sublist.map _).nodup wf.keys
  below := fun x hx => wf.below x (mem_filter.1 hx).1
  names := fun x hx => wf.names x (mem_filter.1 hx).1
  parents := by
    intro x hx
    obtain ⟨hx, hax⟩ := mem_filter.1 hx
    rw [get?_erase ha, if_neg fun h => not_isPrefixOf_iff.1 hax (h.trans (List.dropLast_prefix _)), wf.parents x hx]

/-! ## Moves -/

def placed (a b c : Address) : Address := if a.isPrefixOf c then b ++ c.drop a.length else c

theorem placed_append (x : Address) : placed a b (a ++ x) = b ++ x := by
  rw [placed, if_pos (List.isPrefixOf_iff_prefix.2 (prefix_append a x)), drop_left]

theorem placed_of_apart (h : ¬ a <+: c) : placed a b c = c := by
  rw [placed, if_neg (by rwa [List.isPrefixOf_iff_prefix])]

/-- What is at `a` can be moved to `b`, where nothing is in the way. -/
structure Movable (t : FileTree) (a b : Address) : Prop where
  source : (t.get? a).isSome
  apart : ¬ a <+: b
  room : ∀ x, x ≠ [] → t.get? (b ++ x) = none
  parent : t.get? b.dropLast = some .directory
  names : ∀ name ∈ b, IsFileName name

namespace Movable

variable (h : Movable t a b)
include h

theorem source_ne_nil : a ≠ [] := by
  rintro rfl
  exact h.apart nil_prefix

theorem target_ne_nil : b ≠ [] := by
  rintro rfl
  have hnone := h.room a h.source_ne_nil
  rw [nil_append] at hnone
  exact absurd h.source (by simp [hnone])

theorem eq_of_prefix (hc : (t.get? c).isSome) (hbc : b <+: c) : c = b := by
  obtain ⟨x, rfl⟩ := hbc
  by_cases hx : x = []
  · rw [hx, append_nil]
  · rw [h.room x hx] at hc
    cases hc

theorem not_prefix : ¬ b <+: a := fun hba =>
  h.apart (h.eq_of_prefix h.source hba ▸ prefix_rfl)

theorem placed_inj {d : Address} (hc : (t.get? c).isSome) (hd : (t.get? d).isSome) (hcb : c ≠ b)
    (hdb : d ≠ b) (heq : placed a b c = placed a b d) : c = d := by
  by_cases hac : a <+: c <;> by_cases had : a <+: d
  · obtain ⟨x, rfl⟩ := hac
    obtain ⟨y, rfl⟩ := had
    rw [placed_append, placed_append, append_cancel_left_eq] at heq
    rw [heq]
  · obtain ⟨x, rfl⟩ := hac
    rw [placed_append, placed_of_apart had] at heq
    exact absurd (h.eq_of_prefix hd ⟨x, heq⟩) hdb
  · obtain ⟨y, rfl⟩ := had
    rw [placed_append, placed_of_apart hac] at heq
    exact absurd (h.eq_of_prefix hc ⟨y, heq.symm⟩) hcb
  · rwa [placed_of_apart hac, placed_of_apart had] at heq

end Movable

theorem mem_nodes_transfer {x : Address × Node} :
    x ∈ (t.transfer a b).nodes ↔ ∃ y ∈ t.nodes, y.1 ≠ b ∧ (placed a b y.1, y.2) = x := by
  simp only [transfer, mem_map, mem_filter, bne_iff_ne, placed, and_assoc]

section

variable (wf : t.WellFormed)
include wf

theorem WellFormed.isSome_of_mem {x : Address × Node} (hx : x ∈ t.nodes) : (t.get? x.1).isSome := by
  rw [(wf.get?_eq_some_iff (wf.below x hx)).2 hx]
  rfl

variable (h : Movable t a b)
include h

theorem keys_transfer : ((t.transfer a b).nodes.map (·.1)).Nodup := by
  have hmap : (t.transfer a b).nodes.map (·.1) = ((t.nodes.filter (·.1 != b)).map (·.1)).map (placed a b) := by
    simp only [transfer, map_map]
    rfl
  rw [hmap]
  refine Nodup.map_on ?_ ((filter_sublist.map _).nodup wf.keys)
  intro c hc d hd heq
  obtain ⟨x, hx, rfl⟩ := mem_map.1 hc
  obtain ⟨y, hy, rfl⟩ := mem_map.1 hd
  rw [mem_filter, bne_iff_ne] at hx hy
  exact h.placed_inj (wf.isSome_of_mem hx.1) (wf.isSome_of_mem hy.1) hx.2 hy.2 heq

/-- **After a move, what was at and below the source is at and below the target.** -/
theorem get?_transfer : (t.transfer a b).get? c =
    if b <+: c then t.get? (a ++ c.drop b.length) else if a <+: c then none else t.get? c := by
  by_cases hc : c = []
  · rw [hc, if_neg (by simpa using h.target_ne_nil), if_neg (by simpa using h.source_ne_nil)]
    rfl
  · have hmem (n : Node) : (t.transfer a b).get? c = some n ↔
        ∃ d, t.get? d = some n ∧ d ≠ [] ∧ d ≠ b ∧ placed a b d = c := by
      rw [get?_of_ne_nil hc, lookup_eq_some_iff (keys_transfer wf h), mem_nodes_transfer]
      constructor
      · rintro ⟨⟨d, m⟩, hd, hdb, heq⟩
        obtain ⟨rfl, rfl⟩ := Prod.mk.injEq .. ▸ heq
        have hne := wf.below _ hd
        exact ⟨d, (wf.get?_eq_some_iff hne).2 hd, hne, hdb, rfl⟩
      · rintro ⟨d, hd, hne, hdb, rfl⟩
        exact ⟨(d, n), (wf.get?_eq_some_iff hne).1 hd, hdb, rfl⟩
    refine Option.ext fun n => ?_
    rw [hmem]
    by_cases hbc : b <+: c
    · obtain ⟨x, rfl⟩ := hbc
      rw [if_pos (prefix_append b x), drop_left]
      constructor
      · rintro ⟨d, hd, hne, hdb, heq⟩
        by_cases had : a <+: d
        · obtain ⟨y, rfl⟩ := had
          rw [placed_append, append_cancel_left_eq] at heq
          rwa [← heq]
        · rw [placed_of_apart had] at heq
          exact absurd (h.eq_of_prefix (by rw [hd]; rfl) ⟨x, heq.symm⟩) hdb
      · intro hd
        refine ⟨a ++ x, hd, by simp [h.source_ne_nil], fun heq => ?_, placed_append x⟩
        exact h.apart ⟨x, heq⟩
    · rw [if_neg hbc]
      constructor
      · rintro ⟨d, hd, hne, hdb, rfl⟩
        by_cases had : a <+: d
        · obtain ⟨y, rfl⟩ := had
          rw [placed_append] at hbc
          exact absurd (prefix_append b y) hbc
        · rw [placed_of_apart had, if_neg had, hd]
      · intro hn
        by_cases hac : a <+: c
        · rw [if_pos hac] at hn
          cases hn
        · rw [if_neg hac] at hn
          refine ⟨c, hn, hc, fun heq => ?_, placed_of_apart hac⟩
          exact hbc (heq ▸ prefix_rfl)

theorem get?_transfer_target (x : Address) : (t.transfer a b).get? (b ++ x) = t.get? (a ++ x) := by
  rw [get?_transfer wf h, if_pos (prefix_append b x), drop_left]

theorem get?_transfer_source (x : Address) : (t.transfer a b).get? (a ++ x) = none := by
  have hb : ¬ b <+: a ++ x := fun hb =>
    (List.prefix_or_prefix_of_prefix hb (prefix_append a x)).elim h.not_prefix h.apart
  rw [get?_transfer wf h, if_neg hb, if_pos (prefix_append a x)]

theorem get?_transfer_at_target : (t.transfer a b).get? b = t.get? a := by
  simpa using get?_transfer_target wf h []

theorem get?_transfer_at_source : (t.transfer a b).get? a = none := by
  simpa using get?_transfer_source wf h []

theorem get?_transfer_rest (ha : ¬ a <+: c) (hb : ¬ b <+: c) : (t.transfer a b).get? c = t.get? c := by
  rw [get?_transfer wf h, if_neg hb, if_neg ha]

theorem WellFormed.transfer : (t.transfer a b).WellFormed where
  keys := keys_transfer wf h
  below := by
    intro x hx
    obtain ⟨y, hy, hyb, rfl⟩ := mem_nodes_transfer.1 hx
    by_cases hay : a <+: y.1
    · obtain ⟨z, hz⟩ := hay
      simp only [← hz, placed_append]
      simp [h.target_ne_nil]
    · simp only [placed_of_apart hay]
      exact wf.below y hy
  names := by
    intro x hx
    obtain ⟨y, hy, hyb, rfl⟩ := mem_nodes_transfer.1 hx
    have hnames := wf.names y hy
    by_cases hay : a <+: y.1
    · obtain ⟨z, hz⟩ := hay
      rw [← hz] at hnames
      simp only [← hz, placed_append]
      intro name hname
      rcases mem_append.1 hname with hb | hz
      · exact h.names name hb
      · exact hnames name (mem_append_right a hz)
    · simp only [placed_of_apart hay]
      exact hnames
  parents := by
    intro x hx
    obtain ⟨y, hy, hyb, rfl⟩ := mem_nodes_transfer.1 hx
    have hp := wf.parents y hy
    by_cases hay : a <+: y.1
    · obtain ⟨z, hz⟩ := hay
      rw [← hz] at hp
      simp only [← hz, placed_append]
      by_cases hnil : z = []
      · rw [hnil, append_nil, get?_transfer_rest wf h, h.parent]
        · exact fun hab => h.apart (hab.trans (List.dropLast_prefix b))
        · exact fun hbb => dropLast_ne h.target_ne_nil (hbb.eq_of_length_le (by simp)).symm
      · rw [dropLast_append_of_ne_nil hnil] at hp ⊢
        rw [get?_transfer_target wf h, hp]
    · simp only [placed_of_apart hay]
      rw [get?_transfer_rest wf h, hp]
      · exact fun hab => hay (hab.trans (List.dropLast_prefix _))
      · exact fun hbb => hyb (h.eq_of_prefix (wf.isSome_of_mem hy) (hbb.trans (List.dropLast_prefix _)))

end

/-! ## Regions -/

/-- Two trees are the same outside a region: in what is there, and in what is locked. -/
structure SameBut (region : Address → Prop) (t u : FileTree) : Prop where
  get? : ∀ c, ¬ region c → u.get? c = t.get? c
  locks : ∀ c, ¬ region c → u.locks.count c = t.locks.count c

namespace SameBut

variable {region region' : Address → Prop} {u v : FileTree}

theorem refl (region : Address → Prop) (t : FileTree) : SameBut region t t :=
  ⟨fun _ _ => rfl, fun _ _ => rfl⟩

theorem trans (h : SameBut region t u) (h' : SameBut region u v) : SameBut region t v :=
  ⟨fun c hc => (h'.get? c hc).trans (h.get? c hc), fun c hc => (h'.locks c hc).trans (h.locks c hc)⟩

theorem get?_or (h : SameBut region t u) (c : Address) : u.get? c = t.get? c ∨ region c :=
  or_iff_not_imp_right.2 (h.get? c)

theorem mono (h : SameBut region t u) (hsub : ∀ c, region c → region' c) : SameBut region' t u :=
  ⟨fun c hc => h.get? c (mt (hsub c) hc), fun c hc => h.locks c (mt (hsub c) hc)⟩

theorem put (ha : a ≠ []) : SameBut (· = a) t (t.put a n) :=
  ⟨fun c hc => by rw [get?_put ha, if_neg hc], fun _ _ => rfl⟩

theorem erase (ha : a ≠ []) : SameBut (a <+: ·) t (t.erase a) := by
  refine ⟨fun c hc => by rw [get?_erase ha, if_neg hc], fun c hc => ?_⟩
  exact count_filter (not_isPrefixOf_iff.2 hc)

theorem transfer (wf : t.WellFormed) (h : Movable t a b) : SameBut (fun c => a <+: c ∨ b <+: c) t (t.transfer a b) := by
  refine ⟨fun c hc => ?_, fun c hc => ?_⟩
  · exact get?_transfer_rest wf h (fun ha => hc (.inl ha)) (fun hb => hc (.inr hb))
  · have hplace (d : Address) : placed a b d = c ↔ d = c := by
      by_cases had : a <+: d
      · obtain ⟨x, rfl⟩ := had
        rw [placed_append]
        constructor
        · rintro rfl
          exact absurd (.inr (prefix_append b x)) hc
        · rintro rfl
          exact absurd (.inl (prefix_append a x)) hc
      · rw [placed_of_apart had]
    have hcb : (c != b) = true := bne_iff_ne.2 fun hcb => hc (.inr (hcb ▸ prefix_rfl))
    calc (t.transfer a b).locks.count c = ((t.locks.filter (· != b)).map (placed a b)).count c := rfl
      _ = (t.locks.filter (· != b)).count c := by
          rw [count_eq_countP, countP_map, count_eq_countP]
          refine countP_congr fun d _ => ?_
          simp [hplace]
      _ = t.locks.count c := count_filter hcb

end SameBut

end FileTree

end Deadwood
