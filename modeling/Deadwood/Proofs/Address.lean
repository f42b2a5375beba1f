import Deadwood.Proofs.Tree

/-!
# Paths and addresses

An absolute path whose components are names leads to the address that these names are.
-/

namespace Deadwood

open List

namespace Path

variable {name : String}

/-- A relative path has the given names. -/
structure IsRelative (p : Path) (names : List String) : Prop where
  relative : p.isAbsolute = false
  named : p.named = names.map .normal

/-- An absolute path leads to an address. -/
structure LeadsTo (p : Path) (a : Address) : Prop where
  absolute : p.isAbsolute = true
  named : p.named = a.map .normal

variable {p q : Path} {a b : Address} {names : List String}

theorem isName_of_mem_named (h : .normal name ∈ p.named) : IsName name := by
  obtain ⟨piece, hpiece, hname⟩ := mem_filterMap.1 h
  obtain ⟨cs, hcs, rfl⟩ := mem_map.1 hpiece
  obtain ⟨rfl, h₁, h₂, h₃⟩ := component?_eq_some_normal.1 hname
  refine ⟨h₁, h₂, h₃, fun hslash => ?_⟩
  rw [String.toList_ofList] at hslash
  simpa using Text.not_mem_of_mem_splitList hcs _ hslash

theorem isRelative_of_isName (h : IsName name) : IsRelative ⟨name⟩ [name] where
  relative := by
    rw [← Bool.not_eq_true, isAbsolute_iff]
    exact fun hhead => h.2.2.2 (mem_of_head? hhead)
  named := by
    rw [named, namedIn_piece h.2.2.2, String.ofList_toList, component?_eq_some_normal.2 ⟨rfl, h.1, h.2.1, h.2.2.1⟩]
    rfl

theorem IsRelative.join (hp : IsRelative p names) {names' : List String} (hq : IsRelative q names') :
    IsRelative (p.join q) (names ++ names') where
  relative := isAbsolute_join_eq_false hp.relative hq.relative
  named := by rw [named_join hq.relative, hp.named, hq.named, map_append]

theorem afterComponents?_isSome_iff {head cs : List Component} :
    (afterComponents? head cs).isSome = true ↔ head <+: cs := by
  induction head generalizing cs with
  | nil => simp [afterComponents?]
  | cons h hs ih =>
    cases cs with
    | nil => simp [afterComponents?]
    | cons c cs =>
      rw [afterComponents?, cons_prefix_cons]
      split
      · rename_i heq
        rw [ih, and_iff_right heq]
      · rename_i hne
        simp [hne]

namespace LeadsTo

theorem components (h : LeadsTo p a) : p.components = .root :: a.map .normal := by
  rw [components_of_isAbsolute h.absolute, h.named]

theorem of_components (h : p.components = .root :: a.map .normal) : LeadsTo p a := by
  have habs : p.isAbsolute = true := by
    by_contra habs
    have hnamed : Component.root ∉ p.named := fun hm => by
      rcases mem_namedIn hm with h | ⟨_, h⟩ <;> cases h
    rw [components_eq, start, if_neg habs] at h
    split at h
    · cases h
    · rw [nil_append] at h
      exact hnamed (h ▸ mem_cons_self)
  refine ⟨habs, ?_⟩
  rw [components_of_isAbsolute habs] at h
  exact tail_eq_of_cons_eq h

theorem isName (h : LeadsTo p a) : ∀ name ∈ a, IsName name := fun _ hname =>
  isName_of_mem_named (p := p) (h.named ▸ mem_map_of_mem hname)

theorem text_ne (h : LeadsTo p a) : p.text ≠ "" := fun hnil => by
  have := h.absolute
  rw [isAbsolute_iff, hnil] at this
  cases this

theorem join (hp : LeadsTo p a) (hq : IsRelative q names) : LeadsTo (p.join q) (a ++ names) where
  absolute := isAbsolute_join hp.absolute
  named := by rw [named_join hq.relative, hp.named, hq.named, map_append]

theorem join_name (hp : LeadsTo p a) {name : String} (h : IsName name) : LeadsTo (p.join ⟨name⟩) (a ++ [name]) :=
  hp.join (isRelative_of_isName h)

theorem parent (h : LeadsTo p a) (ha : a ≠ []) : ∃ q, p.parent? = some q ∧ LeadsTo q a.dropLast := by
  have hsplit : p.components = (.root :: a.dropLast.map .normal) ++ [.normal (a.getLast ha)] := by
    rw [h.components, cons_append, ← map_singleton, ← map_append, dropLast_append_getLast]
  obtain ⟨q, hq, hcs⟩ := exists_parent? hsplit (by simp)
  exact ⟨q, hq, of_components hcs⟩

theorem parent_below {m : List String} (h : LeadsTo p (a ++ m)) (hm : m ≠ []) :
    ∃ q, p.parent? = some q ∧ LeadsTo q (a ++ m.dropLast) := by
  rw [← dropLast_append_of_ne_nil hm]
  exact h.parent (by simp [hm])

theorem beq_iff (hp : LeadsTo p a) (hq : LeadsTo q b) : (p == q) = true ↔ a = b := by
  show (p.components == q.components) = true ↔ _
  rw [beq_iff_eq, hp.components, hq.components, List.cons.injEq, List.map_inj_right fun _ _ h => Component.normal.inj h]
  simp

theorem startsWith_iff (hp : LeadsTo p a) (hq : LeadsTo q b) : p.startsWith q = true ↔ b <+: a := by
  rw [startsWith, afterComponents?_isSome_iff, hp.components, hq.components, cons_prefix_cons,
    prefix_map_iff_of_injective fun _ _ h => Component.normal.inj h]
  simp

end LeadsTo

theorem isRelative_join_names (hne : names ≠ []) (h : ∀ name ∈ names, IsName name) :
    IsRelative ⟨Text.join "/" names⟩ names := by
  induction names with
  | nil => exact absurd rfl hne
  | cons name names ih =>
    obtain ⟨hname, hnames⟩ := forall_mem_cons.1 h
    by_cases hnil : names = []
    · rw [hnil]
      exact isRelative_of_isName hname
    · have ih := ih hnil hnames
      have hlist : (Text.join "/" (name :: names)).toList = name.toList ++ '/' :: (Text.join "/" names).toList := by
        rw [Text.join_cons hnil]
        simp
      have hfirst := isRelative_of_isName hname
      constructor
      · obtain ⟨c, cs, hc⟩ := exists_cons_of_ne_nil (mt String.toList_eq_nil_iff.1 hname.1)
        have hrel := hfirst.relative
        rw [← Bool.not_eq_true, isAbsolute_iff] at hrel ⊢
        rw [hlist, hc]
        rw [hc] at hrel
        exact hrel
      · have := hfirst.named
        rw [named] at this ⊢
        rw [hlist, namedIn_append, this]
        exact congrArg _ ih.named

theorem leadsTo_pathOf (h : ∀ name ∈ a, IsName name) : LeadsTo (FileTree.pathOf a) a := by
  have hlist : (FileTree.pathOf a).text.toList = '/' :: (Text.join "/" a).toList := by
    rw [FileTree.pathOf, String.toList_append]
    rfl
  refine ⟨isAbsolute_iff.2 (by rw [hlist]; rfl), ?_⟩
  rw [named, hlist]
  refine (namedIn_append [] _).trans ?_
  by_cases ha : a = []
  · rw [ha]
    rfl
  · exact (isRelative_join_names ha h).named

end Path

namespace FileTree

open Deadwood.Path

variable {t : FileTree} {p q : Path} {a b x : Address} {n : Node} {e : FileError} {name : String}

/-! ## Paths that can only lead to directories -/

theorem wantsDirectory_of_toList {before cs : List Char} (h : p.text.toList = before ++ '/' :: cs) :
    wantsDirectory p = wantsDirectory ⟨String.ofList ('/' :: cs)⟩ := by
  have hone : ['/'] <:+ before ++ '/' :: cs ↔ ['/'] <:+ '/' :: cs := by
    refine ⟨fun hs => ?_, fun hs => hs.trans (suffix_append _ _)⟩
    exact suffix_of_suffix_length_le hs (suffix_append _ _) (by simp)
  have htwo : ['/', '.'] <:+ before ++ '/' :: cs ↔ ['/', '.'] <:+ '/' :: cs := by
    refine ⟨fun hs => ?_, fun hs => hs.trans (suffix_append _ _)⟩
    cases cs with
    | nil =>
      obtain ⟨front, hfront⟩ := hs
      have := congrArg List.getLast? hfront
      simp at this
    | cons c cs => exact suffix_of_suffix_length_le hs (suffix_append _ _) (by simp)
  rw [Bool.eq_iff_iff]
  simp only [wantsDirectory, Text.endsWith, h, String.toList_ofList, Bool.or_eq_true, isSuffixOf_iff_suffix]
  exact or_congr hone htwo

theorem wantsDirectory_join (hp : p.text ≠ "") (hq : q.isAbsolute = false) :
    wantsDirectory (p.join q) = wantsDirectory ⟨String.ofList ('/' :: q.text.toList)⟩ := by
  rcases toList_join (p := p) hq with ⟨hnil, -⟩ | ⟨-, before, -, hjoin⟩
  · exact absurd hnil hp
  · exact wantsDirectory_of_toList hjoin

theorem wantsDirectory_name (h : IsName name) : wantsDirectory ⟨String.ofList ('/' :: name.toList)⟩ = false := by
  rw [← Bool.not_eq_true]
  simp only [wantsDirectory, Text.endsWith, String.toList_ofList, Bool.or_eq_true, isSuffixOf_iff_suffix]
  rw [suffix_cons_iff, suffix_cons_iff]
  rintro ((hnil | hs) | (hdot | hs))
  · have hnil : [] = name.toList := tail_eq_of_cons_eq hnil
    exact h.1 (String.toList_eq_nil_iff.1 hnil.symm)
  · exact h.2.2.2 (hs.subset mem_cons_self)
  · have hdot : ['.'] = name.toList := tail_eq_of_cons_eq hdot
    exact h.2.1 (String.toList_inj.1 hdot.symm)
  · exact h.2.2.2 (hs.subset mem_cons_self)

theorem wantsDirectory_join_name (hp : p.text ≠ "") (h : IsName name) : wantsDirectory (p.join ⟨name⟩) = false := by
  rw [wantsDirectory_join hp (isRelative_of_isName h).relative]
  exact wantsDirectory_name h

/-! ## Going to an address -/

/-- There is room for something at an address: it has names that files can have, and is in a
directory. -/
structure Room (t : FileTree) (a : Address) : Prop where
  ne_nil : a ≠ []
  names : ∀ name ∈ a, IsFileName name
  parent : t.get? a.dropLast = some .directory

theorem WellFormed.room (wf : t.WellFormed) (ha : a ≠ []) (h : t.get? a = some n) : t.Room a :=
  ⟨ha, wf.isFileName h, wf.parent ha h⟩

theorem Room.put (h : t.Room a) (wf : t.WellFormed) (hn : n = .directory ∨ t.get? a ≠ some .directory) :
    (t.put a n).WellFormed :=
  wf.put h.ne_nil h.names h.parent hn

theorem follow_eq_ok_iff : t.follow a (x.map .normal) = .ok b ↔
    b = a ++ x ∧ (∀ name ∈ x, name.utf8ByteSize ≤ maxNameLength) ∧
      ∀ y z, x = y ++ z → y ≠ [] → z ≠ [] → t.get? (a ++ y) = some .directory := by
  induction x generalizing a with
  | nil => simp [follow, eq_comm]
  | cons name x ih =>
    rw [map_cons, follow, forall_mem_cons]
    simp only [List.isEmpty_iff, map_eq_nil_iff]
    by_cases hlong : name.utf8ByteSize > maxNameLength
    · rw [if_pos hlong]
      refine ⟨nofun, fun h => ?_⟩
      have := h.2.1.1
      omega
    · rw [if_neg hlong]
      have hname : name.utf8ByteSize ≤ maxNameLength := Nat.le_of_not_lt hlong
      by_cases hx : x = []
      · subst hx
        rw [if_pos rfl, Except.ok.injEq]
        refine ⟨fun h => ⟨h.symm, ⟨hname, by simp⟩, fun y z hyz hy hz => ?_⟩, fun h => h.1.symm⟩
        rcases append_eq_singleton_iff.1 hyz.symm with ⟨h, -⟩ | ⟨-, h⟩
        · exact absurd h hy
        · exact absurd h hz
      · rw [if_neg hx]
        cases hnext : t.get? (a ++ [name]) with
        | none =>
          refine ⟨nofun, fun h => ?_⟩
          have := h.2.2 [name] x rfl (by simp) hx
          rw [hnext] at this
          cases this
        | some m =>
          cases m with
          | file contents =>
            refine ⟨nofun, fun h => ?_⟩
            have := h.2.2 [name] x rfl (by simp) hx
            rw [hnext] at this
            cases this
          | directory =>
            simp only
            rw [ih, append_assoc, singleton_append]
            refine and_congr_right fun _ => and_congr (by rw [and_iff_right hname]) ?_
            constructor
            · intro h y z hyz hy hz
              obtain ⟨name', y, rfl⟩ := exists_cons_of_ne_nil hy
              rw [cons_append, List.cons.injEq] at hyz
              obtain ⟨rfl, rfl⟩ := hyz
              by_cases hynil : y = []
              · rw [hynil, hnext]
              · have := h y z rfl hynil hz
                rwa [append_assoc, singleton_append] at this
            · rintro h y z rfl hy hz
              have := h (name :: y) z rfl (by simp) hz
              rwa [append_assoc, singleton_append]

/-- **A path leads where there is room**, or to the top. -/
theorem address_eq_ok_iff (wf : t.WellFormed) (hp : LeadsTo p a) :
    t.address p = .ok b ↔ b = a ∧ (a = [] ∨ t.Room a) := by
  rw [address, if_neg (by simpa using hp.text_ne), if_pos hp.absolute, hp.components]
  show t.follow [] (a.map .normal) = .ok b ↔ _
  rw [follow_eq_ok_iff, nil_append]
  refine and_congr_right fun _ => ⟨fun ⟨hshort, hdirs⟩ => ?_, fun h => ?_⟩
  · refine or_iff_not_imp_left.2 fun ha => ⟨ha, fun name hname => ⟨hp.isName name hname, hshort name hname⟩, ?_⟩
    by_cases hd : a.dropLast = []
    · rw [hd]
      rfl
    · exact hdirs a.dropLast [a.getLast ha] (dropLast_append_getLast ha).symm hd (by simp)
  · rcases h with rfl | h
    · simp
    · refine ⟨fun name hname => (h.names name hname).2, fun y z hyz hy hz => ?_⟩
      have hd : a.dropLast = y ++ z.dropLast := by rw [hyz, dropLast_append_of_ne_nil hz]
      by_cases hz' : z.dropLast = []
      · rw [hz', append_nil] at hd
        rw [nil_append, ← hd, h.parent]
      · exact wf.directory_above hz' (hd ▸ h.parent)

theorem follow_eq_error (hshort : ∀ name ∈ x, name.utf8ByteSize ≤ maxNameLength)
    (hfree : ∀ y z, x = y ++ z → z ≠ [] → t.get? (a ++ y) = none ∨ t.get? (a ++ y) = some .directory)
    (h : t.follow a (x.map .normal) = .error e) : e = .missing := by
  induction x generalizing a with
  | nil => cases h
  | cons name x ih =>
    obtain ⟨hname, hshort⟩ := forall_mem_cons.1 hshort
    rw [map_cons, follow] at h
    simp only [List.isEmpty_iff, map_eq_nil_iff, if_neg (Nat.not_lt.2 hname)] at h
    split at h
    · cases h
    · rename_i hx
      rcases hfree [name] x rfl hx with hnone | hdir
      · simp only [hnone, Except.error.injEq] at h
        exact h.symm
      · simp only [hdir] at h
        refine ih hshort (fun y z hyz hz => ?_) h
        rw [append_assoc, singleton_append]
        exact hfree (name :: y) z (by rw [hyz, cons_append]) hz

theorem address_eq_error (hp : LeadsTo p a) (hnames : ∀ name ∈ a, IsFileName name)
    (hfree : ∀ y z, a = y ++ z → z ≠ [] → t.get? y = none ∨ t.get? y = some .directory)
    (h : t.address p = .error e) : e = .missing := by
  rw [address, if_neg (by simpa using hp.text_ne), if_pos hp.absolute, hp.components] at h
  have h : t.follow [] (a.map .normal) = .error e := h
  exact follow_eq_error (fun name hname => (hnames name hname).2) hfree h

/-- If a path leads anywhere in a tree, it leads to the address, where there is room. -/
def Reaches (t : FileTree) (p : Path) (a : Address) : Prop := ∀ b, t.address p = .ok b → b = a ∧ (a = [] ∨ t.Room a)

theorem reaches_of_leadsTo (wf : t.WellFormed) (hp : LeadsTo p a) : t.Reaches p a :=
  fun _ => (address_eq_ok_iff wf hp).1

theorem wants_iff : (wantsDirectory p && !n.isDirectory) = true ↔ ¬ (wantsDirectory p = true → n = .directory) := by
  cases n <;> simp [Node.isDirectory]

theorem Reaches.find (hp : t.Reaches p a) (h : t.find p = .ok (b, n)) :
    b = a ∧ t.get? a = some n ∧ (wantsDirectory p = true → n = .directory) := by
  cases hb : t.address p with
  | error e => simp [FileTree.find, hb, bind, Except.bind] at h
  | ok c =>
    obtain ⟨rfl, -⟩ := hp c hb
    cases hn : t.get? c with
    | none => simp [FileTree.find, hb, bind, Except.bind, hn] at h
    | some m =>
      simp only [FileTree.find, hb, bind, Except.bind, hn] at h
      split at h
      · cases h
      · rename_i hwants
        cases h
        exact ⟨rfl, rfl, not_not.1 (mt wants_iff.2 hwants)⟩

theorem find_eq_ok_iff (wf : t.WellFormed) (hp : LeadsTo p a) : t.find p = .ok (b, n) ↔
    b = a ∧ t.get? a = some n ∧ (wantsDirectory p = true → n = .directory) := by
  refine ⟨(reaches_of_leadsTo wf hp).find, ?_⟩
  rintro ⟨rfl, hn, hwants⟩
  have hb : t.address p = .ok b := (address_eq_ok_iff wf hp).2 ⟨rfl, or_iff_not_imp_left.2 fun hne => wf.room hne hn⟩
  simp only [find, hb, bind, Except.bind, hn]
  rw [if_neg (mt wants_iff.1 (not_not_intro hwants))]

end FileTree

end Deadwood
