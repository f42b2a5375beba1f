import Deadwood.Proofs.Linking

/-!
# Qualified names

A qualified name is a package and an exported name with a separator between them. An import may name a member or an
inner type, so its name is cut at its separators from the end until what is left is declared.

* **`qualified_longest`**: the search ends, finds the longest declared head, and fails only if none is declared.
-/

namespace Deadwood

open Text

variable {space : Space} {head name parent last : String} {i : Import}

namespace Resolve

/-! ## Heads of names -/

/-- A head of a name ends where the name does, or before one of its separators. -/
def IsHead (sep head name : String) : Prop := head = name ∨ ∃ rest, name = head ++ sep ++ rest

/-- The longest head of a name with a property. -/
structure IsLongestHead (sep : String) (P : String → Prop) (name head : String) : Prop where
  isHead : IsHead sep head name
  holds : P head
  longest : ∀ other, IsHead sep other name → P other → other ≠ head → other.length < head.length

theorem Space.exists_separator (space : Space) : ∃ c, space.separator = String.singleton c := by
  cases space
  case php => exact ⟨'\\', rfl⟩
  all_goals exact ⟨'.', rfl⟩

section Heads

theorem splitLast?_separator_eq_none :
    splitLast? name space.separator = none ↔ ∀ before after, name ≠ before ++ space.separator ++ after := by
  obtain ⟨c, hc⟩ := space.exists_separator
  rw [hc, splitLast?_eq_none]
  constructor
  · rintro hno before after rfl
    simp at hno
  · intro hno hmem
    obtain ⟨before, after, hname⟩ := List.append_of_mem hmem
    refine hno (String.ofList before) (String.ofList after) ?_
    rw [← String.toList_inj, hname]
    simp

theorem eq_of_splitLast?_separator (h : splitLast? name space.separator = some (parent, last)) :
    name = parent ++ space.separator ++ last ∧ ∀ before after, last ≠ before ++ space.separator ++ after := by
  obtain ⟨c, hc⟩ := space.exists_separator
  rw [hc] at h ⊢
  obtain ⟨hname, hlast⟩ := splitLast?_eq_some.1 h
  refine ⟨hname, ?_⟩
  rintro before after rfl
  simp at hlast

theorem contains_separator_iff :
    contains name space.separator = true ↔ ∃ before after, name = before ++ space.separator ++ after := by
  obtain ⟨c, hc⟩ := space.exists_separator
  have hnone : splitLast? name space.separator = none ↔ c ∉ name.toList := by rw [hc, splitLast?_eq_none]
  have hcontains : contains name space.separator = true ↔ c ∈ name.toList := by
    rw [hc, contains_singleton_iff]
  rw [hcontains, ← not_iff_not, ← hnone, splitLast?_separator_eq_none]
  simp only [not_exists, ne_eq]

theorem length_lt_of_separator (before after : String) :
    before.length < (before ++ space.separator ++ after).length := by
  obtain ⟨c, hc⟩ := space.exists_separator
  rw [hc, String.length_append, String.length_append, String.length_singleton]
  omega

theorem IsHead.eq_or_length_lt (h : IsHead space.separator head name) : head = name ∨ head.length < name.length := by
  refine h.imp_right ?_
  rintro ⟨rest, rfl⟩
  exact length_lt_of_separator head rest

/-- **The heads of a name are the name itself and the heads of what stands before its last separator.** -/
theorem isHead_iff (h : splitLast? name space.separator = some (parent, last)) :
    IsHead space.separator head name ↔ head = name ∨ IsHead space.separator head parent := by
  obtain ⟨c, hc⟩ := space.exists_separator
  rw [hc] at h ⊢
  obtain ⟨rfl, -⟩ := splitLast?_eq_some.1 h
  constructor
  · rintro (hname | ⟨rest, hname⟩)
    · exact .inl hname
    · right
      rw [hname] at h
      -- the last separator is the one behind the head, or it stands in what follows
      cases hrest : splitLast? rest (String.singleton c) with
      | none =>
        have hcut : splitLast? (head ++ String.singleton c ++ rest) (String.singleton c) = some (head, rest) :=
          splitLast?_eq_some.2 ⟨rfl, splitLast?_eq_none.1 hrest⟩
        rw [hcut] at h
        cases h
        exact .inl rfl
      | some parts =>
        obtain ⟨before, after⟩ := parts
        obtain ⟨rfl, hno⟩ := splitLast?_eq_some.1 hrest
        have hcut : splitLast? (head ++ String.singleton c ++ (before ++ String.singleton c ++ after))
            (String.singleton c) = some (head ++ String.singleton c ++ before, after) :=
          splitLast?_eq_some.2 ⟨by simp only [String.append_assoc], hno⟩
        rw [hcut] at h
        cases h
        exact .inr ⟨_, rfl⟩
  · rintro (hname | rfl | ⟨rest, rfl⟩)
    · exact .inl hname
    · exact .inr ⟨last, rfl⟩
    · exact .inr ⟨rest ++ String.singleton c ++ last, by simp only [String.append_assoc]⟩

theorem IsHead.exists_parent (h : IsHead space.separator head name) (hne : head ≠ name) :
    ∃ parent last, splitLast? name space.separator = some (parent, last) ∧
      IsHead space.separator head parent ∧ parent.length < name.length := by
  obtain ⟨rest, hname⟩ := h.resolve_left hne
  cases hsplit : splitLast? name space.separator with
  | none => exact absurd hname (splitLast?_separator_eq_none.1 hsplit head rest)
  | some parts =>
    obtain ⟨parent, last⟩ := parts
    refine ⟨parent, last, rfl, ((isHead_iff hsplit).1 h).resolve_left hne, ?_⟩
    rw [(eq_of_splitLast?_separator hsplit).1]
    exact length_lt_of_separator parent last

end Heads

/-! ## The search -/

section Search

variable {c : Catalog} {fuel : Nat}

abbrev Declared (c : Catalog) (space : Space) (name : String) : Prop := exporters c space name ≠ []

theorem exists_separator_of_exporters (h : Declared c space name) :
    ∃ before after, name = before ++ space.separator ++ after := by
  obtain ⟨t, ht⟩ := List.exists_mem_of_ne_nil _ h
  obtain ⟨e, -, ⟨-, package, -, x, -, hname⟩, -⟩ := mem_exporters.1 ht
  exact ⟨package, x.name, hname.symm⟩

theorem qualifiedLinks_of_declared (h : Declared c space name) : qualifiedLinks c space i (fuel + 1) name =
    some ((exporters c space name).map fun t => ⟨t, i.names.merge (.single (lastPart space.separator name))⟩) := by
  rw [qualifiedLinks_succ]
  cases hsplit : splitLast? name space.separator with
  | none =>
    obtain ⟨before, after, hname⟩ := exists_separator_of_exporters h
    exact absurd hname (splitLast?_separator_eq_none.1 hsplit before after)
  | some parts => simp [lastPart, hsplit, h]

theorem qualifiedLinks_of_undeclared (h : exporters c space name = [])
    (hsplit : splitLast? name space.separator = some (parent, last)) :
    qualifiedLinks c space i (fuel + 1) name =
      if contains parent space.separator then qualifiedLinks c space i fuel parent else none := by
  rw [qualifiedLinks_succ, hsplit, Option.bind_some, h]
  rfl

theorem qualifiedLinks_eq_none (h : ∀ head, IsHead space.separator head name → exporters c space head = []) :
    qualifiedLinks c space i fuel name = none := by
  induction fuel generalizing name with
  | zero => rfl
  | succ fuel ih =>
    cases hsplit : splitLast? name space.separator with
    | none => rw [qualifiedLinks_succ, hsplit, Option.bind_none]
    | some parts =>
      rw [qualifiedLinks_of_undeclared (h name (.inl rfl)) hsplit]
      have hparent := ih fun head hhead => h head ((isHead_iff hsplit).2 (.inr hhead))
      rw [hparent, ite_self]

/-- **The search stops at the longest head that is declared**, if it has more fuel than the name is long. -/
theorem qualifiedLinks_of_isLongestHead (hfuel : name.length < fuel)
    (h : IsLongestHead space.separator (Declared c space) name head) :
    qualifiedLinks c space i fuel name = some ((exporters c space head).map fun t =>
      ⟨t, i.names.merge (.single (lastPart space.separator head))⟩) := by
  induction fuel generalizing name with
  | zero => omega
  | succ fuel ih =>
    by_cases hname : head = name
    · subst hname
      exact qualifiedLinks_of_declared h.holds
    · have hundeclared : exporters c space name = [] := by
        by_contra hdeclared
        have hlt := h.longest name (.inl rfl) hdeclared (Ne.symm hname)
        have hgt := h.isHead.eq_or_length_lt.resolve_left hname
        omega
      obtain ⟨parent, last, hsplit, hhead, hshort⟩ := h.isHead.exists_parent hname
      -- the search is not given up here, for the separator of the head stands in the parent
      have hgoes : contains parent space.separator = true := by
        obtain ⟨before, after, rfl⟩ := exists_separator_of_exporters h.holds
        rw [contains_separator_iff]
        rcases hhead with rfl | ⟨rest, rfl⟩
        · exact ⟨before, after, rfl⟩
        · exact ⟨before, after ++ space.separator ++ rest, by simp only [String.append_assoc]⟩
      rw [qualifiedLinks_of_undeclared hundeclared hsplit, if_pos hgoes]
      refine ih (by omega) ⟨hhead, h.holds, fun other hother => ?_⟩
      exact h.longest other ((isHead_iff hsplit).2 (.inr hother))

theorem exists_isLongestHead (hhead : IsHead space.separator head name) (hdeclared : Declared c space head) :
    ∃ longest, IsLongestHead space.separator (Declared c space) name longest := by
  generalize hlength : name.length = length
  induction length using Nat.strongRecOn generalizing name with
  | ind length ih =>
    by_cases hname : exporters c space name = []
    · have hne : head ≠ name := by
        rintro rfl
        exact hdeclared hname
      obtain ⟨parent, last, hsplit, hparent, hshort⟩ := hhead.exists_parent hne
      obtain ⟨longest, hlongest⟩ := ih parent.length (by omega) hparent rfl
      refine ⟨longest, (isHead_iff hsplit).2 (.inr hlongest.isHead), hlongest.holds, fun other hother hd => ?_⟩
      rcases (isHead_iff hsplit).1 hother with rfl | hother
      · exact absurd hname hd
      · exact hlongest.longest other hother hd
    · exact ⟨name, .inl rfl, hname, fun other hother _ hne => hother.eq_or_length_lt.resolve_left hne⟩

end Search

/-- The unit at a position, which is one of the space, declares the qualified name: its package and the name of one of
its exports, with the separator between them. -/
def DeclaredAt (units : List SourceUnit) (space : Space) (name : String) (k : Nat) : Prop :=
  ∃ u, units[k]? = some u ∧ Space.of? u.language = some space ∧ ∃ package, u.summary.package = some package ∧
    ∃ x ∈ u.summary.exports, name = package ++ space.separator ++ x.name

theorem mem_exporters_ofUnits {units : List SourceUnit} {space : Space} {name : String} {k : Nat} :
    k ∈ exporters (.ofUnits units) space name ↔ DeclaredAt units space name k := by
  rw [mem_exporters]
  constructor
  · rintro ⟨e, he, ⟨hspace, package, hpackage, x, hx, hname⟩, rfl⟩
    exact ⟨e.unit, (mem_ofUnits.1 he).1, hspace, package, hpackage, x, hx, hname.symm⟩
  · rintro ⟨u, hu, hspace, package, hpackage, x, hx, hname⟩
    exact ⟨⟨k, u.relText, u⟩, mem_ofUnits.2 ⟨hu, rfl⟩, ⟨hspace, package, hpackage, x, hx, hname.symm⟩, rfl⟩

theorem declared_ofUnits (units : List SourceUnit) (space : Space) :
    Declared (.ofUnits units) space = fun name => ∃ k, DeclaredAt units space name k := by
  funext name
  rw [Declared, ne_eq, List.eq_nil_iff_forall_not_mem, not_forall_not]
  simp only [mem_exporters_ofUnits]

/-- What becomes of the search for a qualified name. -/
structure FindsLongest (units : List SourceUnit) (space : Space) (i : Import) (name : String)
    (result : Option (List Link)) : Prop where
  /-- If heads of the name are declared, one of them is the longest. The links are those to the units that declare it,
  and each carries the names of the import and the last part of the head. -/
  found : (∃ head, IsHead space.separator head name ∧ ∃ k, DeclaredAt units space head k) →
    ∃ head before last links, IsLongestHead space.separator (fun head => ∃ k, DeclaredAt units space head k) name head ∧
      (head = before ++ space.separator ++ last ∧ ∀ a b, last ≠ a ++ space.separator ++ b) ∧ result = some links ∧
      (∀ k, (∃ l ∈ links, l.target = k) ↔ DeclaredAt units space head k) ∧
      ∀ l ∈ links, ∀ name, l.names.contains name = true ↔ i.names.contains name = true ∨ name = last
  absent : result = none ↔ ∀ head, IsHead space.separator head name → ¬ ∃ k, DeclaredAt units space head k

section Results

variable {units : List SourceUnit}

theorem findsLongest_of_isLongestHead (h : IsLongestHead space.separator (Declared (.ofUnits units) space) name head) :
    FindsLongest units space i name (some ((exporters (.ofUnits units) space head).map fun t =>
      ⟨t, i.names.merge (.single (lastPart space.separator head))⟩)) := by
  obtain ⟨x, y, hname⟩ := exists_separator_of_exporters h.holds
  rw [declared_ofUnits] at h
  refine ⟨fun _ => ?_, nofun, fun hnone => absurd h.holds (hnone head h.isHead)⟩
  cases hsplit : splitLast? head space.separator with
  | none => exact absurd hname (splitLast?_separator_eq_none.1 hsplit x y)
  | some parts =>
    obtain ⟨before, last⟩ := parts
    refine ⟨head, before, last, _, h, eq_of_splitLast?_separator hsplit, rfl, ?_, ?_⟩
    · intro k
      simp [← mem_exporters_ofUnits]
    · intro l hl asked
      obtain ⟨t, -, rfl⟩ := List.mem_map.1 hl
      rw [lastPart, hsplit]
      exact ImportedNames.contains_merge_single _ _ _

theorem findsLongest_none (h : ∀ head, IsHead space.separator head name → ¬ Declared (.ofUnits units) space head) :
    FindsLongest units space i name none := by
  rw [declared_ofUnits] at h
  exact ⟨fun ⟨head, hhead, hk⟩ => absurd hk (h head hhead), fun _ => h, fun _ => rfl⟩

end Results

end Resolve

/-- **A qualified name is resolved to the longest of its heads that is declared.** The search ends by itself: more fuel
does not change what it finds. -/
theorem qualified_longest (units : List SourceUnit) (space : Resolve.Space) (i : Import) (name : String) (extra : Nat) :
    Resolve.FindsLongest units space i name
        (Resolve.qualifiedLinks (.ofUnits units) space i (name.length + 1 + extra) name) ∧
      Resolve.qualifiedLinks (.ofUnits units) space i (name.length + 1 + extra) name =
        Resolve.qualifiedLinks (.ofUnits units) space i (name.length + 1) name := by
  by_cases h : ∃ head, Resolve.IsHead space.separator head name ∧ Resolve.Declared (.ofUnits units) space head
  · obtain ⟨_, hisHead, hdeclared⟩ := h
    obtain ⟨head, hhead⟩ := Resolve.exists_isLongestHead hisHead hdeclared
    rw [Resolve.qualifiedLinks_of_isLongestHead (by omega) hhead,
      Resolve.qualifiedLinks_of_isLongestHead (by omega) hhead]
    exact ⟨Resolve.findsLongest_of_isLongestHead hhead, rfl⟩
  · have hno (head : String) (hhead : Resolve.IsHead space.separator head name) :
        ¬ Resolve.Declared (.ofUnits units) space head := fun hdeclared => h ⟨head, hhead, hdeclared⟩
    have hempty (head : String) (hhead : Resolve.IsHead space.separator head name) := not_not.1 (hno head hhead)
    rw [Resolve.qualifiedLinks_eq_none hempty, Resolve.qualifiedLinks_eq_none hempty]
    exact ⟨Resolve.findsLongest_none hno, rfl⟩

end Deadwood
