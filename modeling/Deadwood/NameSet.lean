/-!
# Sets of names

A set of names is kept as its ascending list, so that two sets are equal exactly if they hold the
same names, and every listing of a set is in order.
-/

namespace Deadwood

def insertName (name : String) : List String → List String
  | [] => [name]
  | n :: ns => if name < n then name :: n :: ns else if name = n then n :: ns else n :: insertName name ns

theorem mem_insertName {a name : String} {ns : List String} :
    a ∈ insertName name ns ↔ a = name ∨ a ∈ ns := by
  induction ns with
  | nil => simp [insertName]
  | cons n ns ih =>
    simp only [insertName]
    split
    · simp
    · split
      · rename_i h
        subst h
        simp
      · simp only [List.mem_cons, ih]
        exact ⟨fun h => h.elim (fun h => .inr (.inl h)) (fun h => h.elim .inl (.inr ∘ .inr)),
          fun h => h.elim (.inr ∘ .inl) (fun h => h.elim .inl (.inr ∘ .inr))⟩

theorem pairwise_insertName {name : String} {ns : List String} (h : ns.Pairwise (· < ·)) :
    (insertName name ns).Pairwise (· < ·) := by
  induction ns with
  | nil => simp [insertName]
  | cons n ns ih =>
    obtain ⟨hn, hns⟩ := List.pairwise_cons.1 h
    simp only [insertName]
    split
    · rename_i hlt
      refine List.pairwise_cons.2 ⟨fun a ha => ?_, h⟩
      rcases List.mem_cons.1 ha with rfl | ha
      · exact hlt
      · exact String.lt_trans hlt (hn a ha)
    · split
      · exact h
      · rename_i hlt hne
        refine List.pairwise_cons.2 ⟨fun a ha => ?_, ih hns⟩
        rcases mem_insertName.1 ha with rfl | ha
        · rcases String.le_total n a with hle | hle
          · exact Decidable.byContradiction fun hnot => hne (String.le_antisymm hnot hle)
          · exact absurd (String.le_antisymm hle hlt) hne
        · exact hn a ha

/-- A set of names, kept in order. -/
structure NameSet where
  toList : List String
  ascending : toList.Pairwise (· < ·)
deriving DecidableEq

namespace NameSet

def empty : NameSet := ⟨[], List.Pairwise.nil⟩

instance : Inhabited NameSet := ⟨empty⟩

instance : EmptyCollection NameSet := ⟨empty⟩

instance : Membership String NameSet := ⟨fun s a => a ∈ s.toList⟩

instance (a : String) (s : NameSet) : Decidable (a ∈ s) := inferInstanceAs (Decidable (a ∈ s.toList))

def insert (s : NameSet) (name : String) : NameSet :=
  ⟨insertName name s.toList, pairwise_insertName s.ascending⟩

@[simp]
theorem mem_insert {s : NameSet} {a name : String} : a ∈ s.insert name ↔ a = name ∨ a ∈ s :=
  mem_insertName

def contains (s : NameSet) (name : String) : Bool := s.toList.contains name

def isEmpty (s : NameSet) : Bool := s.toList.isEmpty

def size (s : NameSet) : Nat := s.toList.length

def ofList (names : List String) : NameSet := names.foldl insert empty

def union (s t : NameSet) : NameSet := t.toList.foldl insert s

end NameSet

end Deadwood
