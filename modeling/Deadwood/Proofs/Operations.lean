import Deadwood.Files.Task
import Deadwood.Proofs.Address

/-!
# Operations on well-formed trees

What each operation does to a well-formed tree when it is not refused, and when it cannot be refused.
-/

namespace Deadwood.FileTree

open Deadwood.Path

variable {t u : FileTree} {p q : Path} {a b : Address} {n : Node} {contents : Bytes}

theorem exists_find (wf : t.WellFormed) (hp : LeadsTo p a) (h : t.get? a = some n)
    (hwants : wantsDirectory p = true → n = .directory) : t.find p = .ok (a, n) :=
  (find_eq_ok_iff wf hp).2 ⟨rfl, h, hwants⟩

theorem eq_ok_of_toOption {ε α : Type} {x : Except ε α} {a : α} (h : x.toOption = some a) : x = .ok a := by
  cases x with
  | ok b => exact congrArg Except.ok (Option.some.inj h)
  | error e => cases h

theorem bind_eq_ok_iff {ε α β : Type} {x : Except ε α} {f : α → Except ε β} {r : β} :
    (x >>= f) = .ok r ↔ ∃ y, x = .ok y ∧ f y = .ok r := by
  cases x with
  | error e => exact ⟨nofun, nofun⟩
  | ok y => exact ⟨fun h => ⟨y, rfl, h⟩, fun ⟨_, hy, h⟩ => by cases hy; exact h⟩

/-! ## Reading -/

theorem read_eq_ok_iff (wf : t.WellFormed) (hp : LeadsTo p a) : t.read p = .ok contents ↔
    t.get? a = some (.file contents) ∧ wantsDirectory p = false := by
  rw [read, bind_eq_ok_iff]
  constructor
  · rintro ⟨⟨b, n⟩, hf, h⟩
    obtain ⟨rfl, hn, hwants⟩ := (find_eq_ok_iff wf hp).1 hf
    cases n with
    | directory => cases h
    | file c =>
      cases h
      exact ⟨hn, by simpa using hwants⟩
  · rintro ⟨hn, hwants⟩
    exact ⟨_, exists_find wf hp hn (by simp [hwants]), rfl⟩

/-! ## Writing -/

theorem Reaches.write (hp : t.Reaches p a) (h : t.write p contents = .ok u) :
    t.Room a ∧ t.get? a ≠ some .directory ∧ wantsDirectory p = false ∧ u = t.put a (.file contents) := by
  rw [FileTree.write, bind_eq_ok_iff] at h
  obtain ⟨b, hb, h⟩ := h
  obtain ⟨rfl, hroom⟩ := hp b hb
  have hne (hdir : t.get? b ≠ some .directory) : t.Room b := hroom.resolve_left fun hnil => hdir (hnil ▸ rfl)
  cases hget : t.get? b with
  | none =>
    simp only [hget] at h
    split at h
    · cases h
    · rename_i hwants
      cases h
      exact ⟨hne (by simp [hget]), by simp, by simpa using hwants, rfl⟩
  | some n =>
    cases n with
    | directory => simp [hget] at h
    | file c =>
      simp only [hget] at h
      split at h
      · cases h
      · rename_i hwants
        cases h
        exact ⟨hne (by simp [hget]), by simp, by simpa using hwants, rfl⟩

theorem write_eq_ok_iff (wf : t.WellFormed) (hp : LeadsTo p a) : t.write p contents = .ok u ↔
    t.Room a ∧ t.get? a ≠ some .directory ∧ wantsDirectory p = false ∧ u = t.put a (.file contents) := by
  refine ⟨(reaches_of_leadsTo wf hp).write, ?_⟩
  rintro ⟨hroom, hdir, hwants, rfl⟩
  rw [write, bind_eq_ok_iff]
  refine ⟨a, (address_eq_ok_iff wf hp).2 ⟨rfl, .inr hroom⟩, ?_⟩
  cases hget : t.get? a with
  | none => simp [hwants]
  | some n =>
    cases n with
    | directory => exact absurd hget hdir
    | file c => simp [hwants]

theorem Reaches.makeDirectory (hp : t.Reaches p a) (h : t.makeDirectory p = .ok u) :
    t.Room a ∧ t.get? a = none ∧ u = t.put a .directory := by
  rw [FileTree.makeDirectory, bind_eq_ok_iff] at h
  obtain ⟨b, hb, h⟩ := h
  obtain ⟨rfl, hroom⟩ := hp b hb
  split at h
  · cases h
  · rename_i hnone
    rw [Option.not_isSome_iff_eq_none] at hnone
    cases h
    refine ⟨hroom.resolve_left fun hnil => ?_, hnone, rfl⟩
    rw [hnil] at hnone
    cases hnone

theorem makeDirectory_eq_ok_iff (wf : t.WellFormed) (hp : LeadsTo p a) : t.makeDirectory p = .ok u ↔
    t.Room a ∧ t.get? a = none ∧ u = t.put a .directory := by
  refine ⟨(reaches_of_leadsTo wf hp).makeDirectory, ?_⟩
  rintro ⟨hroom, hnone, rfl⟩
  rw [makeDirectory, bind_eq_ok_iff]
  refine ⟨a, (address_eq_ok_iff wf hp).2 ⟨rfl, .inr hroom⟩, ?_⟩
  rw [hnone]
  rfl

theorem follow_ne_occupied (t : FileTree) (a : Address) (x : List Component) : t.follow a x ≠ .error .occupied := by
  fun_induction follow t a x <;> simp_all

theorem ne_none_of_makeDirectory_eq_occupied (wf : t.WellFormed) (hp : LeadsTo p a)
    (h : t.makeDirectory p = .error .occupied) : t.get? a ≠ none := by
  intro hnone
  cases hb : t.address p with
  | error e =>
    have hne : t.address p ≠ .error .occupied := by
      unfold address
      split
      · simp
      · exact follow_ne_occupied _ _ _
    rw [makeDirectory, hb] at h
    cases h
    exact hne hb
  | ok b =>
    obtain ⟨rfl, -⟩ := (address_eq_ok_iff wf hp).1 hb
    simp [makeDirectory, hb, bind, Except.bind, hnone] at h

/-! ## Moving -/

/-- Something at `a` may take the place of what is at `b`: a file that of a file, a directory that of
an empty directory. -/
def Replaces (t : FileTree) (a b : Address) : Prop :=
  ∀ n m, t.get? a = some n → t.get? b = some m → m.isDirectory = n.isDirectory

theorem Replaces.of_none (h : t.get? b = none) : t.Replaces a b := by
  intro n m _ hm
  rw [h] at hm
  cases hm

theorem Replaces.of_some {m : Node} (hn : t.get? a = some n) (hm : t.get? b = some m)
    (h : m.isDirectory = n.isDirectory) : t.Replaces a b := by
  intro n' m' hn' hm'
  rw [hn] at hn'
  rw [hm] at hm'
  cases hn'
  cases hm'
  exact h

theorem Replaces.of_files {contents' : Bytes} (ha : t.get? a = some (.file contents))
    (hb : t.get? b = some (.file contents')) : t.Replaces a b :=
  .of_some ha hb (by rw [Node.isDirectory, Node.isDirectory])

theorem Reaches.move (wf : t.WellFormed) (hp : t.Reaches p a) (hq : t.Reaches q b) (hab : a ≠ b)
    (h : t.move p q = .ok u) : t.Movable a b ∧ t.Replaces a b ∧
      (wantsDirectory p = true ∨ wantsDirectory q = true → t.get? a = some .directory) ∧ u = t.transfer a b := by
  rw [FileTree.move, bind_eq_ok_iff] at h
  obtain ⟨⟨a', n⟩, hf, h⟩ := h
  obtain ⟨rfl, hn, hwants⟩ := hp.find hf
  obtain ⟨b', hb, h⟩ := bind_eq_ok_iff.1 h
  obtain ⟨rfl, hroom⟩ := hq b' hb
  rw [if_neg (by simpa using hab)] at h
  split at h
  · cases h
  rename_i hapart
  rw [List.isPrefixOf_iff_prefix] at hapart
  have hmovable (hempty : ∀ x, x ≠ [] → t.get? (b' ++ x) = none) : t.Movable a' b' := by
    refine ⟨by rw [hn]; rfl, hapart, hempty, ?_, ?_⟩
    · rcases hroom with rfl | hroom
      · rfl
      · exact hroom.parent
    · rcases hroom with rfl | hroom
      · simp
      · exact hroom.names
  cases n with
  | file c =>
    have hwants : wantsDirectory p = false := by simpa using hwants
    cases hget : t.get? b' with
    | none =>
      simp only [hget] at h
      split at h
      · cases h
      · rename_i hq'
        cases h
        exact ⟨hmovable fun x _ => wf.get?_append_eq_none hget, .of_none hget, by simp [hwants, hq'], rfl⟩
    | some m =>
      cases m with
      | directory => simp [hget] at h
      | file d =>
        simp only [hget] at h
        split at h
        · cases h
        · rename_i hq'
          cases h
          exact ⟨hmovable fun x hx => wf.get?_below_file hx hget, .of_files hn hget, by simp [hwants, hq'], rfl⟩
  | directory =>
    cases hget : t.get? b' with
    | none =>
      simp only [hget] at h
      cases h
      exact ⟨hmovable fun x _ => wf.get?_append_eq_none hget, .of_none hget, fun _ => hn, rfl⟩
    | some m =>
      cases m with
      | file d => simp [hget] at h
      | directory =>
        simp only [hget] at h
        split at h
        · rename_i hempty
          cases h
          refine ⟨hmovable fun x hx => ?_, .of_some hn hget rfl, fun _ => hn, rfl⟩
          exact wf.get?_below_empty ((children_isEmpty_iff wf).1 hempty) hx
        · cases h

theorem Reaches.move_self (hp : t.Reaches p a) (hq : t.Reaches q a) (h : t.move p q = .ok u) :
    (t.get? a).isSome ∧ u = t := by
  rw [FileTree.move, bind_eq_ok_iff] at h
  obtain ⟨⟨a', n⟩, hf, h⟩ := h
  obtain ⟨rfl, hn, -⟩ := hp.find hf
  obtain ⟨b', hb, h⟩ := bind_eq_ok_iff.1 h
  obtain ⟨rfl, -⟩ := hq b' hb
  rw [if_pos (by simp)] at h
  cases h
  exact ⟨by rw [hn]; rfl, rfl⟩

theorem move_eq_ok_iff (wf : t.WellFormed) (hp : LeadsTo p a) (hq : LeadsTo q b) (hab : a ≠ b) :
    t.move p q = .ok u ↔ t.Movable a b ∧ t.Replaces a b ∧
      (wantsDirectory p = true ∨ wantsDirectory q = true → t.get? a = some .directory) ∧
      u = t.transfer a b := by
  refine ⟨(reaches_of_leadsTo wf hp).move wf (reaches_of_leadsTo wf hq) hab, ?_⟩
  rintro ⟨hmov, hrep, hwants, rfl⟩
  rw [move, bind_eq_ok_iff]
  obtain ⟨n, hn⟩ := Option.isSome_iff_exists.1 hmov.source
  refine ⟨(a, n), exists_find wf hp hn fun h => ?_, bind_eq_ok_iff.2 ⟨b, ?_, ?_⟩⟩
  · simpa [hn] using hwants (.inl h)
  · exact (address_eq_ok_iff wf hq).2 ⟨rfl, .inr ⟨hmov.target_ne_nil, hmov.names, hmov.parent⟩⟩
  · rw [if_neg (by simpa using hab), if_neg (by rw [List.isPrefixOf_iff_prefix]; exact hmov.apart)]
    have hempty : (t.children b).isEmpty = true := (children_isEmpty_iff wf).2 fun name =>
      hmov.room [name] (by simp)
    cases n with
    | file c =>
      have hq' : wantsDirectory q = false := by simpa [hn] using mt fun h => hwants (.inr h)
      cases hget : t.get? b with
      | none => simp [hq']
      | some m =>
        cases m with
        | directory => simpa [Node.isDirectory] using hrep _ _ hn hget
        | file d => simp [hq']
    | directory =>
      cases hget : t.get? b with
      | none => rfl
      | some m =>
        cases m with
        | file d => simpa [Node.isDirectory] using hrep _ _ hn hget
        | directory => simp [hempty]

/-! ## Copying -/

theorem Reaches.copy (hp : t.Reaches p a) (hq : t.Reaches q b) {size : Nat} (h : t.copy p q = .ok (size, u)) :
    ∃ contents, t.get? a = some (.file contents) ∧ wantsDirectory p = false ∧
      size = (if a = b then [] else contents).length ∧ t.write q (if a = b then [] else contents) = .ok u := by
  rw [FileTree.copy, bind_eq_ok_iff] at h
  obtain ⟨⟨a', n⟩, hf, h⟩ := h
  obtain ⟨rfl, hn, hwants⟩ := hp.find hf
  cases n with
  | directory => cases h
  | file contents =>
    obtain ⟨b', hb, h⟩ := bind_eq_ok_iff.1 h
    obtain ⟨rfl, -⟩ := hq b' hb
    simp only [beq_iff_eq] at h
    obtain ⟨u', hu, h⟩ := bind_eq_ok_iff.1 h
    cases h
    exact ⟨contents, hn, by simpa using hwants, rfl, hu⟩

theorem copy_eq_ok_iff (wf : t.WellFormed) (hp : LeadsTo p a) (hq : LeadsTo q b) (hab : a ≠ b) {size : Nat} :
    t.copy p q = .ok (size, u) ↔ ∃ contents, t.get? a = some (.file contents) ∧ wantsDirectory p = false ∧
      size = contents.length ∧ t.write q contents = .ok u := by
  constructor
  · intro h
    have hcopy := (reaches_of_leadsTo wf hp).copy (reaches_of_leadsTo wf hq) h
    simpa only [if_neg hab] using hcopy
  · rintro ⟨contents, hn, hwants, rfl, hu⟩
    obtain ⟨hroom, -⟩ := (write_eq_ok_iff wf hq).1 hu
    rw [copy, bind_eq_ok_iff]
    refine ⟨_, exists_find wf hp hn (by simp [hwants]), ?_⟩
    refine bind_eq_ok_iff.2 ⟨b, (address_eq_ok_iff wf hq).2 ⟨rfl, .inr hroom⟩, ?_⟩
    simp only [beq_iff_eq, hab, if_false]
    exact bind_eq_ok_iff.2 ⟨u, hu, rfl⟩

theorem apart_of_file (wf : t.WellFormed) {contents : Bytes} (ha : t.get? a = some (.file contents)) (hb : t.Room b)
    (hdir : t.get? b ≠ some .directory) (hab : a ≠ b) : ¬ a <+: b ∧ ¬ b <+: a := by
  constructor
  · rintro ⟨x, rfl⟩
    have hx : x ≠ [] := fun hx => hab (by rw [hx, List.append_nil])
    have hparent := hb.parent
    rw [List.dropLast_append_of_ne_nil hx] at hparent
    by_cases hx' : x.dropLast = []
    · rw [hx', List.append_nil, ha] at hparent
      cases hparent
    · rw [wf.directory_above hx' hparent] at ha
      cases ha
  · rintro ⟨x, rfl⟩
    have hx : x ≠ [] := fun hx => hab (by rw [hx, List.append_nil])
    exact hdir (wf.directory_above hx ha)

theorem copy_eq_error (wf : t.WellFormed) (hp : LeadsTo p a) (hq : LeadsTo q b) (hab : a ≠ b)
    {e : FileError} (h : t.move p q = .error e) : ∃ e', t.copy p q = .error e' := by
  cases hcopy : t.copy p q with
  | error e' => exact ⟨e', rfl⟩
  | ok x =>
    obtain ⟨size, u⟩ := x
    obtain ⟨contents, hn, hwants, -, hu⟩ := (copy_eq_ok_iff wf hp hq hab).1 hcopy
    obtain ⟨hroom, hdir, hwants', -⟩ := (write_eq_ok_iff wf hq).1 hu
    have hapart : ¬ a <+: b := (apart_of_file wf hn hroom hdir hab).1
    have hok : t.move p q = .ok (t.transfer a b) := by
      refine (move_eq_ok_iff wf hp hq hab).2 ⟨⟨by rw [hn]; rfl, hapart, fun x hx => ?_, hroom.parent,
        hroom.names⟩, ?_, by simp [hwants, hwants'], rfl⟩
      · cases hget : t.get? b with
        | none => exact wf.get?_append_eq_none hget
        | some m =>
          cases m with
          | directory => exact absurd hget hdir
          | file d => exact wf.get?_below_file hx hget
      · cases hget : t.get? b with
        | none => exact .of_none hget
        | some m =>
          cases m with
          | directory => exact absurd hget hdir
          | file d => exact .of_files hn hget
    rw [h] at hok
    cases hok

/-! ## Removing -/

theorem Reaches.removeFile (hp : t.Reaches p a) (h : t.removeFile p = .ok u) :
    (∃ contents, t.get? a = some (.file contents)) ∧ wantsDirectory p = false ∧ u = t.erase a := by
  rw [FileTree.removeFile, bind_eq_ok_iff] at h
  obtain ⟨⟨a', n⟩, hf, h⟩ := h
  obtain ⟨rfl, hn, hwants⟩ := hp.find hf
  cases n with
  | directory => cases h
  | file contents =>
    cases h
    exact ⟨⟨contents, hn⟩, by simpa using hwants, rfl⟩

theorem removeFile_eq_ok_iff (wf : t.WellFormed) (hp : LeadsTo p a) : t.removeFile p = .ok u ↔
    (∃ contents, t.get? a = some (.file contents)) ∧ wantsDirectory p = false ∧ u = t.erase a := by
  refine ⟨(reaches_of_leadsTo wf hp).removeFile, ?_⟩
  rintro ⟨⟨contents, hn⟩, hwants, rfl⟩
  rw [removeFile, bind_eq_ok_iff]
  exact ⟨_, exists_find wf hp hn (by simp [hwants]), rfl⟩

theorem Reaches.removeDirectory (wf : t.WellFormed) (hp : t.Reaches p a) (h : t.removeDirectory p = .ok u) :
    t.get? a = some .directory ∧ (∀ name, t.get? (a ++ [name]) = none) ∧ u = t.erase a := by
  rw [FileTree.removeDirectory, bind_eq_ok_iff] at h
  obtain ⟨⟨a', n⟩, hf, h⟩ := h
  obtain ⟨rfl, hn, -⟩ := hp.find hf
  cases n with
  | file contents => cases h
  | directory =>
    simp only at h
    split at h
    · rename_i hempty
      cases h
      exact ⟨hn, (children_isEmpty_iff wf).1 hempty, rfl⟩
    · cases h

theorem removeDirectory_eq_ok_iff (wf : t.WellFormed) (hp : LeadsTo p a) : t.removeDirectory p = .ok u ↔
    t.get? a = some .directory ∧ (∀ name, t.get? (a ++ [name]) = none) ∧ u = t.erase a := by
  refine ⟨(reaches_of_leadsTo wf hp).removeDirectory wf, ?_⟩
  rintro ⟨hn, hempty, rfl⟩
  rw [removeDirectory, bind_eq_ok_iff]
  refine ⟨_, exists_find wf hp hn fun _ => rfl, ?_⟩
  simp only
  rw [if_pos ((children_isEmpty_iff wf).2 hempty)]

theorem removeTree_eq_ok (wf : t.WellFormed) (hp : LeadsTo p a) (h : t.get? a = some .directory) :
    t.removeTree p = .ok (t.erase a) := by
  rw [removeTree, exists_find wf hp h fun _ => rfl]
  rfl

/-! ## Locking -/

/-- The tree with an empty file at an address, unless something is there already. -/
def touch (t : FileTree) (a : Address) : FileTree := if t.get? a = none then t.put a (.file []) else t

theorem locks_touch : (t.touch a).locks = t.locks := by
  unfold touch
  split <;> rfl

theorem SameBut.touch (ha : a ≠ []) : SameBut (· = a) t (t.touch a) := by
  unfold FileTree.touch
  split
  · exact .put ha
  · exact .refl _ _

theorem WellFormed.touch (wf : t.WellFormed) (h : t.Room a) : (t.touch a).WellFormed := by
  unfold FileTree.touch
  split
  · rename_i hnone
    exact h.put wf (.inr (by simp [hnone]))
  · exact wf

theorem lock_eq_ok_iff (wf : t.WellFormed) (hp : LeadsTo p a) (hwants : wantsDirectory p = false)
    {free : Bool} : t.lock p = .ok (free, u) ↔ t.Room a ∧ t.get? a ≠ some .directory ∧
      free = !t.locks.contains a ∧ u = { t.touch a with locks := if free then a :: t.locks else t.locks } := by
  have hlast (v : FileTree) (hv : v = t.touch a) :
      (if v.locks.contains a then .ok (false, v) else .ok (true, { v with locks := a :: v.locks }) :
        Except FileError (Bool × FileTree)) = .ok (free, u) ↔
      free = !t.locks.contains a ∧ u = { t.touch a with locks := if free then a :: t.locks else t.locks } := by
    subst hv
    rw [locks_touch]
    have hsame : ({ t.touch a with locks := t.locks } : FileTree) = t.touch a := by
      unfold touch
      split <;> rfl
    cases t.locks.contains a <;> cases free <;> simp [eq_comm, hsame]
  rw [lock, bind_eq_ok_iff]
  constructor
  · rintro ⟨b, hb, h⟩
    obtain ⟨rfl, hroom⟩ := (address_eq_ok_iff wf hp).1 hb
    cases hget : t.get? b with
    | none =>
      simp only [hget] at h
      obtain ⟨v, hv, h⟩ := bind_eq_ok_iff.1 h
      obtain ⟨hroom, -, -, rfl⟩ := (write_eq_ok_iff wf hp).1 hv
      exact ⟨hroom, by simp, (hlast _ (by rw [touch, if_pos hget])).1 h⟩
    | some n =>
      cases n with
      | directory =>
        simp only [hget] at h
        cases h
      | file contents =>
        simp only [hget] at h
        refine ⟨hroom.resolve_left fun hnil => ?_, by simp, (hlast t (by rw [touch, hget]; rfl)).1 h⟩
        rw [hnil] at hget
        cases hget
  · rintro ⟨hroom, hdir, hfree⟩
    refine ⟨a, (address_eq_ok_iff wf hp).2 ⟨rfl, .inr hroom⟩, ?_⟩
    cases hget : t.get? a with
    | none =>
      have hwrite : t.write p [] = .ok _ := (write_eq_ok_iff wf hp).2 ⟨hroom, hdir, hwants, rfl⟩
      exact bind_eq_ok_iff.2 ⟨_, hwrite, (hlast _ (by rw [touch, if_pos hget])).2 hfree⟩
    | some n =>
      cases n with
      | directory => exact absurd hget hdir
      | file contents => exact (hlast t (by rw [touch, hget]; rfl)).2 hfree

theorem unlock_eq (wf : t.WellFormed) (hp : LeadsTo p a) (h : t.Room a) :
    t.unlock p = { t with locks := t.locks.erase a } := by
  rw [unlock, (address_eq_ok_iff wf hp).2 ⟨rfl, .inr h⟩]

theorem WellFormed.locks (wf : t.WellFormed) (locks : List Address) : ({ t with locks } : FileTree).WellFormed :=
  ⟨wf.keys, wf.below, wf.names, wf.parents⟩

theorem get?_unlock (p : Path) (c : Address) : (t.unlock p).get? c = t.get? c := by
  unfold unlock
  split <;> rfl

theorem WellFormed.unlock (wf : t.WellFormed) (p : Path) : (t.unlock p).WellFormed := by
  unfold FileTree.unlock
  split
  · exact wf.locks _
  · exact wf

end Deadwood.FileTree
