import Deadwood.Proofs.Alerts
import Deadwood.Proofs.Paths
import Mathlib.Order.Bounds.Basic

/-!
# How grave a weakness is in a file

A weakness counts at least as much as the floor of every zone that a directory around the file names.

* **`severity_escalates`**: how grave the alerts of a file are.
-/

namespace Deadwood

open List

def Path.directories (p : Path) : List String := p.components.dropLast.map (·.text)

namespace Zone

variable {zone : Zone} {zones : List Zone} {directory : String} {p : Path}

def lowered (name : String) : String := String.ofList (name.toList.map Text.asciiLower)

/-- The directory has a name of the zone, but for the case of ASCII letters. -/
def IsNamedBy (zone : Zone) (directory : String) : Prop := ∃ name ∈ zone.names, lowered directory = lowered name

/-- A directory around the file names the zone. -/
def IsAround (zone : Zone) (p : Path) : Prop := zone ∈ all ∧ ∃ directory ∈ p.directories, zone.IsNamedBy directory

/-! ## Zones around a file -/

theorem lowered_of_mem_all (hzone : zone ∈ all) {name : String} (hname : name ∈ zone.names) : lowered name = name := by
  have hall : ∀ zone ∈ all, ∀ name ∈ zone.names, lowered name = name := by decide +kernel
  exact hall zone hzone name hname

/-- No name belongs to two zones, so the first zone with a name is the only one. -/
theorem eq_of_mem_names {zone' : Zone} (h : zone ∈ all) (h' : zone' ∈ all) {name : String} (hname : name ∈ zone.names)
    (hname' : name ∈ zone'.names) : zone = zone' := by
  have hall : ∀ zone ∈ all, ∀ zone' ∈ all, ∀ name ∈ zone.names, name ∈ zone'.names → zone = zone' := by decide +kernel
  exact hall zone h zone' h' name hname hname'

theorem ofDirectory?_eq_some_iff : ofDirectory? directory = some zone ↔ zone ∈ all ∧ zone.IsNamedBy directory := by
  have hfind : ofDirectory? directory = all.find? (·.names.contains (lowered directory)) := rfl
  rw [hfind]
  constructor
  · intro h
    have hzone := mem_of_find?_eq_some h
    have hname : lowered directory ∈ zone.names := by simpa using find?_some h
    exact ⟨hzone, _, hname, (lowered_of_mem_all hzone hname).symm⟩
  · rintro ⟨hzone, name, hname, heq⟩
    rw [lowered_of_mem_all hzone hname] at heq
    subst heq
    cases h : all.find? (·.names.contains (lowered directory)) with
    | none => exact absurd (contains_iff_mem.2 hname) (find?_eq_none.1 h zone hzone)
    | some zone' =>
      have hname' : lowered directory ∈ zone'.names := by simpa using find?_some h
      rw [eq_of_mem_names (mem_of_find?_eq_some h) hzone hname' hname]

theorem around?_eq (p : Path) : around? p = gravest? (p.directories.filterMap ofDirectory?) := by
  rw [around?, Path.directories, filterMap_map]
  rcases Path.parentSpec p with ⟨hparent, hnone | hroot⟩ | ⟨q, k, hparent, hcomponents⟩
  · rw [hparent, hnone]
    rfl
  · rw [hparent, hroot]
    rfl
  · rw [hparent, hcomponents, dropLast_concat]
    rfl

theorem mem_filterMap_ofDirectory? : zone ∈ p.directories.filterMap ofDirectory? ↔ zone.IsAround p := by
  simp only [mem_filterMap, ofDirectory?_eq_some_iff, IsAround]
  constructor
  · rintro ⟨directory, hdirectory, hzone, hname⟩
    exact ⟨hzone, directory, hdirectory, hname⟩
  · rintro ⟨hzone, directory, hdirectory, hname⟩
    exact ⟨directory, hdirectory, hzone, hname⟩

theorem gravest?_eq_none_iff : gravest? zones = none ↔ zones = [] := by
  cases zones with
  | nil => exact ⟨fun _ => rfl, fun _ => rfl⟩
  | cons zone zones =>
    rw [gravest?]
    split
    · simp
    · split <;> simp

theorem gravest?_eq_some (h : gravest? zones = some zone) :
    zone ∈ zones ∧ ∀ other ∈ zones, other.floor.rank ≤ zone.floor.rank := by
  induction zones generalizing zone with
  | nil => cases h
  | cons first zones ih =>
    rw [gravest?] at h
    split at h
    · rename_i hnone
      cases h
      rw [gravest?_eq_none_iff.1 hnone]
      simp
    · rename_i other hother
      obtain ⟨hmem, hle⟩ := ih hother
      split at h
      · rename_i hlt
        cases h
        refine ⟨mem_cons_self, forall_mem_cons.2 ⟨Nat.le_refl _, fun z hz => ?_⟩⟩
        exact (hle z hz).trans hlt.le
      · rename_i hge
        cases h
        exact ⟨mem_cons_of_mem _ hmem, forall_mem_cons.2 ⟨Nat.not_lt.1 hge, hle⟩⟩

theorem around?_eq_none_iff : around? p = none ↔ ∀ zone : Zone, ¬ zone.IsAround p := by
  rw [around?_eq, gravest?_eq_none_iff, eq_nil_iff_forall_not_mem]
  simp only [mem_filterMap_ofDirectory?]

theorem around?_eq_some (h : around? p = some zone) :
    zone.IsAround p ∧ ∀ other : Zone, other.IsAround p → other.floor.rank ≤ zone.floor.rank := by
  rw [around?_eq] at h
  simpa only [mem_filterMap_ofDirectory?] using gravest?_eq_some h

end Zone

/-! ## Alerts -/

namespace Alert

variable {catalog : List Weakness} {file file' : Path} {text : String} {a : Alert}

/-- The ranks that count for an alert: how grave the weakness is anywhere, and the floors of the zones around it. -/
def ranks (file : Path) (intrinsic : Severity) : Set Nat :=
  {n | n = intrinsic.rank ∨ ∃ zone : Zone, zone.IsAround file ∧ n = zone.floor.rank}

theorem rank_max (s t : Severity) : (s.max t).rank = max s.rank t.rank := by
  cases s <;> cases t <;> rfl

theorem isGreatest_ofWeakness (file : Path) (line : Nat) (w : Weakness) :
    IsGreatest (ranks file w.severity) (ofWeakness file (Zone.around? file) line w).severity.rank := by
  cases h : Zone.around? file with
  | none =>
    refine ⟨.inl rfl, ?_⟩
    rintro n (rfl | ⟨zone, hzone, -⟩)
    · exact Nat.le_refl _
    · exact absurd hzone (Zone.around?_eq_none_iff.1 h zone)
  | some zone =>
    obtain ⟨hzone, hle⟩ := Zone.around?_eq_some h
    show IsGreatest _ (w.severity.max zone.floor).rank
    rw [rank_max]
    refine ⟨?_, ?_⟩
    · rcases Nat.le_total w.severity.rank zone.floor.rank with h | h
      · exact .inr ⟨zone, hzone, max_eq_right h⟩
      · exact .inl (max_eq_left h)
    · rintro n (rfl | ⟨other, hother, rfl⟩)
      · exact le_max_left _ _
      · exact (hle other hother).trans (le_max_right _ _)

/-- The line of the alert shows a weakness of the catalog. -/
def IsFound (catalog : List Weakness) (text : String) (a : Alert) (w : Weakness) : Prop :=
  w ∈ catalog ∧ a.category = w.category ∧ a.intrinsic = w.severity ∧
    ∃ i line, a.line = i + 1 ∧ (Text.lines text)[i]? = some line ∧ w.holds line = true

theorem mem_ofText (h : a ∈ ofText catalog file text) :
    ∃ line w, IsFound catalog text a w ∧ a = ofWeakness file (Zone.around? file) line w := by
  simp only [ofText, mem_flatMap, mem_map, Prod.exists, mem_zipIdx_iff_getElem?] at h
  obtain ⟨line, i, hline, w, hw, rfl⟩ := h
  rw [weaknessesOf] at hw
  split at hw
  · cases hw
  · obtain ⟨hmem, hholds⟩ := mem_filter.1 hw
    exact ⟨i + 1, w, ⟨hmem, rfl, rfl, i, line, rfl, hline, hholds⟩, rfl⟩

theorem forall₂_ofText {R : Alert → Alert → Prop}
    (h : ∀ line w, R (ofWeakness file (Zone.around? file) line w) (ofWeakness file' (Zone.around? file') line w)) :
    Forall₂ R (ofText catalog file text) (ofText catalog file' text) := by
  rw [ofText, ofText]
  generalize (Text.lines text).zipIdx = numbered
  induction numbered with
  | nil => exact .nil
  | cons line numbered ih =>
    obtain ⟨line, i⟩ := line
    refine rel_append ?_ ih
    dsimp only
    generalize weaknessesOf catalog line = ws
    induction ws with
    | nil => exact .nil
    | cons w ws ih => exact .cons (h _ w) ih

theorem rank_le_of_subset (h : file.directories ⊆ file'.directories) (line : Nat) (w : Weakness) :
    (ofWeakness file (Zone.around? file) line w).severity.rank ≤
      (ofWeakness file' (Zone.around? file') line w).severity.rank := by
  refine (isGreatest_ofWeakness file line w).mono (isGreatest_ofWeakness file' line w) ?_
  rintro n (rfl | ⟨zone, ⟨hzone, directory, hdirectory, hname⟩, rfl⟩)
  · exact .inl rfl
  · exact .inr ⟨zone, ⟨hzone, directory, h hdirectory, hname⟩, rfl⟩

end Alert

/-- **How grave an alert is.** Its severity is the maximum of how grave the weakness of its line is anywhere and of
the floors of all zones that a directory of the path names; it has no zone if and only if none does. The order of the
directories and the name of the file do not count, and with further directories the same alerts are at least as grave.
-/
theorem severity_escalates (catalog : List Weakness) (file : Path) (text : String) :
    (∀ a ∈ Alert.ofText catalog file text,
      (∃ w, a.IsFound catalog text w ∧ IsGreatest (Alert.ranks file w.severity) a.severity.rank) ∧
      (a.zone = none ↔ ∀ zone ∈ Zone.all, ∀ directory ∈ file.directories, ¬ zone.IsNamedBy directory)) ∧
    (∀ file' : Path, file.directories.Perm file'.directories →
      List.Forall₂ (fun a b => b = { a with file := file', zone := b.zone })
        (Alert.ofText catalog file text) (Alert.ofText catalog file' text)) ∧
    ∀ file' : Path, file.directories.Sublist file'.directories →
      List.Forall₂ (fun a b => b = { a with file := file', zone := b.zone, severity := b.severity } ∧
          a.severity.rank ≤ b.severity.rank)
        (Alert.ofText catalog file text) (Alert.ofText catalog file' text) := by
  refine ⟨fun a ha => ?_, fun file' hperm => Alert.forall₂_ofText fun line w => ?_,
    fun file' hsub => Alert.forall₂_ofText fun line w => ⟨rfl, Alert.rank_le_of_subset hsub.subset line w⟩⟩
  · obtain ⟨line, w, hfound, rfl⟩ := Alert.mem_ofText ha
    refine ⟨⟨w, hfound, Alert.isGreatest_ofWeakness file line w⟩, ?_⟩
    refine Option.map_eq_none_iff.trans (Zone.around?_eq_none_iff.trans ?_)
    simp only [Zone.IsAround, not_and, not_exists]
  -- each path has the directories of the other, so neither rank is greater
  · have hrank := (Alert.rank_le_of_subset hperm.subset line w).antisymm
      (Alert.rank_le_of_subset hperm.symm.subset line w)
    exact congrArg (fun severity => { Alert.ofWeakness file' (Zone.around? file') line w with severity := severity })
      (Severity.rank_inj.1 hrank).symm

/-- An evaluation is grave anywhere, and critical below `login`. -/
theorem severity_escalates_login :
    let catalog := Weakness.catalog.filter (·.category == "eval")
    ∃ a ∈ Alert.ofText catalog ⟨"src/API/login/a.js"⟩ "\neval(x)\n",
      (a.line, a.intrinsic, a.severity, a.zone) = (2, .high, .critical, some "authentication") ∧
        ∃ w, a.IsFound catalog "\neval(x)\n" w ∧
          IsGreatest (Alert.ranks ⟨"src/API/login/a.js"⟩ w.severity) a.severity.rank := by
  intro catalog
  have hone : (Alert.ofText catalog ⟨"src/API/login/a.js"⟩ "\neval(x)\n").map
      (fun a => (a.line, a.intrinsic, a.severity, a.zone)) = [(2, .high, .critical, some "authentication")] := by
    decide +kernel
  obtain ⟨a, ha, hparts⟩ := mem_map.1 (hone ▸ mem_singleton_self _)
  exact ⟨a, ha, hparts, ((severity_escalates _ _ _).1 a ha).1⟩

end Deadwood
