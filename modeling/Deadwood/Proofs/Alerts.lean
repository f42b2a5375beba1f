import Deadwood.Proofs.PathOrder
import Mathlib.Data.List.FinRange

/-!
# The weaknesses of a project

The alerts of a report are sorted by a key that leaves ties between the weaknesses of one line. The sort is stable,
and these are found in the order of the catalog, so nothing is left to the order of the files.

* `Sighting.Precedes`, **`Sighting.precedes_sorted`**: the order of the alerts;
* **`report_complete`**: what is reported, and in which order.
-/

namespace Deadwood

open Text List Alert

/-! ## Ties -/

/-- **A stable sort leaves ties as they were**: what holds of members in their old order holds of members that the key
does not tell apart in the new one. -/
theorem pairwise_mergeSort_ties {α : Type} {le : α → α → Bool} {R : α → α → Prop}
    (trans : ∀ a b c, le a b = true → le b c = true → le a c = true) (total : ∀ a b, (le a b || le b a) = true)
    {l : List α} (h : l.Pairwise R) :
    (l.mergeSort le).Pairwise fun a b => le a b = true ∧ (le b a = true → R a b) := by
  rw [← mergeSort_zipIdx, pairwise_map]
  have hsorted := pairwise_mergeSort (zipIdxLE_trans trans) (zipIdxLE_total total) l.zipIdx
  have hperm := mergeSort_perm l.zipIdx (List.zipIdxLE le)
  have hplaces : (l.zipIdx.mergeSort (List.zipIdxLE le)).Pairwise fun x y => x.2 ≠ y.2 := by
    rw [← pairwise_map (f := Prod.snd) (R := (· ≠ ·)), ← Nodup, (hperm.map _).nodup_iff, zipIdx_map_snd]
    exact nodup_range'
  refine (hsorted.and hplaces).imp_of_mem ?_
  intro x y hx hy ⟨hle, hne⟩
  obtain ⟨hi, hx⟩ := List.getElem?_eq_some_iff.1 (mem_zipIdx_iff_getElem?.1 (hperm.mem_iff.1 hx))
  obtain ⟨hj, hy⟩ := List.getElem?_eq_some_iff.1 (mem_zipIdx_iff_getElem?.1 (hperm.mem_iff.1 hy))
  rw [List.zipIdxLE] at hle
  split at hle
  · rename_i hxy
    refine ⟨hxy, fun hyx => ?_⟩
    rw [if_pos hyx, decide_eq_true_eq] at hle
    rw [← hx, ← hy]
    exact pairwise_iff_getElem.1 h _ _ hi hj (Nat.lt_of_le_of_ne hle hne)
  · cases hle

/-! ## Sightings -/

/-- A weakness of a catalog was seen on a line of a file. -/
structure Sighting (catalog : List Weakness) where
  file : Path
  line : Nat
  rule : Fin catalog.length

variable {catalog : List Weakness} {dead : List Path} {units units' : List (SourceUnit × String)}

namespace Sighting

def weakness (s : Sighting catalog) : Weakness := catalog.get s.rule

def alert (dead : List Path) (s : Sighting catalog) : Alert :=
  { ofWeakness s.file (Zone.around? s.file) s.line s.weakness with inDeadCode := dead.contains s.file }

/-- The file is one of the units, the line is one of its text and not too long, and it has the weakness. -/
def IsIn (units : List (SourceUnit × String)) (s : Sighting catalog) : Prop :=
  ∃ u text line, (u, text) ∈ units ∧ u.relative = s.file ∧ 1 ≤ s.line ∧ (lines text)[s.line - 1]? = some line ∧
    line.utf8ByteSize ≤ 4096 ∧ s.weakness.holds line = true

def onLine (catalog : List Weakness) (file : Path) (number : Nat) (line : String) : List (Sighting catalog) :=
  ((List.finRange catalog.length).filter fun rule =>
    decide (line.utf8ByteSize ≤ maxLineLength) && (catalog.get rule).holds line).map (⟨file, number, ·⟩)

def inText (catalog : List Weakness) (file : Path) (text : String) : List (Sighting catalog) :=
  (lines text).zipIdx.flatMap fun (line, i) => onLine catalog file (i + 1) line

def inUnits (catalog : List Weakness) (units : List (SourceUnit × String)) : List (Sighting catalog) :=
  units.flatMap fun (u, text) => inText catalog u.relative text

theorem map_onLine (file : Path) (number : Nat) (line : String) :
    (onLine catalog file number line).map weakness = weaknessesOf catalog line := by
  have hcatalog : (List.finRange catalog.length).map catalog.get = catalog := map_get_finRange catalog
  rw [onLine, map_map, weaknessesOf]
  split
  · rename_i hlong
    rw [decide_eq_false (Nat.not_le.2 hlong)]
    simp
  · rename_i hshort
    rw [decide_eq_true (Nat.not_lt.1 hshort)]
    conv_rhs => rw [← hcatalog, filter_map]
    rfl

theorem map_inText (file : Path) (text : String) :
    (inText catalog file text).map (fun s => ofWeakness s.file (Zone.around? s.file) s.line s.weakness) =
      ofText catalog file text := by
  rw [inText, map_flatMap, ofText]
  refine congrArg (List.flatMap · _) (funext ?_)
  rintro ⟨line, i⟩
  dsimp only
  rw [← map_onLine file (i + 1), map_map]
  refine map_congr_left fun s hs => ?_
  obtain ⟨rule, -, rfl⟩ := mem_map.1 hs
  rfl

variable {s : Sighting catalog}

theorem mem_onLine {file : Path} {number : Nat} {line : String} : s ∈ onLine catalog file number line ↔
      s.file = file ∧ s.line = number ∧ line.utf8ByteSize ≤ 4096 ∧ s.weakness.holds line = true := by
  rw [onLine, mem_map]
  constructor
  · rintro ⟨rule, hrule, rfl⟩
    rw [mem_filter, Bool.and_eq_true, decide_eq_true_eq] at hrule
    exact ⟨rfl, rfl, hrule.2⟩
  · rintro ⟨rfl, rfl, hline⟩
    refine ⟨s.rule, mem_filter.2 ⟨mem_finRange _, ?_⟩, rfl⟩
    rw [Bool.and_eq_true, decide_eq_true_eq]
    exact hline

theorem mem_inText {file : Path} {text : String} :
    s ∈ inText catalog file text ↔ s.file = file ∧ 1 ≤ s.line ∧ ∃ line, (lines text)[s.line - 1]? = some line ∧
      line.utf8ByteSize ≤ 4096 ∧ s.weakness.holds line = true := by
  simp only [inText, mem_flatMap, Prod.exists, mem_zipIdx_iff_getElem?, mem_onLine]
  constructor
  · rintro ⟨line, i, hline, rfl, hnumber, hrest⟩
    rw [hnumber]
    exact ⟨rfl, Nat.le_add_left 1 i, line, hline, hrest⟩
  · rintro ⟨rfl, hnumber, line, hline, hrest⟩
    exact ⟨line, s.line - 1, hline, rfl, by omega, hrest⟩

/-- **Every weakness on every line of every unit is seen**, unless the line is too long. -/
theorem mem_inUnits : s ∈ inUnits catalog units ↔ s.IsIn units := by
  simp only [inUnits, mem_flatMap, Prod.exists, mem_inText, IsIn]
  constructor
  · rintro ⟨u, text, hu, hfile, hnumber, line, hline⟩
    exact ⟨u, text, line, hu, hfile.symm, hnumber, hline⟩
  · rintro ⟨u, text, line, hu, hfile, hnumber, hline⟩
    exact ⟨u, text, hu, hfile.symm, hnumber, line, hline⟩

/-! ## The order of alerts -/

def severity (s : Sighting catalog) : Severity := (s.alert []).severity

/-- The sighting comes first: it is graver; or as grave and its file comes first; or in the same file and its line
comes first; or on the same line and its weakness comes first in the catalog. -/
inductive Precedes (s t : Sighting catalog) : Prop
  | graver (h : t.severity.rank < s.severity.rank)
  | file (hseverity : s.severity = t.severity) (h : s.file.Before t.file)
  | line (hseverity : s.severity = t.severity) (hfile : s.file = t.file) (h : s.line < t.line)
  | rule (hseverity : s.severity = t.severity) (hfile : s.file = t.file) (hline : s.line = t.line)
      (h : s.rule < t.rule)

theorem Precedes.asymm {t : Sighting catalog} (h : s.Precedes t) : ¬ t.Precedes s := by
  intro h'
  cases h <;> cases h' <;> grind [Path.not_before_self, Path.before_trans]

end Sighting

theorem Severity.rank_inj {s t : Severity} : s.rank = t.rank ↔ s = t := by
  cases s <;> cases t <;> decide

namespace Alert

variable {a b c : Alert}

theorem le_iff : a.le b = true ↔ b.severity.rank < a.severity.rank ∨ a.severity.rank = b.severity.rank ∧
    (a.file.Before b.file ∨ a.file.components = b.file.components ∧ a.line ≤ b.line) := by
  rw [le, Path.Before, ← Path.compare_eq_iff]
  split
  · rename_i hne
    rw [bne_iff_ne] at hne
    rw [decide_eq_true_eq]
    omega
  · rename_i heq
    rw [bne_iff_ne, not_not] at heq
    cases a.file.compare b.file <;> simp [heq]

theorem le_trans (h : a.le b = true) (h' : b.le c = true) : a.le c = true := by
  rw [le_iff] at h h' ⊢
  rcases h with h | ⟨heq, h⟩
  · exact .inl (by omega)
  rcases h' with h' | ⟨heq', h'⟩
  · exact .inl (by omega)
  refine .inr ⟨heq.trans heq', ?_⟩
  rcases h with h | ⟨hfile, h⟩ <;> rcases h' with h' | ⟨hfile', h'⟩
  · exact .inl (Path.before_trans h h')
  · left
    rwa [Path.Before, Path.compare, ← hfile']
  · left
    rwa [Path.Before, Path.compare, hfile]
  · exact .inr ⟨hfile.trans hfile', by omega⟩

theorem le_total (a b : Alert) : (a.le b || b.le a) = true := by
  rw [Bool.or_eq_true, le_iff, le_iff]
  rcases Nat.lt_trichotomy a.severity.rank b.severity.rank with h | h | h
  · exact .inr (.inl h)
  · cases hfile : a.file.compare b.file with
    | lt => exact .inl (.inr ⟨h, .inl hfile⟩)
    | gt => exact .inr (.inr ⟨h.symm, .inl (Path.before_of_gt hfile)⟩)
    | eq =>
      have hfile := Path.compare_eq_iff.1 hfile
      rcases Nat.le_total a.line b.line with hline | hline
      · exact .inl (.inr ⟨h, .inr ⟨hfile, hline⟩⟩)
      · exact .inr (.inr ⟨h.symm, .inr ⟨hfile.symm, hline⟩⟩)
  · exact .inl (.inl h)

end Alert

namespace Sighting

instance : Std.Irrefl (@Precedes catalog) := ⟨fun _ h => h.asymm h⟩

instance : Std.Antisymm (@Precedes catalog) := ⟨fun _ _ h h' => absurd h' h.asymm⟩

/-- The key by which sightings are sorted; the catalog is no part of it. -/
def le (s t : Sighting catalog) : Bool := (s.alert []).le (t.alert [])

theorem le_trans (s t u : Sighting catalog) (h : s.le t = true) (h' : t.le u = true) : s.le u = true :=
  Alert.le_trans h h'

theorem le_total (s t : Sighting catalog) : (s.le t || t.le s) = true := Alert.le_total _ _

def sorted (catalog : List Weakness) (units : List (SourceUnit × String)) : List (Sighting catalog) :=
  (inUnits catalog units).mergeSort le

theorem mem_sorted {s : Sighting catalog} : s ∈ sorted catalog units ↔ s.IsIn units := by
  rw [sorted, mem_mergeSort, mem_inUnits]

theorem pairwise_inUnits (h : DistinctPaths (units.map (·.1))) : (inUnits catalog units).Pairwise fun s t =>
    s.file.components = t.file.components → s.line = t.line → s.rule < t.rule := by
  refine pairwise_flatMap.2 ⟨?_, ?_⟩
  · rintro ⟨u, text⟩ -
    refine pairwise_flatMap.2 ⟨?_, ?_⟩
    · rintro ⟨line, i⟩ -
      exact pairwise_map.2 (((pairwise_lt_finRange _).filter _).imp fun hlt _ _ => hlt)
    · have hnumbers : (lines text).zipIdx.Pairwise fun x y => x.2 ≠ y.2 := by
        rw [← pairwise_map (f := Prod.snd) (R := (· ≠ ·)), zipIdx_map_snd]
        exact nodup_range'
      refine hnumbers.imp ?_
      rintro ⟨line, i⟩ ⟨line', j⟩ hne s hs t ht - hline
      rw [(mem_onLine.1 hs).2.1, (mem_onLine.1 ht).2.1] at hline
      exact absurd (Nat.succ_inj.1 hline) hne
  · rw [DistinctPaths, map_map] at h
    refine (pairwise_map.1 h).imp ?_
    rintro ⟨u, text⟩ ⟨u', text'⟩ hne s hs t ht hfile
    rw [(mem_inText.1 hs).1, (mem_inText.1 ht).1] at hfile
    exact absurd hfile hne

theorem IsIn.file_eq {s t : Sighting catalog} (hs : s.IsIn units) (ht : t.IsIn units)
    (h : DistinctPaths (units.map (·.1))) (hfile : s.file.components = t.file.components) : s.file = t.file := by
  obtain ⟨u, text, -, hu, hs, -⟩ := hs
  obtain ⟨v, text', -, hv, ht, -⟩ := ht
  have hu : u ∈ units.map (·.1) := mem_map_of_mem hu
  have hv : v ∈ units.map (·.1) := mem_map_of_mem hv
  rw [← hs, ← ht] at hfile ⊢
  rw [inj_on_of_nodup_map h hu hv hfile]

/-- **The alerts stand in order**: the gravest first, then by file, by line and by the catalog. -/
theorem precedes_sorted (h : DistinctPaths (units.map (·.1))) : (sorted catalog units).Pairwise Precedes := by
  refine (pairwise_mergeSort_ties le_trans le_total (pairwise_inUnits h)).imp_of_mem ?_
  rintro s t hs ht ⟨hle, hties⟩
  rcases le_iff.1 hle with hgraver | ⟨hrank, hbefore | ⟨hfile, hline⟩⟩
  · exact .graver hgraver
  · exact .file (Severity.rank_inj.1 hrank) hbefore
  have hseverity : s.severity = t.severity := Severity.rank_inj.1 hrank
  have hsame : s.file = t.file := (mem_sorted.1 hs).file_eq (mem_sorted.1 ht) h hfile
  rcases Nat.lt_or_eq_of_le hline with hlt | heq
  · exact .line hseverity hsame hlt
  · exact .rule hseverity hsame heq (hties (le_iff.2 (.inr ⟨hrank.symm, .inr ⟨hfile.symm, heq.ge⟩⟩)) hfile heq)

theorem sorted_perm (h : DistinctPaths (units.map (·.1))) (hperm : units'.Perm units) :
    sorted catalog units' = sorted catalog units := by
  have h' : DistinctPaths (units'.map (·.1)) := by
    rw [DistinctPaths, ((hperm.map _).map _).nodup_iff]
    exact h
  refine List.Pairwise.eq_of_mem_iff (precedes_sorted h') (precedes_sorted h) fun s => ?_
  simp only [mem_sorted, IsIn, hperm.mem_iff]

end Sighting

/-! ## The report -/

theorem SecurityReport.ofUnits_eq (catalog : List Weakness) (dead : List Path) (units : List (SourceUnit × String)) :
    let alerts := (Sighting.sorted catalog units).map (·.alert dead)
    SecurityReport.ofUnits catalog dead units =
      ⟨alerts.length, alerts.countP (·.inDeadCode), alerts.length - alerts.countP (·.inDeadCode), alerts⟩ := by
  have hfound : (units.flatMap fun (u, text) => ofText catalog u.relative text).map
      (fun a => { a with inDeadCode := dead.contains a.file }) =
        (Sighting.inUnits catalog units).map (·.alert dead) := by
    rw [Sighting.inUnits, map_flatMap, map_flatMap]
    refine congrArg (List.flatMap · _) (funext ?_)
    rintro ⟨u, text⟩
    dsimp only
    rw [← Sighting.map_inText, map_map]
    rfl
  have hsorted : (Sighting.sorted catalog units).map (·.alert dead) =
      ((Sighting.inUnits catalog units).map (·.alert dead)).mergeSort le := by
    -- the key of the sort does not look at whether a file is dead
    refine map_mergeSort fun s _ t _ => ?_
    rfl
  intro alerts
  rw [ofUnits, ofAlerts, hfound, ← hsorted]

/-- **The report is complete and does not depend on the order of the files.** For every unit, every line of at most
4096 bytes and every rule that the line breaks there is one alert, and there are no others. They are sorted by
severity, file, line and catalog, each says whether its file is dead, and the numbers are those of the alerts. -/
theorem report_complete {catalog : List Weakness} {dead : List Path} {units : List (SourceUnit × String)}
    (h : DistinctPaths (units.map (·.1))) :
    let report := SecurityReport.ofUnits catalog dead units
    (∀ units', units'.Perm units → SecurityReport.ofUnits catalog dead units' = report) ∧
    (∃ sightings : List (Sighting catalog), report.alerts = sightings.map (·.alert dead) ∧
      sightings.Nodup ∧ (∀ s, s ∈ sightings ↔ s.IsIn units) ∧ sightings.Pairwise Sighting.Precedes) ∧
    (∀ a ∈ report.alerts, a.inDeadCode = true ↔ ∃ p ∈ dead, p.components = a.file.components) ∧
    report.total = report.alerts.length ∧ report.inDeadCode = report.alerts.countP (·.inDeadCode) ∧
    report.total = report.inDeadCode + report.inLiveCode := by
  intro report
  have hreport : report = _ := SecurityReport.ofUnits_eq catalog dead units
  have hsorted : (Sighting.sorted catalog units).Pairwise Sighting.Precedes := Sighting.precedes_sorted h
  refine ⟨fun units' hperm => ?_, ⟨Sighting.sorted catalog units, ?_, hsorted.nodup, fun s => Sighting.mem_sorted,
    hsorted⟩, fun a ha => ?_, ?_, ?_, ?_⟩
  · rw [SecurityReport.ofUnits_eq, Sighting.sorted_perm h hperm, hreport]
  · rw [hreport]
  · rw [hreport] at ha
    obtain ⟨s, -, rfl⟩ := List.mem_map.1 ha
    simp only [Sighting.alert, Alert.ofWeakness, List.contains_iff_exists_mem_beq, Path.beq_iff,
      eq_comm (a := s.file.components)]
  · rw [hreport]
  · rw [hreport]
  · rw [hreport]
    dsimp only
    exact (Nat.add_sub_of_le List.countP_le_length).symm

/-- Two rules that a line may break both, the graver one last. -/
def twoRules : List Weakness :=
  [{ holds := fun line => line == "a" || line == "b", category := "first", cwe := "1", cweName := "1", severity := .low
     description := "", risk := "" },
   { holds := fun line => line == "b", category := "second", cwe := "2", cweName := "2", severity := .high
     description := "", risk := "" }]

def ruleBreakers : List (SourceUnit × String) :=
  [({ path := ⟨"/p/y.py"⟩, relative := ⟨"y.py"⟩, language := .python }, "a\nb\n"),
   ({ path := ⟨"/p/x.py"⟩, relative := ⟨"x.py"⟩, language := .python }, "b\n")]

theorem report_complete_ruleBreakers :
    let report units := SecurityReport.ofUnits twoRules [⟨"./x.py"⟩, ⟨"y.py"⟩] units
    DistinctPaths (ruleBreakers.map (·.1)) ∧ report ruleBreakers.reverse = report ruleBreakers ∧
      ∃ a ∈ (report ruleBreakers).alerts, a.line = 2 ∧ a.category = "second" ∧ a.inDeadCode = true := by
  have hpaths : DistinctPaths (ruleBreakers.map (·.1)) := by decide
  obtain ⟨hperm, ⟨sightings, halerts, -, hmem, -⟩, hdead, -⟩ :=
    @report_complete twoRules [⟨"./x.py"⟩, ⟨"y.py"⟩] ruleBreakers hpaths
  refine ⟨hpaths, hperm _ (List.reverse_perm _), ?_⟩
  have hseen : (⟨⟨"y.py"⟩, 2, ⟨1, by decide⟩⟩ : Sighting twoRules) ∈ sightings :=
    (hmem _).2 ⟨_, _, "b", List.mem_cons_self, rfl, by decide, by decide, by decide, by decide⟩
  have halert := halerts ▸ List.mem_map_of_mem (f := Sighting.alert [⟨"./x.py"⟩, ⟨"y.py"⟩]) hseen
  exact ⟨_, halert, rfl, rfl, (hdead _ halert).2 ⟨⟨"y.py"⟩, by simp, rfl⟩⟩

end Deadwood
