import Deadwood.Proofs.Preview
import Deadwood.Proofs.SessionFaults

/-!
# Cleaning when operations fail

Between a scan and cleaning the project may have changed in any way, and any operation may fail. The plans are made
from the scan, so a file that cannot be moved has its imports pruned all the same.

* **`clean_prunes_stale_lines`**: what is pruned from a file that stays, and what is recorded of those that go.
-/

namespace Deadwood

open List FileTree FileTask Deadwood.Path Deadwood.Graph

variable {r : Address} {contents : Bytes} {report : CleanReport} {config : Config} {t : FileTree} {removed : List Nat}
  {session : OpenSession} {s : Scan} {id : String} {gone : Address → Prop} {P : Address → Bytes → Bytes → Prop}
  {moved : List Path}

/-! ## Call after call -/

/-- Cleaning is under way: `moved` are the files that were moved so far. Outside the store the files are those of the
tree `t`, but for some that may be gone; they have the same contents, or `P` tells how these have changed. The files
that were moved have their entries in the session and in the record on disk. -/
structure Underway (r : Address) (gone : Address → Prop) (t : FileTree) (P : Address → Bytes → Bytes → Prop)
    (id : String) (s : OpenSession) (moved : List Path) (u : FileTree) : Prop where
  root : LeadsTo s.quarantine.root r
  id_eq : s.record.id = id
  isName : IsName id
  wf : u.WellFormed
  files : ∀ c bytes, ¬ storeAt r <+: c → u.get? c = some (.file bytes) →
    ∃ old, t.get? c = some (.file old) ∧ (bytes = old ∨ P c old bytes)
  stays : ∀ c old, ¬ storeAt r <+: c → ¬ gone c → t.get? c = some (.file old) →
    ∃ bytes, u.get? c = some (.file bytes)
  disk : ∃ record : SessionRecord, u.get? (recordAt r id) = some (.file record.contents) ∧
    ∀ p ∈ moved, record.HasMoved p
  entries : ∀ p ∈ moved, s.record.HasMoved p

namespace Underway

variable {u v : FileTree} {s s' : OpenSession} {path : Path} {m : List String}

variable (h : Underway r gone t P id s moved u)
include h

theorem isName_session : IsName s.record.id := by
  rw [h.id_eq]
  exact h.isName

variable {Q : Address → Bytes → Bytes → Prop}

theorem mono (hPQ : ∀ c old bytes, P c old bytes → Q c old bytes) : Underway r gone t Q id s moved u where
  __ := h
  files c bytes hc hfile := by
    obtain ⟨old, hold, hbytes⟩ := h.files c bytes hc hfile
    exact ⟨old, hold, hbytes.imp_right (hPQ c old bytes)⟩

theorem step {gone' : Address → Prop} (hs : FillingStep r gone' s u s' v) (hgone : ∀ c, gone' c → gone c) :
    Underway r gone t P id s' moved v where
  root := hs.quarantine ▸ h.root
  id_eq := hs.id.trans h.id_eq
  isName := h.isName
  wf := hs.older.wf
  files c bytes hc hfile := h.files c bytes hc (hs.older.files c bytes hc hfile)
  stays c old hc hstays hfile := by
    obtain ⟨bytes, hbytes⟩ := h.stays c old hc hstays hfile
    exact ⟨bytes, hs.older.stays c bytes hc (fun hgo => hstays (hgone c hgo)) hbytes⟩
  disk := by
    obtain ⟨record, hrecord, hmoved⟩ := h.disk
    have hdisk := hs.disk record.contents (h.id_eq ▸ hrecord)
    rw [h.id_eq] at hdisk
    rcases hdisk with hold | hnew
    · exact ⟨record, hold, hmoved⟩
    · exact ⟨s'.record, hnew, fun p hp => hs.moved p (h.entries p hp)⟩
  entries p hp := hs.moved p (h.entries p hp)

theorem moveIn {result : Except QuarantineError Unit} (hpath : path.IsRelative m) (hm : NotStored m)
    (hgone : ∀ c, r ++ m <+: c → gone c) (hcall : MoveInOutcome s r path u (result, s') v) :
    Underway r gone t P id s' (if result.isOk then moved ++ [path] else moved) v := by
  obtain ⟨hstep, hok⟩ := hcall.step h.root h.isName_session h.wf hpath hm
  have hnext := h.step hstep hgone
  cases result with
  | error e => exact hnext
  | ok _ =>
    obtain ⟨hentry, hdisk⟩ := hok rfl
    have hentries : ∀ p ∈ moved ++ [path], s'.record.HasMoved p :=
      forall_mem_append.2 ⟨hnext.entries, forall_mem_singleton.2 hentry⟩
    rw [h.id_eq] at hdisk
    exact { hnext with disk := ⟨s'.record, hdisk, hentries⟩, entries := hentries }

theorem edit {a : Address} (ha : ¬ storeAt r <+: a) (hwf : v.WellFormed)
    (hsame : ∀ c, c ≠ a → v.get? c = u.get? c) (hPQ : ∀ c old bytes, P c old bytes → Q c old bytes)
    (hnew : ∀ bytes, v.get? a = some (.file bytes) → ∃ old, t.get? a = some (.file old) ∧ (bytes = old ∨ Q a old bytes))
    (hthere : ∃ bytes, v.get? a = some (.file bytes)) : Underway r gone t Q id s moved v where
  __ := h
  wf := hwf
  files c bytes hc hfile := by
    by_cases hca : c = a
    · subst hca
      exact hnew bytes hfile
    · rw [hsame c hca] at hfile
      exact (h.mono hPQ).files c bytes hc hfile
  stays c old hc hstays hfile := by
    by_cases hca : c = a
    · subst hca
      exact hthere
    · rw [hsame c hca]
      exact h.stays c old hc hstays hfile
  disk := by
    obtain ⟨record, hrecord, hmoved⟩ := h.disk
    refine ⟨record, ?_, hmoved⟩
    rwa [hsame]
    rintro rfl
    exact ha (storeAt_prefix_recordAt r id)

theorem unlock (p : Path) : Underway r gone t P id s moved (u.unlock p) where
  __ := h
  wf := h.wf.unlock p
  files c bytes hc hfile := h.files c bytes hc (get?_unlock p c ▸ hfile)
  stays c old hc hstays hfile := by
    rw [get?_unlock]
    exact h.stays c old hc hstays hfile
  disk := by
    rw [get?_unlock]
    exact h.disk

end Underway

/-! ## Files that go -/

structure CleanReport.Keeps (report report' : CleanReport) : Prop where
  sessionId : report'.sessionId = report.sessionId
  files : report.files ⊆ report'.files
  failed : report.failed ⊆ report'.failed

namespace CleanReport.Keeps

variable {report' report'' : CleanReport}

theorem refl (report : CleanReport) : report.Keeps report := ⟨rfl, Subset.refl _, Subset.refl _⟩

theorem trans (h : report.Keeps report') (h' : report'.Keeps report'') : report.Keeps report'' :=
  ⟨h'.sessionId.trans h.sessionId, fun _ hf => h'.files (h.files hf), fun _ hf => h'.failed (h.failed hf)⟩

theorem addFile (report : CleanReport) (u : SourceUnit) : report.Keeps (report.addFile u) :=
  ⟨rfl, subset_append_left _ _, Subset.refl _⟩

theorem addPruned (report : CleanReport) (p : Pruned) : report.Keeps (report.addPruned p) :=
  ⟨rfl, Subset.refl _, Subset.refl _⟩

theorem addFailure (report : CleanReport) (path : Path) (reason : String) :
    report.Keeps (report.addFailure path reason) :=
  ⟨rfl, Subset.refl _, subset_append_left _ _⟩

end CleanReport.Keeps

def CleanReport.Fails (report : CleanReport) (path : Path) : Prop := ∃ f ∈ report.failed, f.path = path

theorem CleanReport.fails_addFailure (report : CleanReport) (path : Path) (reason : String) :
    (report.addFailure path reason).Fails path :=
  ⟨⟨path, reason⟩, mem_append_right _ mem_cons_self, rfl⟩

theorem CleanReport.Fails.keeps {report' : CleanReport} {path : Path} (h : report.Fails path)
    (hkeeps : report.Keeps report') : report'.Fails path := by
  obtain ⟨f, hf, hpath⟩ := h
  exact ⟨f, hkeeps.failed hf, hpath⟩

/-- The path within the project is given by names that do not lead into the store. -/
def SourceUnit.IsWithin (u : SourceUnit) : Prop := u.relative.IsRelative u.relative.names ∧ NotStored u.relative.names

/-- **Every file is moved and recorded, or reported as failed.** -/
theorem endures_removeUnits {gone : Address → Prop} {w : FileTree} {P : Address → Bytes → Bytes → Prop}
    {us : List SourceUnit} (h : Underway r gone t P id session report.files w) (hus : ∀ u ∈ us, u.IsWithin)
    (hgone : ∀ u ∈ us, ∀ c, r ++ u.relative.names <+: c → gone c) :
    (Scan.removeUnits session report us).Endures (fun x w' => Underway r gone t P id x.2 x.1.files w' ∧
      report.Keeps x.1 ∧ ∀ u ∈ us, u.relative ∈ x.1.files ∨ x.1.Fails u.relative) w := by
  induction us generalizing session report w with
  | nil => exact endures_pure.2 ⟨h, .refl report, forall_mem_nil _⟩
  | cons u us ih =>
    obtain ⟨hu, hus⟩ := forall_mem_cons.1 hus
    obtain ⟨hgo, hgone⟩ := forall_mem_cons.1 hgone
    refine (OpenSession.endures_moveIn h.root h.isName_session h.wf u.relative).bind fun x w' hx => ?_
    obtain ⟨result, session'⟩ := x
    have hnext := h.moveIn hu.1 hu.2 hgo hx
    cases result with
    | ok _ =>
      have hnext : Underway r gone t P id session' (report.addFile u).files w' := hnext
      refine (ih hnext hus hgone).mono fun x w'' hx => ?_
      obtain ⟨hunderway, hkeeps, hall⟩ := hx
      refine ⟨hunderway, .trans (.addFile report u) hkeeps, forall_mem_cons.2 ⟨.inl ?_, hall⟩⟩
      exact hkeeps.files (mem_append_right _ mem_cons_self)
    | error e =>
      have hnext : Underway r gone t P id session' (report.addFailure u.relative e.message).files w' := hnext
      refine (ih hnext hus hgone).mono fun x w'' hx => ?_
      obtain ⟨hunderway, hkeeps, hall⟩ := hx
      refine ⟨hunderway, .trans (.addFailure ..) hkeeps, forall_mem_cons.2 ⟨.inr ?_, hall⟩⟩
      exact (report.fails_addFailure u.relative e.message).keeps hkeeps

/-! ## Files that stay -/

/-- The file of the plan is one of the project, as far as the paths go. -/
structure PruningPlan.IsPlaced (r : Address) (plan : PruningPlan) : Prop where
  relative : plan.relative.IsRelative plan.relative.names
  notStored : NotStored plan.relative.names
  leads : LeadsTo plan.path (r ++ plan.relative.names)

/-- The old contents are a text, and the new ones are what the plan leaves of it. -/
def PruningPlan.Applied (plan : PruningPlan) (old bytes : Bytes) : Prop :=
  ∃ text, old.text? = some text ∧ bytes = Bytes.ofText (prune text plan.imports).text

/-- The file of a plan has changed: it has been pruned, or it could not be written and is reported. -/
def Edited (r : Address) (plans : List PruningPlan) (report : CleanReport) (c : Address) (old bytes : Bytes) : Prop :=
  ∃ plan ∈ plans, c = r ++ plan.relative.names ∧ (plan.Applied old bytes ∨ report.Fails plan.relative)

section Prune

variable {w : FileTree} {plan : PruningPlan}

theorem endures_readText {p : Path} {Q : Final (Except FileError String)} (herror : ∀ e, Q (.error e) w)
    (hok : ∀ bytes text, w.read p = .ok bytes → bytes.text? = some text → Q (.ok text) w) :
    (readText p).Endures Q w := by
  refine endures_bind.2 (endures_read (fun e => endures_pure.2 (herror e)) fun bytes hbytes => endures_pure.2 ?_)
  cases htext : bytes.text? with
  | none => exact herror _
  | some text => exact hok bytes text hbytes htext

theorem endures_pruneFile (h : Underway r gone t P id session moved w) (hplan : plan.IsPlaced r)
    (hfresh : ∀ old bytes, ¬ P (r ++ plan.relative.names) old bytes) :
    (Scan.pruneFile session plan).Endures (fun x w' => Underway r gone t (fun c old bytes => P c old bytes ∨
      (c = r ++ plan.relative.names ∧ (plan.Applied old bytes ∨ ∃ reason, x.1 = .error reason))) id x.2 moved
        w') w := by
  have hstays {session' : OpenSession} {w' : FileTree} {result : Except String (Option Pruned)}
      (h : Underway r gone t P id session' moved w') := h.mono (Q := fun c old bytes => P c old bytes ∨
        (c = r ++ plan.relative.names ∧ (plan.Applied old bytes ∨ ∃ reason, result = .error reason))) fun _ _ _ => .inl
  have hstore : ¬ storeAt r <+: r ++ plan.relative.names := hplan.notStored.not_storeAt_isPrefix
  refine endures_bind.2 (endures_readText (fun e => endures_pure.2 (hstays h)) fun bytes text hread htext => ?_)
  obtain ⟨hfile, -⟩ := (read_eq_ok_iff h.wf hplan.leads).1 hread
  -- no plan has been applied to this file before
  obtain ⟨old, hold, hbytes⟩ := h.files _ bytes hstore hfile
  obtain rfl := hbytes.resolve_right (hfresh old bytes)
  dsimp only
  split
  · exact endures_pure.2 (hstays h)
  refine (OpenSession.endures_backUp h.root h.isName_session h.wf plan.relative _).bind fun x w' hx => ?_
  obtain ⟨result, session'⟩ := x
  have hstep := hx.step h.root h.isName_session hplan.relative
  have hnext := h.step hstep fun _ => False.elim
  cases result with
  | error e => exact endures_pure.2 (hstays hnext)
  | ok _ =>
    refine endures_bind.2 (endures_write (fun e w'' hw => endures_pure.2 ?_) fun w'' hw => endures_pure.2 ?_)
    · obtain ⟨hwf, hsame⟩ := same_of_mayWrite hnext.wf hplan.leads.absolute hw
      rw [hplan.leads.place_eq] at hsame
      refine hnext.edit hstore hwf hsame (fun _ _ _ => .inl)
        (fun new _ => ⟨bytes, hold, .inr (.inr ⟨rfl, .inr ⟨_, rfl⟩⟩)⟩) ?_
      rcases hw with rfl | ⟨new, hw⟩
      · exact ⟨bytes, hstep.older.stays _ _ hstore not_false hfile⟩
      · obtain ⟨-, -, hthere, -⟩ := room_of_write hnext.wf hplan.leads.absolute hw
        rw [hplan.leads.place_eq] at hthere
        exact ⟨new, hthere⟩
    · obtain ⟨hwf, -, hthere, hsame⟩ := room_of_write hnext.wf hplan.leads.absolute hw
      rw [hplan.leads.place_eq] at hthere hsame
      refine hnext.edit hstore hwf hsame (fun _ _ _ => .inl)
        (fun new hnew => ⟨bytes, hold, .inr (.inr ⟨rfl, .inl ?_⟩)⟩) ⟨_, hthere⟩
      rw [hthere] at hnew
      cases hnew
      exact ⟨text, htext, rfl⟩

theorem endures_pruneFiles {report : CleanReport} {done plans : List PruningPlan}
    (h : Underway r gone t (Edited r done report) id session report.files w) (hplans : ∀ plan ∈ plans, plan.IsPlaced r)
    (hnodup : ((done ++ plans).map (·.relative.names)).Nodup) :
    (Scan.pruneFiles session report plans).Endures (fun x w' =>
      Underway r gone t (Edited r (done ++ plans) x.1) id x.2 x.1.files w' ∧ report.Keeps x.1) w := by
  induction plans generalizing session report done w with
  | nil => exact endures_pure.2 ⟨(append_nil done).symm ▸ h, .refl report⟩
  | cons plan plans ih =>
    obtain ⟨hplan, hplans⟩ := forall_mem_cons.1 hplans
    have hfresh : ∀ old bytes, ¬ Edited r done report (r ++ plan.relative.names) old bytes := by
      rintro old bytes ⟨other, hother, hnames, -⟩
      rw [map_append, nodup_append] at hnodup
      refine hnodup.2.2 _ (mem_map_of_mem hother) _ (mem_map_of_mem mem_cons_self) ?_
      exact (append_cancel_left hnames).symm
    rw [append_cons] at hnodup ⊢
    refine (endures_pruneFile h hplan hfresh).bind fun x w' hx => ?_
    obtain ⟨result, session'⟩ := x
    -- whatever is reported next, what is known of the files before stays known
    have hnext {report' : CleanReport} (hkeeps : report.Keeps report') (hfiles : report'.files = report.files)
        (hfails : ∀ reason, result = .error reason → report'.Fails plan.relative) :
        Underway r gone t (Edited r (done ++ [plan]) report') id session' report'.files w' := by
      rw [hfiles]
      refine hx.mono ?_
      rintro c old bytes (⟨other, hother, hc, hedit⟩ | ⟨hc, hedit⟩)
      · exact ⟨other, mem_append_left _ hother, hc, hedit.imp_right fun hf => hf.keeps hkeeps⟩
      · refine ⟨plan, mem_append_right _ mem_cons_self, hc, hedit.imp_right ?_⟩
        rintro ⟨reason, hreason⟩
        exact hfails reason hreason
    cases result with
    | error reason =>
      exact (ih (hnext (.addFailure report plan.relative reason) rfl fun _ _ => report.fails_addFailure _ _) hplans
        hnodup).mono fun _ _ hx => ⟨hx.1, .trans (.addFailure report plan.relative reason) hx.2⟩
    | ok pruned =>
      cases pruned with
      | none => exact ih (hnext (.refl report) rfl nofun) hplans hnodup
      | some pruned =>
        exact (ih (hnext (.addPruned report pruned) rfl nofun) hplans hnodup).mono
          fun _ _ hx => ⟨hx.1, .trans (.addPruned report pruned) hx.2⟩

end Prune

/-! ## What a scan gives -/

/-- What is known of a scan when the project may have changed since: the graph is that of its units, which have
different paths below the root of the project. -/
structure Scan.IsOutcome (r : Address) (s : Scan) : Prop where
  root : LeadsTo s.root r
  graph : s.graph = build s.graph.units
  names : (s.graph.units.map (·.relative.names)).Nodup
  units : ∀ u ∈ s.graph.units, u.IsWithin ∧ LeadsTo u.path (r ++ u.relative.names)

theorem projectFiles_of_file (wf : t.WellFormed) (hr : t.get? r = some (.file contents)) (exclusion : Selection) :
    answer t (projectFiles exclusion (pathOf r)) = [pathOf r] := by
  have hnames := wf.isName hr
  have hfile : answer t (isDirectory (pathOf r)) = false := by
    rw [isDirectory, (reading_status _).answer_bind, answer_status]
    cases hfind : t.find (pathOf r) with
    | error e => rfl
    | ok x =>
      obtain ⟨b, n⟩ := x
      have hn := ((find_eq_ok_iff wf (leadsTo_pathOf hnames)).1 hfind).2.1
      rw [hr] at hn
      cases hn
      rfl
  rw [projectFiles, (reading_isDirectory _).answer_bind, hfile]
  rfl

theorem places_of_file {found : Discovery} (wf : t.WellFormed) (hr : t.get? r = some (.file contents))
    (hfound : answer t (discover config (pathOf r)) = .ok found) :
    found.files.map SourceFile.places = [] ∨ found.files.map SourceFile.places = [(pathOf r, ⟨""⟩)] := by
  have hnames := wf.isName hr
  obtain ⟨exclusion, places, hsub, hperm⟩ := places_discover hfound
  have hbelow : (pathOf r).below? (pathOf r) = some ⟨""⟩ := by
    have h := below?_pathOf hnames (forall_mem_nil _)
    rwa [append_nil] at h
  rw [projectFiles_of_file wf hr, map_singleton, withRelative, hbelow] at hsub
  rcases sublist_singleton.1 hsub with rfl | rfl
  · exact .inl (perm_nil.1 hperm)
  · exact .inr (perm_singleton.1 hperm)

theorem isOutcome_of_scan [TreeReader] {directory : Path} (wf : t.WellFormed)
    (h : answer t (scan config directory) = .ok s) : ∃ r, s.IsOutcome r := by
  obtain ⟨r, hroot, hthere, hfound⟩ := isOutcomeOf_scan wf h
  obtain ⟨r', found, hroot', hthere', hdiscover, hgraph⟩ := exists_found_of_scan h
  have hunits : s.graph.units = _ := hgraph ▸ units_build _
  have hbuild : s.graph = build s.graph.units := by
    rw [hunits]
    exact hgraph
  obtain ⟨n, hn⟩ := Option.isSome_iff_exists.1 hthere'
  have hnames := wf.isName hn
  obtain rfl : r = r' := hroot.place_eq.symm.trans (hroot' ▸ (leadsTo_pathOf hnames).place_eq)
  refine ⟨r, ?_⟩
  cases n with
  | directory =>
    refine ⟨hroot, hbuild, (hfound hn).names, fun u hu => ?_⟩
    obtain ⟨contents, hu⟩ := (hfound hn).found u hu
    exact ⟨⟨hu.file.relative, hu.file.outside.2⟩, hu.leads⟩
  | file contents =>
    have hplaces := hgraph ▸ places_build t found.files
    have hmap : s.graph.units.map (·.relative.names) = (s.graph.units.map SourceUnit.places).map (·.2.names) := by
      rw [map_map]
      rfl
    rcases places_of_file wf hn hdiscover with hnone | hone
    · rw [hnone, map_eq_nil_iff] at hplaces
      rw [hplaces] at hmap
      refine ⟨hroot, hbuild, by rw [hplaces]; exact nodup_nil, ?_⟩
      rw [hplaces]
      exact forall_mem_nil _
    · rw [hone] at hplaces
      refine ⟨hroot, hbuild, by rw [hmap, hplaces]; exact nodup_singleton _, fun u hu => ?_⟩
      have hmem := mem_map_of_mem (f := SourceUnit.places) hu
      rw [hplaces, mem_singleton] at hmem
      obtain ⟨hpath, hrelative⟩ := (Prod.mk.injEq ..).mp hmem
      rw [SourceUnit.IsWithin, hpath, hrelative]
      exact ⟨⟨⟨by decide, by decide⟩, by decide⟩, (append_nil r).symm ▸ leadsTo_pathOf hnames⟩

namespace Scan.IsOutcome

theorem isPlaced (h : s.IsOutcome r) {plan : PruningPlan} (hplan : plan ∈ s.graph.pruningPlans removed) :
    plan.IsPlaced r := by
  obtain ⟨i, u, hu, -, hrelative, hpath, -⟩ := exists_of_mem_pruningPlans hplan
  obtain ⟨⟨hrel, hstored⟩, hleads⟩ := h.units u (mem_of_getElem? hu)
  exact ⟨hrelative ▸ hrel, hrelative ▸ hstored, hrelative ▸ hpath ▸ hleads⟩

theorem isWithin (h : s.IsOutcome r) {u : SourceUnit} (hu : u ∈ s.unitsAt removed) : u.IsWithin := by
  obtain ⟨i, -, hi⟩ := Scan.exists_of_mem_unitsAt hu
  exact (h.units u (mem_of_getElem? hi)).1

end Scan.IsOutcome

/-- The text without some lines of a unit, each with imports of removed units, which it holds. -/
def Scan.Scrubbed (s : Scan) (removed : List Nat) (i : Nat) (v : SourceUnit) (old bytes : Bytes) : Prop :=
  ∃ text kept, old.text? = some text ∧
    LinesLeft ((Catalog.ofUnits s.graph.units).StaleLine ⟨i, v.relText, v⟩ removed) 1 (Text.rawLines text) kept ∧
    bytes = Bytes.ofText (String.join kept)

theorem Scan.IsOutcome.scrubbed {plan : PruningPlan} (h : s.IsOutcome r)
    (hplan : plan ∈ s.graph.pruningPlans removed) : ∃ i v, s.graph.units[i]? = some v ∧ i ∉ removed ∧
      plan.relative = v.relative ∧ ∀ old bytes, plan.Applied old bytes → s.Scrubbed removed i v old bytes := by
  obtain ⟨i, v, hv, hstays, -, rfl⟩ := eq_of_mem_pruningPlans hplan
  refine ⟨i, v, hv, hstays, rfl, ?_⟩
  rintro old bytes ⟨text, htext, rfl⟩
  obtain ⟨kept, hkept, hprune⟩ := linesLeft_pruneLines (s.graph.staleImports removed i v) 1 (Text.rawLines text)
  refine ⟨text, kept, htext, hkept.mono ?_, congrArg Bytes.ofText hprune⟩
  rintro n line ⟨x, hx, rfl, hwhole⟩
  rw [h.graph] at hx
  exact staleLine_of_mem_staleImports hv hx hwhole

/-! ## Cleaning -/

/-- What cleaning has done to a tree `t`, which is `u` now. -/
structure CleanedTo (s : Scan) (r : Address) (removed : List Nat) (t : FileTree) (report : CleanReport) (u : FileTree) :
    Prop where
  /-- A file outside the store that is still there is as it was, or it is that of a unit that stays. Such a file lacks
  some lines, all of whose imports led to removed units, or it could not be written and is reported. -/
  files : ∀ c bytes, ¬ storeAt r <+: c → u.get? c = some (.file bytes) → ∃ old, t.get? c = some (.file old) ∧
    (bytes = old ∨ ∃ i v, s.graph.units[i]? = some v ∧ i ∉ removed ∧ c = r ++ v.relative.names ∧
      (s.Scrubbed removed i v old bytes ∨ report.Fails v.relative))
  /-- No file is gone but those of removed units, and what is below. -/
  stays : ∀ c old, ¬ storeAt r <+: c →
    (∀ i ∈ removed, ∀ v, s.graph.units[i]? = some v → ¬ r ++ v.relative.names <+: c) →
    t.get? c = some (.file old) → ∃ bytes, u.get? c = some (.file bytes)
  removed : ∀ i ∈ removed, ∀ v, s.graph.units[i]? = some v → v.relative ∈ report.files ∨ report.Fails v.relative
  recorded : report.files = [] ∨ ∃ id record, report.sessionId = some id ∧
    u.get? (recordAt r id) = some (.file (SessionRecord.contents record)) ∧ ∀ p ∈ report.files, record.HasMoved p

/-- The address is at or below the place of a removed unit. -/
def Scan.GoneAt (s : Scan) (r : Address) (removed : List Nat) (c : Address) : Prop :=
  ∃ v ∈ s.unitsAt removed, r ++ v.relative.names <+: c

theorem Underway.cleanedTo {u : FileTree} (hs : s.IsOutcome r)
    (h : Underway r (s.GoneAt r removed) t (Edited r (s.graph.pruningPlans removed) report) id session report.files u)
    (hid : report.sessionId = some id)
    (hremoved : ∀ v ∈ s.unitsAt removed, v.relative ∈ report.files ∨ report.Fails v.relative) :
    CleanedTo s r removed t report u where
  files c bytes hc hfile := by
    obtain ⟨old, hold, hbytes⟩ := h.files c bytes hc hfile
    refine ⟨old, hold, hbytes.imp_right ?_⟩
    rintro ⟨plan, hplan, hnames, hedit⟩
    obtain ⟨i, v, hv, hstays, hrelative, hscrubbed⟩ := hs.scrubbed hplan
    rw [hrelative] at hnames hedit
    exact ⟨i, v, hv, hstays, hnames, hedit.imp_left (hscrubbed old bytes)⟩
  stays c old hc hstays hfile := by
    refine h.stays c old hc ?_ hfile
    rintro ⟨v, hv, hbelow⟩
    obtain ⟨i, hi, hiv⟩ := Scan.exists_of_mem_unitsAt hv
    exact hstays i hi v hiv hbelow
  removed i hi v hv := hremoved v (mem_filterMap.2 ⟨i, hi, hv⟩)
  recorded := by
    obtain ⟨record, hdisk, hmoved⟩ := h.disk
    exact .inr ⟨id, record, hid, hdisk, hmoved⟩

theorem endures_clean (hs : s.IsOutcome r) (wf : t.WellFormed) (now : Moment)
    (extra : List Path) : (s.clean now extra).run.Endures (fun result u =>
      (∀ e, result = .error e → Older r (fun _ => False) t u) ∧
        ∀ report, result = .ok report → CleanedTo s r (s.removal extra).1 t report u) t := by
  unfold Scan.clean
  dsimp only
  split
  · rename_i hempty
    refine endures_pure.2 ⟨nofun, fun report hreport => ?_⟩
    cases hreport
    rw [List.isEmpty_iff.1 hempty]
    exact ⟨fun c bytes _ hfile => ⟨bytes, hfile, .inl rfl⟩, fun c old _ _ hfile => ⟨old, hfile⟩, forall_mem_nil _,
      .inl rfl⟩
  · refine endures_run_bind (Quarantine.endures_openSession wf hs.root now)
      (fun e u hu => ⟨fun _ _ => hu.1, nofun⟩) fun session u hu => ?_
    obtain ⟨holder, hsession⟩ := hu
    obtain ⟨hquarantine, hid, hdisk⟩ := hsession session rfl
    let first : CleanReport := { failed := (s.removal extra).2, sessionId := some session.record.id }
    have hstart : Underway r (s.GoneAt r (s.removal extra).1) t (fun _ _ _ => False) session.record.id session
        first.files u :=
      ⟨hquarantine ▸ hs.root, rfl, hid, holder.wf,
        fun c bytes hc hfile => ⟨bytes, holder.files c bytes hc hfile, .inl rfl⟩,
        fun c old hc _ hfile => ⟨old, holder.stays c old hc not_false hfile⟩,
        ⟨session.record, hdisk, forall_mem_nil _⟩, forall_mem_nil _⟩
    refine endures_lift_bind (endures_removeUnits hstart (fun v hv => hs.isWithin hv)
      fun v hv c hc => ⟨v, hv, hc⟩) fun x w hx => ?_
    obtain ⟨hunderway, hkeeps, hall⟩ := hx
    have hplans : Underway r (s.GoneAt r (s.removal extra).1) t (Edited r [] x.1) session.record.id x.2 x.1.files w :=
      hunderway.mono fun _ _ _ => False.elim
    refine endures_lift_bind (endures_pruneFiles hplans (fun plan hplan => hs.isPlaced hplan)
      (nodup_pruningPlans hs.names _))
      fun y w' hy => ?_
    obtain ⟨hunderway', hkeeps'⟩ := hy
    refine endures_lift_bind (R := fun _ w'' => Underway r (s.GoneAt r (s.removal extra).1) t
      (Edited r (s.graph.pruningPlans (s.removal extra).1) y.1) session.record.id y.2 y.1.files w'')
      (endures_bind.2 (endures_unlock (endures_pure.2 (hunderway'.unlock _))))
      fun _ w'' hw => endures_pure.2 ⟨nofun, fun report hreport => ?_⟩
    cases hreport
    refine hw.cleanedTo hs (hkeeps'.sessionId.trans hkeeps.sessionId) fun v hv => ?_
    exact (hall v hv).imp (fun hf => hkeeps'.files hf) fun hf => hf.keeps hkeeps'

/-- **Cleaning prunes lines of removed files**, whatever has changed since the scan and whichever operations fail. A
file that stays loses only lines with an import, and all imports of such a line led to files that were to be removed,
or to the file itself. Each of those is reported: as removed, with an entry in the record; or as failed, and then its
imports are pruned nonetheless. If a file that stays has other contents in the end, it could not be written, and is
reported as failed. -/
theorem clean_prunes_stale_lines [TreeReader] (s : Scan) {t u : FileTree} (wf : t.WellFormed) (now : Moment) (extra : List Path)
    (faults : List (Option FileFault)) {result : Except QuarantineError CleanReport}
    (hrun : (s.clean now extra).run.runWith faults t = (result, u)) :
    (∀ t₀ config directory, t₀.WellFormed → answer t₀ (scan config directory) = .ok s → ∃ r, s.IsOutcome r) ∧
    ∀ r, s.IsOutcome r → (∀ e, result = .error e → Older r (fun _ => False) t u) ∧
      ∀ report, result = .ok report → CleanedTo s r (s.removal extra).1 t report u := by
  refine ⟨fun _ _ _ wf₀ hscan => isOutcome_of_scan wf₀ hscan, fun r hs => ?_⟩
  have h := endures_iff.1 (endures_clean hs wf now extra) faults
  rw [hrun] at h
  exact h

theorem isOutcome_importingScan : importingScan.IsOutcome ["p"] := by
  have hunits : importingScan.graph.units = importingUnits := units_build _
  refine ⟨leadsTo_p, congrArg build hunits.symm, ?_, ?_⟩
  · rw [hunits]
    decide
  · rw [hunits, importingUnits, forall_mem_cons, forall_mem_singleton]
    exact ⟨⟨⟨⟨by decide, by decide⟩, by decide⟩, ⟨by decide, by decide⟩⟩,
      ⟨⟨by decide, by decide⟩, by decide⟩, ⟨by decide, by decide⟩⟩

/-- The second script is removed, and the first one loses its import. -/
theorem clean_prunes_stale_lines_importing :
    let tree := importingTree (some (.file [10]))
    importingScan.IsOutcome ["p"] ∧ tree.WellFormed ∧ ∃ report u,
      (importingScan.clean ⟨20000, 0, 0⟩ [⟨"b.js"⟩]).run.runWith [] tree = (.ok report, u) ∧
      report.files.length = 1 ∧ report.importsPruned = 1 ∧
      CleanedTo importingScan ["p"] (importingScan.removal [⟨"b.js"⟩]).1 tree report u := by
  intro tree
  have hwf : tree.WellFormed := by decide
  have hrun : (((importingScan.clean ⟨20000, 0, 0⟩ [⟨"b.js"⟩]).run.runWith [] tree).1.toOption.any fun report =>
      report.files.length = 1 ∧ report.importsPruned = 1) = true := by
    decide +kernel
  generalize hresult : (importingScan.clean ⟨20000, 0, 0⟩ [⟨"b.js"⟩]).run.runWith [] tree = run at hrun ⊢
  obtain ⟨result, u⟩ := run
  obtain ⟨report, hreport, hcounts⟩ := (Option.any_eq_true _ _).1 hrun
  obtain ⟨hfiles, himports⟩ := of_decide_eq_true hcounts
  obtain rfl : result = .ok report := eq_ok_of_toOption hreport
  have hcleaned := (clean_prunes_stale_lines importingScan hwf _ _ _ hresult).2 ["p"] isOutcome_importingScan
  exact ⟨isOutcome_importingScan, hwf, report, u, rfl, hfiles, himports, hcleaned.2 report rfl⟩

/-- **Lines are pruned for files that are not moved.** The second script has vanished since the scan, so it is not
removed and is reported as failed; the import of it is pruned. -/
theorem clean_prunes_unmoved :
    let run := (importingScan.clean ⟨20000, 0, 0⟩ [⟨"b.js"⟩]).run.run (importingTree none)
    (run.1.toOption.any fun report => report.files.length = 0 ∧ report.failed.length = 1 ∧ report.importsPruned = 1) =
      true ∧ run.2.get? ["p", "a.js"] = some (.file (Bytes.ofText "f();\n")) := by
  decide +kernel

end Deadwood
