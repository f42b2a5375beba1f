import Deadwood.Proofs.FileFaults

/-!
# Where any path leads

A path may be absolute, go up by `..` as often as it likes, or pass through directories that are not there. In
a tree without links it can lead to one address only, which its components tell.

* `Path.place`, **`FileTree.reaches_place`**: the address that a path leads to, if it leads anywhere.
-/

namespace Deadwood

open List FileTree Deadwood.Path

/-! ## Components -/

def Component.enter (a : Address) : Component → Address
  | normal name => a ++ [name]
  | parent => a.dropLast
  | _ => a

/-- The address that components lead to from another, whatever is on the way. -/
def descend (a : Address) (cs : List Component) : Address := cs.foldl Component.enter a

def Path.place (p : Path) : Address := descend [] p.components

/-- The path leads through the address, or to it. -/
def Path.Passes (p : Path) (c : Address) : Prop := ∃ cs, cs <+: p.components ∧ c = descend [] cs

theorem descend_append (a : Address) (cs ds : List Component) : descend a (cs ++ ds) = descend (descend a cs) ds :=
  foldl_append

theorem descend_names (a : Address) (names : List String) : descend a (names.map .normal) = a ++ names := by
  induction names generalizing a with
  | nil => exact (append_nil a).symm
  | cons name names ih => exact (ih _).trans (append_assoc a [name] names)

namespace Path

variable {p q : Path} {a : Address}

theorem descend_components (a : Address) (p : Path) : descend a p.components = descend a p.named := by
  rw [components_eq, descend_append, start]
  split
  · rfl
  · split <;> rfl

theorem place_join (hq : q.isAbsolute = false) : (p.join q).place = descend p.place q.components := by
  rw [place, place, descend_components, descend_components, descend_components, named_join hq, descend_append]

theorem place_join_of_isAbsolute (hq : q.isAbsolute = true) : (p.join q).place = q.place := by
  rw [join, if_pos hq]

theorem LeadsTo.place_eq (h : LeadsTo p a) : p.place = a := by
  rw [place, descend_components, h.named, descend_names, nil_append]

theorem IsRelative.descend_eq {names : List String} (h : IsRelative p names) (a : Address) :
    descend a p.components = a ++ names := by
  rw [descend_components, h.named, descend_names]

theorem isAbsolute_of_head (h : p.components.head? = some .root) : p.isAbsolute = true := by
  by_contra habs
  rw [components_eq, start, if_neg habs] at h
  split at h
  · cases h
  · rw [nil_append] at h
    rcases mem_namedIn (mem_of_head? h) with h | ⟨_, h⟩ <;> cases h

theorem isAbsolute_of_isPrefix (hp : p.isAbsolute = true) (h : p.components <+: q.components) :
    q.isAbsolute = true := by
  obtain ⟨cs, hcs⟩ := h
  refine isAbsolute_of_head ?_
  rw [← hcs, components_of_isAbsolute hp]
  rfl

theorem isAbsolute_parent? (hp : p.isAbsolute = true) (h : p.parent? = some q) : q.isAbsolute = true := by
  obtain ⟨xs, hxs⟩ := head?_eq_some_iff.1 (isAbsolute_iff.1 hp)
  unfold parent? at h
  simp only [hp, Bool.true_or, if_true, hxs, take_succ_cons, take_zero] at h
  split at h
  · cases h
  · cases h
    exact isAbsolute_iff.2 (by rw [String.toList_ofList]; rfl)

theorem passes_place (p : Path) : p.Passes p.place := ⟨p.components, prefix_rfl, rfl⟩

theorem Passes.mono {c : Address} (h : q.Passes c) (hqp : q.components <+: p.components) : p.Passes c := by
  obtain ⟨cs, hcs, hc⟩ := h
  exact ⟨cs, hcs.trans hqp, hc⟩

theorem prefix_of_parent? (h : p.parent? = some q) : q.components <+: p.components := by
  rw [components_parent? h]
  exact dropLast_prefix _

end Path

/-! ## Operations at any path -/

namespace FileTree

variable {t u : FileTree} {p q : Path} {a b : Address}

theorem follow_eq_ok (wf : t.WellFormed) {cs : List Component} (hnames : ∀ name, .normal name ∈ cs → IsName name)
    (ha : t.get? a = some .directory) (h : t.follow a cs = .ok b) : b = descend a cs ∧ (b = [] ∨ t.Room b) := by
  induction cs generalizing a with
  | nil =>
    cases h
    exact ⟨rfl, or_iff_not_imp_left.2 fun hne => wf.room hne ha⟩
  | cons c cs ih =>
    have hrest : ∀ name, .normal name ∈ cs → IsName name := fun name hname => hnames name (mem_cons_of_mem _ hname)
    cases c with
    | root | current => exact ih hrest ha h
    | parent =>
      refine ih hrest ?_ h
      by_cases hnil : a = []
      · rw [hnil]
        rfl
      · exact wf.parent hnil ha
    | normal name =>
      rw [follow] at h
      split at h
      · cases h
      rename_i hshort
      split at h
      · rename_i hlast
        rw [List.isEmpty_iff] at hlast
        subst hlast
        cases h
        refine ⟨rfl, .inr ⟨by simp, fun x hx => ?_, by rwa [dropLast_concat]⟩⟩
        rcases mem_append.1 hx with hx | hx
        · exact wf.isFileName ha x hx
        · rw [mem_singleton.1 hx]
          exact ⟨hnames name mem_cons_self, Nat.le_of_not_lt hshort⟩
      · split at h
        · cases h
        · cases h
        · rename_i hdir
          exact ih hrest hdir h

section

variable (wf : t.WellFormed) (hp : p.isAbsolute = true)
include wf hp

/-- **An absolute path leads to its place**, if it leads anywhere. -/
theorem reaches_place : t.Reaches p p.place := by
  intro b h
  rw [address] at h
  split at h
  · cases h
  have hnames : ∀ name, .normal name ∈ p.components → IsName name := fun name hname => by
    rw [components_of_isAbsolute hp] at hname
    rcases mem_cons.1 hname with hroot | hname
    · cases hroot
    · exact isName_of_mem_named hname
  obtain ⟨rfl, hroom⟩ := follow_eq_ok wf hnames rfl h
  exact ⟨rfl, hroom⟩

theorem room_of_write {contents : Bytes}
    (h : t.write p contents = .ok u) : u.WellFormed ∧ t.get? p.place ≠ some .directory ∧
      u.get? p.place = some (.file contents) ∧ ∀ c, c ≠ p.place → u.get? c = t.get? c := by
  obtain ⟨hroom, hdir, -, rfl⟩ := (reaches_place wf hp).write h
  refine ⟨hroom.put wf (.inr hdir), hdir, ?_, fun c hc => ?_⟩
  · rw [get?_put hroom.ne_nil, if_pos rfl]
  · rw [get?_put hroom.ne_nil, if_neg hc]

theorem same_of_mayWrite (h : FileTask.MayWrite p t u) : u.WellFormed ∧ ∀ c, c ≠ p.place → u.get? c = t.get? c := by
  rcases h with rfl | ⟨bytes, h⟩
  · exact ⟨wf, fun _ _ => rfl⟩
  · obtain ⟨hwf, -, -, hrest⟩ := room_of_write wf hp h
    exact ⟨hwf, hrest⟩

end

/-! ## Directories that are made -/

/-- Directories have been made on the way to the place of a path. -/
structure Made (p : Path) (t u : FileTree) : Prop where
  wf : u.WellFormed
  get? : ∀ c, u.get? c = t.get? c ∨ (t.get? c = none ∧ u.get? c = some .directory ∧ p.Passes c)

namespace Made

variable {v : FileTree}

theorem refl (wf : t.WellFormed) : Made p t t := ⟨wf, fun _ => .inl rfl⟩

theorem trans (h : Made p t u) (h' : Made p u v) : Made p t v := by
  refine ⟨h'.wf, fun c => ?_⟩
  rcases h.get? c with hc | ⟨hnone, hdir, hpass⟩
  · rw [← hc]
    exact h'.get? c
  · rcases h'.get? c with hc' | ⟨hnone', -⟩
    · exact .inr ⟨hnone, hc'.trans hdir, hpass⟩
    · rw [hdir] at hnone'
      cases hnone'

theorem mono (h : Made q t u) (hqp : q.components <+: p.components) : Made p t u :=
  ⟨h.wf, fun c => (h.get? c).imp_right fun hc => ⟨hc.1, hc.2.1, hc.2.2.mono hqp⟩⟩

theorem file_iff (h : Made p t u) {c : Address} {bytes : Bytes} :
    u.get? c = some (.file bytes) ↔ t.get? c = some (.file bytes) := by
  rcases h.get? c with hc | ⟨hnone, hdir, -⟩
  · rw [hc]
  · rw [hnone, hdir]
    exact ⟨nofun, nofun⟩

theorem get?_of_isSome (h : Made p t u) {c : Address} (hc : (t.get? c).isSome) : u.get? c = t.get? c :=
  (h.get? c).resolve_right fun hmade => by rw [hmade.1] at hc; cases hc

end Made

theorem made_of_makeDirectory (wf : t.WellFormed) (hp : p.isAbsolute = true) (h : t.makeDirectory p = .ok u) :
    Made p t u := by
  obtain ⟨hroom, hnone, rfl⟩ := (reaches_place wf hp).makeDirectory h
  refine ⟨hroom.put wf (.inl rfl), fun c => ?_⟩
  rw [get?_put hroom.ne_nil]
  split
  · rename_i hc
    exact .inr ⟨hc ▸ hnone, rfl, hc ▸ p.passes_place⟩
  · exact .inl rfl

/-! ## Directories that are removed -/

/-- Empty directories have been removed on the way to the place of a path. -/
structure Emptied (p : Path) (t u : FileTree) : Prop where
  wf : u.WellFormed
  get? : ∀ c, u.get? c = t.get? c ∨ (t.get? c = some .directory ∧ u.get? c = none ∧ p.Passes c)

namespace Emptied

variable {v : FileTree}

theorem refl (wf : t.WellFormed) : Emptied p t t := ⟨wf, fun _ => .inl rfl⟩

theorem trans (h : Emptied p t u) (h' : Emptied p u v) : Emptied p t v := by
  refine ⟨h'.wf, fun c => ?_⟩
  rcases h'.get? c with hc | ⟨hdir, hnone, hpass⟩
  · rw [hc]
    exact h.get? c
  · rcases h.get? c with hc | ⟨-, hnone', -⟩
    · exact .inr ⟨hc.symm.trans hdir, hnone, hpass⟩
    · rw [hnone'] at hdir
      cases hdir

theorem file_iff (h : Emptied p t u) {c : Address} {bytes : Bytes} :
    u.get? c = some (.file bytes) ↔ t.get? c = some (.file bytes) := by
  rcases h.get? c with hc | ⟨hdir, hnone, -⟩
  · rw [hc]
  · rw [hnone, hdir]
    exact ⟨nofun, nofun⟩

theorem none_of_none (h : Emptied p t u) {c : Address} (hc : t.get? c = none) : u.get? c = none := by
  rcases h.get? c with hc' | ⟨-, hnone, -⟩
  · rw [hc', hc]
  · exact hnone

end Emptied

theorem nodes_eq_nil (wf : t.WellFormed) (h : ∀ x, x ≠ [] → t.get? x = none) : t.nodes = [] := by
  rw [eq_nil_iff_forall_not_mem]
  intro x hx
  have hsome := wf.isSome_of_mem hx
  rw [h x.1 (wf.below x hx)] at hsome
  cases hsome

theorem emptied_of_removeDirectory (wf : t.WellFormed) (hp : p.isAbsolute = true) (hpq : p.components <+: q.components)
    (h : t.removeDirectory p = .ok u) : Emptied q t u := by
  obtain ⟨hdir, hempty, rfl⟩ := (reaches_place wf hp).removeDirectory wf h
  have hbelow : ∀ x, x ≠ [] → t.get? (p.place ++ x) = none := fun x hx => wf.get?_below_empty hempty hx
  by_cases hnil : p.place = []
  · -- the top itself stays
    rw [hnil] at hbelow ⊢
    have hnodes := nodes_eq_nil wf hbelow
    have hget (c : Address) : (t.erase []).get? c = t.get? c := by
      simp [FileTree.get?, erase, hnodes]
    refine ⟨⟨?_, ?_, ?_, ?_⟩, fun c => .inl (hget c)⟩ <;> simp [erase, hnodes]
  · refine ⟨wf.erase hnil, fun c => ?_⟩
    rw [get?_erase hnil]
    split
    · rename_i hc
      obtain ⟨x, rfl⟩ := hc
      by_cases hx : x = []
      · rw [hx, append_nil]
        exact .inr ⟨hdir, rfl, p.passes_place.mono hpq⟩
      · exact .inl (hbelow x hx).symm
    · exact .inl rfl

/-! ## What is carried from one address to another -/

/-- What was at and below `a` is at and below `b`. If they are the same address, it is as it was, or gone. -/
structure Carried (a b : Address) (t u : FileTree) : Prop where
  wf : u.WellFormed
  source : (t.get? a).isSome
  target : a ≠ b → ∀ x, u.get? (b ++ x) = t.get? (a ++ x)
  gone : a ≠ b → ∀ x, u.get? (a ++ x) = none
  /-- What is below stays, if nothing is carried. -/
  stays : a = b → ∀ x, x ≠ [] → u.get? (a ++ x) = t.get? (a ++ x)
  rest : ∀ c, ¬ a <+: c → ¬ b <+: c → u.get? c = t.get? c

variable (wf : t.WellFormed) (hp : p.isAbsolute = true) (hq : q.isAbsolute = true)
include wf hp hq

theorem carried_of_move (h : t.move p q = .ok u) : Carried p.place q.place t u := by
  have hpr := reaches_place wf hp
  have hqr := reaches_place wf hq
  by_cases hab : p.place = q.place
  · obtain ⟨hsource, rfl⟩ := hpr.move_self (hab ▸ hqr) h
    exact ⟨wf, hsource, fun hne => absurd hab hne, fun hne => absurd hab hne, fun _ _ _ => rfl, fun _ _ _ => rfl⟩
  · obtain ⟨hmov, -, -, rfl⟩ := hpr.move wf hqr hab h
    exact ⟨wf.transfer hmov, hmov.source, fun _ => get?_transfer_target wf hmov,
      fun _ => get?_transfer_source wf hmov, fun heq => absurd heq hab,
      fun c => get?_transfer_rest wf hmov⟩

theorem carried_of_copy {v : FileTree} {size : Nat} (h : t.copy p q = .ok (size, u)) (h' : u.removeFile p = .ok v) :
    Carried p.place q.place t v := by
  obtain ⟨contents, hfile, -, -, hwrite⟩ := (reaches_place wf hp).copy (reaches_place wf hq) h
  obtain ⟨hroom, hdir, -, rfl⟩ := (reaches_place wf hq).write hwrite
  have hwf := hroom.put (n := .file (if p.place = q.place then [] else contents)) wf (.inr hdir)
  obtain ⟨-, -, rfl⟩ := (reaches_place hwf hp).removeFile h'
  have hne : p.place ≠ [] := fun hnil => by rw [hnil] at hfile; cases hfile
  have hsource : (t.get? p.place).isSome := by rw [hfile]; rfl
  generalize hb : q.place = b at *
  generalize ha : p.place = a at *
  have hbelow (x : Address) (hx : x ≠ []) : t.get? (a ++ x) = none := wf.get?_below_file hx hfile
  by_cases hab : a = b
  · subst hab
    refine ⟨hwf.erase hne, hsource, fun h => absurd rfl h, fun h => absurd rfl h, fun _ x hx => ?_, fun c hc _ => ?_⟩
    · rw [get?_erase hne, if_pos (prefix_append a x), hbelow x hx]
    · rw [get?_erase hne, if_neg hc, get?_put hne, if_neg (by rintro rfl; exact hc prefix_rfl)]
  · obtain ⟨hapart, hapart'⟩ := apart_of_file wf hfile hroom hdir hab
    refine ⟨hwf.erase hne, hsource, fun _ x => ?_, fun _ x => ?_, fun h => absurd h hab, fun c hc hc' => ?_⟩
    · have hx : ¬ a <+: b ++ x := fun hx =>
        (List.prefix_or_prefix_of_prefix hx (prefix_append b x)).elim hapart hapart'
      rw [get?_erase hne, if_neg hx, get?_put hroom.ne_nil]
      by_cases hnil : x = []
      · rw [hnil, append_nil, append_nil, if_pos rfl, if_neg hab, hfile]
      · rw [if_neg (by simpa using hnil), hbelow x hnil]
        cases hget : t.get? b with
        | none => exact wf.get?_append_eq_none hget
        | some n =>
          cases n with
          | directory => exact absurd hget hdir
          | file bytes => exact wf.get?_below_file hnil hget
    · rw [get?_erase hne, if_pos (prefix_append a x)]
    · rw [get?_erase hne, if_neg hc, get?_put hroom.ne_nil, if_neg (by rintro rfl; exact hc' prefix_rfl)]

end FileTree

/-! ## Steps that may fail -/

namespace FileTask

variable {t : FileTree} {p q root : Path}

theorem endures_isDirectory {Q : Final Bool} (h : ∀ found, Q found t) : (isDirectory p).Endures Q t :=
  endures_bind.2 (endures_status (fun _ => endures_pure.2 (h _)) fun _ _ _ => endures_pure.2 (h _))

section

variable (wf : t.WellFormed) (hp : p.isAbsolute = true)
include wf hp

theorem endures_makeDirectoriesWithin (fuel : Nat) :
    (makeDirectoriesWithin fuel p).Endures (fun _ u => Made p t u) t := by
  have hcheck {t u : FileTree} {p : Path} {e : FileError} (h : Made p t u) :
      (do return if ← isDirectory p then .ok () else .error e : FileTask (Except FileError Unit)).Endures
        (fun _ v => Made p t v) u :=
    endures_bind.2 (endures_isDirectory fun _ => endures_pure.2 h)
  induction fuel generalizing p t with
  | zero => exact endures_pure.2 (.refl wf)
  | succ fuel ih =>
    rw [makeDirectoriesWithin]
    refine endures_bind.2 (endures_makeDirectory (fun e => ?_)
      fun u hu => endures_pure.2 (made_of_makeDirectory wf hp hu))
    split
    · exact endures_pure.2 (.refl wf)
    · split
      · exact endures_pure.2 (.refl wf)
      · rename_i above habove
        split
        · exact endures_pure.2 (.refl wf)
        · refine (ih wf (isAbsolute_parent? hp habove)).bind fun result u hu => ?_
          have hu : Made p t u := hu.mono (prefix_of_parent? habove)
          split
          · exact endures_pure.2 hu
          · refine endures_bind.2 (endures_makeDirectory (fun e => hcheck hu)
              fun v hv => endures_pure.2 (hu.trans (made_of_makeDirectory hu.wf hp hv)))
    · exact hcheck (.refl wf)

theorem endures_makeDirectories : (makeDirectories p).Endures (fun _ u => Made p t u) t :=
  endures_makeDirectoriesWithin wf hp _

theorem endures_makeDirectoriesAbove : (makeDirectoriesAbove p).Endures (fun _ u => Made p t u) t := by
  unfold makeDirectoriesAbove
  split
  · rename_i above habove
    exact (endures_makeDirectories wf (isAbsolute_parent? hp habove)).mono
      fun _ u hu => hu.mono (prefix_of_parent? habove)
  · exact endures_pure.2 (.refl wf)

end

/-- What becomes of a tree when something is to be moved from `a` to `b`. -/
def Carrying (a b : Address) (t : FileTree) : Except FileError Unit → FileTree → Prop
  | .ok _, u => Carried a b t u
  | .error _, u => u.WellFormed ∧ ∀ c, c ≠ b → u.get? c = t.get? c

/-- **A file that cannot be moved stays**, and nothing else changes but what is at the target. -/
theorem endures_moveFile (wf : t.WellFormed) (hp : p.isAbsolute = true) (hq : q.isAbsolute = true) :
    (moveFile p q).Endures (Carrying p.place q.place t) t := by
  refine endures_bind.2 (endures_move (fun e => ?_) fun u hu => endures_pure.2 (carried_of_move wf hp hq hu))
  refine endures_bind.2 (endures_copy (fun e u hu => endures_pure.2 (same_of_mayWrite wf hq hu)) fun size u hu => ?_)
  obtain ⟨contents, -, -, -, hwrite⟩ := (reaches_place wf hp).copy (reaches_place wf hq) hu
  obtain ⟨hwf, -, -, hrest⟩ := room_of_write wf hq hwrite
  exact endures_removeFile (fun e => ⟨hwf, hrest⟩) fun v hv => carried_of_copy wf hp hq hu hv

theorem endures_removeEmptyBelow (wf : t.WellFormed) (hroot : root.isAbsolute = true) (fuel : Nat)
    {directory : Option Path} (hdirectory : ∀ d, directory = some d → d.components <+: p.components) :
    (removeEmptyBelow root fuel directory).Endures (fun _ u => Emptied p t u) t := by
  induction fuel generalizing directory t with
  | zero => exact endures_pure.2 (.refl wf)
  | succ fuel ih =>
    cases directory with
    | none => exact endures_pure.2 (.refl wf)
    | some d =>
      rw [removeEmptyBelow]
      split
      · exact endures_pure.2 (.refl wf)
      · rename_i hbelow
        rw [Bool.or_eq_true, not_or, Bool.not_eq_true', Bool.not_eq_false] at hbelow
        have hd : d.isAbsolute = true :=
          isAbsolute_of_isPrefix hroot (afterComponents?_isSome_iff.1 hbelow.2)
        refine endures_bind.2 (endures_removeDirectory (fun e => endures_pure.2 (.refl wf)) fun u hu => ?_)
        have hu := emptied_of_removeDirectory wf hd (hdirectory d rfl) hu
        refine (ih hu.wf fun above habove => ?_).mono fun _ v hv => hu.trans hv
        exact (prefix_of_parent? habove).trans (hdirectory d rfl)

/-- What becomes of a tree when a record is to be saved in the directory at `d`. -/
def Saving (record : SessionRecord) (d : Address) (t : FileTree) : Except QuarantineError Unit → FileTree → Prop
  | .ok _, u => u.WellFormed ∧ u.get? (d ++ ["manifest.json"]) = some (.file record.contents) ∧
      ∀ c, c ≠ d ++ ["manifest.json.tmp"] → c ≠ d ++ ["manifest.json"] → u.get? c = t.get? c
  | .error _, u => u.WellFormed ∧ ∀ c, c ≠ d ++ ["manifest.json.tmp"] → u.get? c = t.get? c

/-- **A record is saved, or the old one stays.** -/
theorem endures_save {directory : Path} {d : Address} (wf : t.WellFormed) (hd : LeadsTo directory d)
    (record : SessionRecord) : (record.save directory).run.Endures (Saving record d t) t := by
  have hdraft : LeadsTo (directory.join recordDraft) (d ++ ["manifest.json.tmp"]) := hd.join_name (by decide)
  have hrecord : LeadsTo (directory.join recordFile) (d ++ ["manifest.json"]) := hd.join_name (by decide)
  have hne : d ++ ["manifest.json.tmp"] ≠ d ++ ["manifest.json"] := by simp
  let Draft : Final (Except QuarantineError Unit) := fun result u =>
    MayWrite (directory.join recordDraft) t u ∧
      (result = .ok () → t.write (directory.join recordDraft) record.contents = .ok u)
  have hwritten : (QuarantineTask.ofFiles (FileTask.write (directory.join recordDraft) record.contents)).run.Endures
      Draft t :=
    endures_ofFiles (R := fun result => Draft (result.mapError .file))
      (endures_write (fun e u hu => ⟨hu, nofun⟩) fun u hu => ⟨.inr ⟨_, hu⟩, fun _ => hu⟩) (fun _ _ h => h)
      fun _ _ h => h
  refine endures_run_bind hwritten (fun e u hu => ?_) fun _ u hu => ?_
  · have hsame := same_of_mayWrite wf hdraft.absolute hu.1
    rwa [hdraft.place_eq] at hsame
  · obtain ⟨hwf, hdir, hthere, hrest⟩ := room_of_write wf hdraft.absolute (hu.2 rfl)
    rw [hdraft.place_eq] at hdir hthere hrest
    refine endures_ofFiles (R := fun result => Saving record d t (result.mapError .file))
      (endures_move (fun e => ⟨hwf, hrest⟩) fun v hv => ?_) (fun _ _ h => h) fun _ _ h => h
    obtain ⟨hmov, -, -, rfl⟩ := (move_eq_ok_iff hwf hdraft hrecord hne).1 hv
    have htarget := get?_transfer_target hwf hmov
    refine ⟨hwf.transfer hmov, ?_, fun c hc hc' => ?_⟩
    · have hnew := htarget []
      rwa [append_nil, append_nil, hthere] at hnew
    -- nothing is below the draft or the record, neither before nor after
    by_cases hbelow : d ++ ["manifest.json.tmp"] <+: c
    · obtain ⟨x, rfl⟩ := hbelow
      have hx : x ≠ [] := fun hx => hc (by rw [hx, append_nil])
      rw [get?_transfer_source hwf hmov, ← hrest _ hc, hwf.get?_below_file hx hthere]
    by_cases hbelow' : d ++ ["manifest.json"] <+: c
    · obtain ⟨x, rfl⟩ := hbelow'
      have hx : x ≠ [] := fun hx => hc' (by rw [hx, append_nil])
      rw [htarget, hwf.get?_below_file hx hthere, ← hrest _ hc, hmov.room x hx]
    · rw [get?_transfer_rest hwf hmov hbelow hbelow', hrest c hc]

end FileTask

end Deadwood
