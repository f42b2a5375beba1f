import Mathlib.Data.List.DropRight
import Deadwood.Proofs.FailedCalls

/-!
# Where a session stores a file

A path below the project is taken relative to it, and stored under the same components in the session. One that
goes above its start leads out of the session, and an absolute one elsewhere leads to the same place in both.

* **`moveIn_stores`**: what a call has done that moved a file in.
-/

namespace Deadwood

open List FileTree FileTask Deadwood.Path

namespace Path

variable {p head rel : Path} {pieces : List String} {count : Nat} {piece : String}

/-! ## The path below another -/

theorem filterMap_dropPieces (count : Nat) (pieces : List String) :
    (dropPieces count pieces).filterMap component? = (pieces.filterMap component?).drop count := by
  induction pieces generalizing count with
  | nil => cases count <;> rfl
  | cons piece pieces ih =>
    cases count with
    | zero => rfl
    | succ count =>
      rw [dropPieces]
      cases hpiece : component? piece with
      | none =>
        rw [filterMap_cons_none hpiece]
        exact ih (count + 1)
      | some c =>
        rw [filterMap_cons_some hpiece]
        exact ih count

theorem filterMap_dropWhile (pieces : List String) :
    (pieces.dropWhile fun piece => (component? piece).isNone).filterMap component? = pieces.filterMap component? := by
  induction pieces with
  | nil => rfl
  | cons piece pieces ih =>
    cases hpiece : component? piece with
    | none => rw [dropWhile_cons_of_pos (by simp [hpiece]), filterMap_cons_none hpiece, ih]
    | some c => rw [dropWhile_cons_of_neg (by simp [hpiece])]

theorem mem_of_mem_dropPieces (h : piece ∈ dropPieces count pieces) : piece ∈ pieces := by
  fun_induction dropPieces count pieces with
  | case1 => exact h
  | case2 => exact h
  | case3 count q pieces hq ih => exact mem_cons_of_mem q (ih h)
  | case4 count q pieces hq ih => exact mem_cons_of_mem q (ih h)

theorem trimPieces_isPrefix (pieces : List String) :
    trimPieces pieces <+: pieces.dropWhile fun piece => (component? piece).isNone :=
  rdropWhile_prefix _ _

theorem isAbsolute_join_pieces (hslash : ∀ piece ∈ pieces, '/' ∉ piece.toList) :
    isAbsolute ⟨Text.join "/" (trimPieces pieces)⟩ = false := by
  rw [← Bool.not_eq_true, isAbsolute_iff]
  intro hhead
  have hpre := trimPieces_isPrefix pieces
  cases htrim : trimPieces pieces with
  | nil =>
    rw [htrim] at hhead
    cases hhead
  | cons piece rest =>
    rw [htrim] at hhead hpre
    -- the first piece is a component, so its first character is that of the path
    obtain ⟨after, hafter⟩ := hpre
    have hmem : piece ∈ pieces :=
      (dropWhile_sublist _).subset (hafter ▸ mem_append_left _ mem_cons_self)
    have hsome : (component? piece).isSome = true := by
      have hfirst := head_dropWhile_not (fun piece => (component? piece).isNone) (by rw [← hafter]; simp)
      simpa [← hafter] using hfirst
    have hne : piece.toList ≠ [] := by
      rw [Ne, String.toList_eq_nil_iff]
      rintro rfl
      cases hsome
    refine hslash piece hmem (mem_of_head? ?_)
    cases rest with
    | nil => exact hhead
    | cons next rest =>
      rw [Text.join_cons (by simp), String.toList_append, String.toList_append, append_assoc,
        head?_append_of_ne_nil _ hne] at hhead
      exact hhead

theorem below?_eq_some (h : p.below? head = some rel) : p.startsWith head = true ∧
    rel = ⟨Text.join "/" (trimPieces (dropPieces head.named.length (Text.splitAt '/' p.text)))⟩ := by
  rw [below?] at h
  split at h
  · rename_i hstarts
    exact ⟨hstarts, (Option.some.inj h).symm⟩
  · cases h

theorem not_mem_of_mem_pieces (h : piece ∈ dropPieces count (Text.splitAt '/' p.text)) : '/' ∉ piece.toList := by
  obtain ⟨cs, hcs, rfl⟩ := mem_map.1 (mem_of_mem_dropPieces h)
  rw [String.toList_ofList]
  intro hslash
  simpa using Text.not_mem_of_mem_splitList hcs _ hslash

theorem isAbsolute_of_below? (h : p.below? head = some rel) : rel.isAbsolute = false := by
  obtain ⟨-, rfl⟩ := below?_eq_some h
  exact isAbsolute_join_pieces fun piece hpiece => not_mem_of_mem_pieces hpiece

/-- **The path below another has the components that follow.** -/
theorem named_of_below? (h : p.below? head = some rel) : rel.named = p.named.drop head.named.length := by
  obtain ⟨-, rfl⟩ := below?_eq_some h
  have hpieces : (trimPieces (dropPieces head.named.length (Text.splitAt '/' p.text))).filterMap component? =
      p.named.drop head.named.length := by
    rw [trimPieces, filterMap_reverse, filterMap_dropWhile, filterMap_reverse, reverse_reverse, filterMap_dropWhile,
      filterMap_dropPieces]
    rfl
  rw [← hpieces]
  generalize htrim : trimPieces (dropPieces head.named.length (Text.splitAt '/' p.text)) = pieces
  by_cases hnil : pieces = []
  · rw [hnil]
    rfl
  · refine congrArg (List.filterMap component?) (Text.splitAt_join hnil fun piece hpiece => ?_)
    rw [← htrim] at hpiece
    exact not_mem_of_mem_pieces ((dropWhile_sublist _).subset ((trimPieces_isPrefix _).subset hpiece))

theorem named_append_of_below? (hhead : head.isAbsolute = true) (h : p.below? head = some rel) :
    p.isAbsolute = true ∧ p.named = head.named ++ rel.named := by
  have hpre := afterComponents?_isSome_iff.1 (below?_eq_some h).1
  have hp := isAbsolute_of_isPrefix hhead hpre
  rw [components_of_isAbsolute hhead, components_of_isAbsolute hp, cons_prefix_cons] at hpre
  obtain ⟨after, hafter⟩ := hpre.2
  refine ⟨hp, ?_⟩
  rw [named_of_below? h, ← hafter, drop_left]

/-! ## Paths that stay below their start -/

/-- The path does not go above where it starts: however many of its components are taken, as many lead down as lead
up, or more. -/
def StaysBelow (p : Path) : Prop := ∀ cs ∈ p.named.inits, cs.count .parent ≤ cs.countP (· != .parent)

instance (p : Path) : Decidable p.StaysBelow := by
  unfold StaysBelow; infer_instance

end Path

/-- **A path that stays below its start leads there**, and as deep as its components say. -/
theorem descend_eq_append {cs : List Component} (hcs : ∀ c ∈ cs, c = .parent ∨ ∃ name, c = .normal name)
    (h : ∀ ds ∈ cs.inits, ds.count .parent ≤ ds.countP (· != .parent)) (a : Address) :
    descend a cs = a ++ descend [] cs ∧ (descend [] cs).length + cs.count .parent = cs.countP (· != .parent) := by
  induction cs using List.reverseRecOn with
  | nil => simp [descend]
  | append_singleton cs c ih =>
    obtain ⟨hsame, hlength⟩ := ih (forall_mem_append.1 hcs).1
      fun ds hds => h ds ((mem_inits _ _).2 (((mem_inits _ _).1 hds).trans (prefix_append _ _)))
    rw [descend_append, descend_append, hsame]
    rcases hcs c (by simp) with rfl | ⟨name, rfl⟩
    · -- there is a name to go up from
      have hmore := h (cs ++ [.parent]) ((mem_inits _ _).2 prefix_rfl)
      simp only [count_append, count_singleton_self, countP_append, countP_singleton,
        bne_self_eq_false, Bool.false_eq_true, if_false] at hmore ⊢
      have hne : descend [] cs ≠ [] := by
        intro hnil
        rw [hnil, length_nil] at hlength
        omega
      have hpos := length_pos_of_ne_nil hne
      show (a ++ descend [] cs).dropLast = a ++ (descend [] cs).dropLast ∧ (descend [] cs).dropLast.length + _ = _
      rw [dropLast_append_of_ne_nil hne, length_dropLast]
      exact ⟨rfl, by omega⟩
    · show (a ++ descend [] cs) ++ [name] = a ++ (descend [] cs ++ [name]) ∧ (descend [] cs ++ [name]).length + _ = _
      rw [append_assoc, length_append]
      refine ⟨rfl, ?_⟩
      simp
      omega

theorem Path.StaysBelow.descend_eq {p : Path} (h : p.StaysBelow) (a : Address) :
    descend a p.named = a ++ descend [] p.named :=
  (descend_eq_append (fun _ hc => mem_namedIn hc) h a).1

/-! ## Where a file is stored -/

namespace OpenSession

variable {s : OpenSession} {r : Address} {path : Path}

theorem relative_of_isAbsolute (hroot : s.quarantine.root.isAbsolute = true) (hpath : path.isAbsolute = false) :
    s.relative path = path := by
  rw [relative, below?, if_neg]
  · rfl
  · intro hstarts
    rw [isAbsolute_of_isPrefix hroot (afterComponents?_isSome_iff.1 hstarts)] at hpath
    cases hpath

theorem relative_of_startsWith (hstarts : path.startsWith s.quarantine.root = false) : s.relative path = path := by
  rw [relative, below?, hstarts]
  rfl

theorem below?_of_startsWith (hstarts : path.startsWith s.quarantine.root = true) :
    path.below? s.quarantine.root = some (s.relative path) := by
  rw [relative, below?, if_pos hstarts]
  rfl

theorem isAbsolute_relative (hroot : s.quarantine.root.isAbsolute = true)
    (hpath : path.isAbsolute = false ∨ path.startsWith s.quarantine.root = true) :
    (s.relative path).isAbsolute = false := by
  rcases hpath with hpath | hstarts
  · rwa [relative_of_isAbsolute hroot hpath]
  · exact isAbsolute_of_below? (below?_of_startsWith hstarts)

/-- **A file is taken from where its path leads.** -/
theorem place_homeOf (hroot : s.quarantine.root.isAbsolute = true) (path : Path) :
    (s.homeOf path).place = (s.quarantine.root.join path).place := by
  cases hstarts : path.startsWith s.quarantine.root with
  | false => rw [homeOf, relative_of_startsWith hstarts]
  | true =>
    have hbelow := below?_of_startsWith hstarts
    obtain ⟨hpath, hnamed⟩ := named_append_of_below? hroot hbelow
    rw [homeOf, place_join (isAbsolute_of_below? hbelow), place_join_of_isAbsolute hpath, place, place,
      descend_components, descend_components, descend_components, hnamed, descend_append]

theorem place_homeOf_eq (hroot : s.quarantine.At r) (hpath : (s.relative path).isAbsolute = false) :
    (s.homeOf path).place = descend r (s.relative path).named := by
  rw [homeOf, place_join hpath, hroot.place_eq, descend_components]

theorem place_keepOf (hroot : s.quarantine.At r) (hid : IsName s.record.id)
    (hpath : (s.relative path).isAbsolute = false) :
    (s.keepOf path).place = descend (filesAt r s.record.id) (s.relative path).named := by
  have hfiles : filesDirectory.named = [.normal "files"] := by decide
  have hplace : sessionAt r s.record.id ++ ["files"] = filesAt r s.record.id := sessionAt_append r _ _
  rw [keepOf, place_join (isAbsolute_join_eq_false (by decide) hpath), (leadsTo_sessionDirectory hroot hid).place_eq,
    descend_components, named_join hpath, descend_append, hfiles, ← hplace]
  rfl

end OpenSession

def OpenSession.Writes (s : OpenSession) (r c : Address) : Prop :=
  c = draftAt r s.record.id ∨ c = recordAt r s.record.id

theorem OpenSession.not_writes_filesAt (s : OpenSession) (r m x : Address) :
    ¬ s.Writes r (filesAt r s.record.id ++ m ++ x) := by
  rintro (h | h) <;> simp [filesAt, draftAt, recordAt] at h

/-- What a call has done that moved a file in: it left the session `s'` and the tree `u`. -/
structure StoredBy (s : OpenSession) (r : Address) (path : Path) (t : FileTree) (s' : OpenSession) (u : FileTree) :
    Prop where
  recorded : (∃ size, s' = s.recording (s.entry path size)) ∧
    u.get? (recordAt r s.record.id) = some (.file s'.record.contents)
  moved : (t.get? (s.quarantine.root.join path).place).isSome ∧
    Relocated (s.Writes r) (s.quarantine.root.join path).place (s.keepOf path).place t u
  /-- All else is as it was, but for directories on the ways. -/
  rest : ∀ c, ¬ s.Writes r c → ¬ (s.quarantine.root.join path).place <+: c → ¬ (s.keepOf path).place <+: c →
    u.get? c = t.get? c ∨ (t.get? c = none ∧ u.get? c = some .directory ∧ (s.keepOf path).Passes c) ∨
      (t.get? c = some .directory ∧ u.get? c = none ∧ (s.homeOf path).Passes c)

theorem MoveInOutcome.storedBy {s s' : OpenSession} {r : Address} {path : Path} {t u : FileTree}
    (hroot : s.quarantine.At r) (h : MoveInOutcome s r path t (.ok (), s') u) : StoredBy s r path t s' u := by
  cases h with
  | @moved made moved saved u size hsource hmade hmoved hsaved hemptied =>
    have hsame (c : Address) (hc : ¬ s.Writes r c) : saved.get? c = moved.get? c :=
      hsaved.same (fun hdraft => hc (.inl hdraft)) fun hrecord => hc (.inr hrecord)
    have hrelocated : Relocated (s.Writes r) (s.homeOf path).place (s.keepOf path).place t u := by
      refine hmoved.relocated hmade (fun c bytes hc => ?_) fun c hc hnone => ?_
      · rw [hemptied.file_iff, hsame c hc]
      · exact hemptied.none_of_none (by rw [hsame c hc, hnone])
    rw [OpenSession.place_homeOf hroot.absolute path] at hsource hrelocated hmoved
    refine ⟨⟨⟨size, rfl⟩, hemptied.file_iff.2 (hsaved.saved rfl)⟩, ⟨hsource, hrelocated⟩, fun c hc hc' hc'' => ?_⟩
    have hsaved : saved.get? c = made.get? c := by rw [hsame c hc, hmoved.rest c hc' hc'']
    rcases hemptied.get? c with hkept | ⟨hdir, hnone, hpass⟩
    · rw [hkept, hsaved]
      exact (hmade.get? c).imp_right .inl
    · rcases hmade.get? c with hold | ⟨hold, -⟩
      · exact .inr (.inr ⟨by rw [← hold, ← hsaved, hdir], hnone, hpass⟩)
      · exact .inl (hnone.trans hold.symm)

/-- **Where a file is stored that was moved in**, whichever operations fail, and whatever the path. What the path
names is taken away and has an entry, and all else stays. A path that is relative or starts with the root of the
project leads from the place of the files in the session as it leads from the root; if it never goes above its start,
all of the file is within that place. An absolute path elsewhere leads to the same place again, and nothing is moved.
-/
theorem moveIn_stores {s : OpenSession} {r : Address} {t : FileTree} (hroot : LeadsTo s.quarantine.root r)
    (hid : IsName s.record.id) (wf : t.WellFormed) (path : Path) (faults : List (Option FileFault))
    (s' : OpenSession) (u : FileTree) (h : (s.fill (OpenSession.moveIn path)).runWith faults t = ((.ok (), s'), u)) :
    StoredBy s r path t s' u ∧
    ((path.isAbsolute = false ∨ path.startsWith s.quarantine.root = true) →
      (s.quarantine.root.join path).place = descend r (s.relative path).named ∧
      (s.keepOf path).place = descend (filesAt r s.record.id) (s.relative path).named ∧
      ((s.relative path).StaysBelow → ∃ m, (s.quarantine.root.join path).place = r ++ m ∧
        (∀ x bytes, t.get? (r ++ m ++ x) = some (.file bytes) →
          u.get? (filesAt r s.record.id ++ m ++ x) = some (.file bytes)) ∧
        ∀ x, ¬ s.Writes r (r ++ m ++ x) → u.get? (r ++ m ++ x) = none)) ∧
    (path.isAbsolute = true → path.startsWith s.quarantine.root = false →
      (s.keepOf path).place = path.place ∧ (s.quarantine.root.join path).place = path.place) := by
  have houtcome := endures_iff.1 (OpenSession.endures_moveIn hroot hid wf path) faults
  rw [h] at houtcome
  have hstored := houtcome.storedBy hroot
  refine ⟨hstored, fun hpath => ?_, fun habs hstarts => ?_⟩
  · have hrelative := OpenSession.isAbsolute_relative hroot.absolute hpath
    have hhome := OpenSession.place_homeOf_eq hroot hrelative
    have hkeep := OpenSession.place_keepOf hroot hid hrelative
    rw [OpenSession.place_homeOf hroot.absolute] at hhome
    refine ⟨hhome, hkeep, fun hstays => ⟨descend [] (s.relative path).named, ?_⟩⟩
    rw [hstays.descend_eq] at hhome hkeep
    have hmoved := hstored.moved.2
    rw [hhome, hkeep] at hmoved
    have hne : r ++ _ ≠ filesAt r s.record.id ++ _ := ne_filesAt (descend [] (s.relative path).named)
    refine ⟨hhome, fun x bytes hbytes => ?_, hmoved.gone hne⟩
    exact (hmoved.files hne _ bytes (s.not_writes_filesAt r _ x)).2 (.inl ⟨x, rfl, hbytes⟩)
  · have hjoin : filesDirectory.join path = path := by rw [join, if_pos habs]
    rw [OpenSession.keepOf, OpenSession.relative_of_startsWith hstarts, hjoin, place_join_of_isAbsolute habs,
      place_join_of_isAbsolute habs]
    exact ⟨rfl, rfl⟩

/-- The script is moved in by a path that starts with the root and goes through another directory. -/
theorem moveIn_stores_emptyFilling : emptyFilling.tree.WellFormed ∧
    ((emptyFilling.session.fill (OpenSession.moveIn ⟨"/p/.deadfiles/../a.js"⟩)).runWith [] emptyFilling.tree).2.get?
      (filesAt ["p"] "S" ++ ["a.js"]) = some (.file [111]) := by
  have hwf : emptyFilling.tree.WellFormed := by decide
  have hok : ((emptyFilling.session.fill (OpenSession.moveIn ⟨"/p/.deadfiles/../a.js"⟩)).runWith []
      emptyFilling.tree).1.1 = .ok () := by
    decide +kernel
  generalize hrun : (emptyFilling.session.fill (OpenSession.moveIn ⟨"/p/.deadfiles/../a.js"⟩)).runWith []
    emptyFilling.tree = run at hok ⊢
  obtain ⟨⟨result, s'⟩, u⟩ := run
  obtain rfl : result = .ok () := hok
  have hspec := moveIn_stores (s := emptyFilling.session) leadsTo_p (by decide) hwf _ _ _ _ hrun
  obtain ⟨m, hm, hstored, -⟩ := (hspec.2.1 (by decide)).2.2 (by decide)
  obtain rfl : m = ["a.js"] :=
    List.append_cancel_left (show ["p"] ++ m = ["p"] ++ ["a.js"] from hm.symm.trans (by decide))
  exact ⟨hwf, hstored [] [111] (by decide)⟩

/-- **Not every file goes into the session.** A path that goes above its start and down again to the script does not
start with the root: the script stays where it is, and has an entry. One that goes above the project is stored beside
the files of the session. -/
theorem moveIn_stores_elsewhere :
    let around := (emptyFilling.session.fill (OpenSession.moveIn ⟨"/../p/a.js"⟩)).run emptyFilling.tree
    let above := (emptyFilling.session.fill (OpenSession.moveIn ⟨"../x.js"⟩)).run
      (emptyFilling.tree.put ["x.js"] (.file [120]))
    (around.1.1 = .ok () ∧ around.1.2.record.files.length = 1 ∧ around.2.get? ["p", "a.js"] = some (.file [111]) ∧
      around.2.get? (filesAt ["p"] "S" ++ ["a.js"]) = none) ∧
    above.1.1 = .ok () ∧ above.2.get? (sessionAt ["p"] "S" ++ ["x.js"]) = some (.file [120]) ∧
      above.2.get? (filesAt ["p"] "S" ++ ["x.js"]) = none := by
  decide +kernel

end Deadwood
