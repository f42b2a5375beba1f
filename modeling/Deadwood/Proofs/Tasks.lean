import Deadwood.Proofs.Operations

/-!
# Tasks step by step

A task may be stopped after any number of its steps. `FileTask.Ensures` says what holds of the tree before
every step, and of the result in the end; what is known at a moment is the tree and the list of moves so
far.
-/

namespace Deadwood

open List FileOp

/-- The move that an operation was, if it was one and was not refused. -/
def FileOp.moved : (op : FileOp) → op.Answer → List (Path × Path)
  | .move source target, answer => if answer.isOk then [(source, target)] else []
  | _, _ => []

/-- What holds of the moves so far and the tree. -/
abbrev FileTask.Invariant := List (Path × Path) → FileTree → Prop

/-- What holds of a result, of the moves and of the tree in the end. -/
abbrev FileTask.Post (α : Type) := α → FileTask.Invariant

variable {I : FileTask.Invariant} {moves : List (Path × Path)} {t : FileTree} {p : Path} {a : Address}

namespace FileTask

variable {α β : Type}

def after : (n : Nat) → FileTask α → FileTree → FileTree
  | 0, _, t => t
  | _ + 1, done _, t => t
  | n + 1, step op next, t => after n (next (op.perform t).1) (op.perform t).2

def movesBefore : (n : Nat) → FileTask α → FileTree → List (Path × Path)
  | 0, _, _ => []
  | _ + 1, done _, _ => []
  | n + 1, step op next, t =>
    op.moved (op.perform t).1 ++ movesBefore n (next (op.perform t).1) (op.perform t).2

/-- Of a task that starts after the moves `moves` at the tree `t`: before every step `I` holds of the
moves and the tree, and `Q` holds in the end. -/
def Ensures (I : Invariant) (Q : Post α) : FileTask α → (moves : List (Path × Path)) → (t : FileTree) → Prop
  | done a, moves, t => Q a moves t
  | step op next, moves, t => I moves t ∧
      Ensures I Q (next (op.perform t).1) (moves ++ op.moved (op.perform t).1) (op.perform t).2

variable {J : Invariant} {Q R : Post α} {task : FileTask α}

/-- `Q` holds in the end. -/
abbrev Ends (Q : Post α) (task : FileTask α) : Invariant := task.Ensures (fun _ _ => True) Q

/-! ## The rules -/

theorem ensures_pure {a : α} : (pure a : FileTask α).Ensures I Q moves t ↔ Q a moves t := Iff.rfl

theorem ensures_bind {f : α → FileTask β} {Q : Post β} :
    (task >>= f).Ensures I Q moves t ↔ task.Ensures I (fun a moves t => (f a).Ensures I Q moves t) moves t := by
  induction task generalizing moves t with
  | done a => exact Iff.rfl
  | step op next ih => exact and_congr_right fun _ => ih _

section

variable (h : task.Ensures I Q moves t)
include h

theorem Ensures.mono (hI : ∀ moves t, I moves t → J moves t) (hQ : ∀ a moves t, Q a moves t → R a moves t) :
    task.Ensures J R moves t := by
  induction task generalizing moves t with
  | done a => exact hQ _ _ _ h
  | step op next ih => exact ⟨hI _ _ h.1, ih _ h.2⟩

theorem Ensures.imp (hQ : ∀ a moves t, Q a moves t → R a moves t) : task.Ends R moves t :=
  h.mono (fun _ _ _ => trivial) hQ

theorem Ensures.and (h' : task.Ensures J R moves t) :
    task.Ensures (fun moves t => I moves t ∧ J moves t) (fun a moves t => Q a moves t ∧ R a moves t) moves t := by
  induction task generalizing moves t with
  | done a => exact ⟨h, h'⟩
  | step op next ih => exact ⟨⟨h.1, h'.1⟩, ih _ h.2 h'.2⟩

theorem Ensures.bind {f : α → FileTask β} {Q' : Post β} (hI : ∀ moves t, I moves t → J moves t)
    (hf : ∀ a moves t, Q a moves t → (f a).Ensures J Q' moves t) : (task >>= f).Ensures J Q' moves t :=
  ensures_bind.2 (h.mono hI hf)

theorem Ensures.andThen {f : α → FileTask β} {Q' : Post β} (hf : ∀ a moves t, Q a moves t → (f a).Ends Q' moves t) :
    (task >>= f).Ends Q' moves t :=
  h.bind (fun _ _ _ => trivial) hf

/-- **A task that is stopped leaves a tree of which the invariant holds.** -/
theorem Ensures.after (hQ : ∀ a moves t, Q a moves t → I moves t) (n : Nat) :
    I (moves ++ task.movesBefore n t) (task.after n t) := by
  induction n generalizing task moves t with
  | zero =>
    rw [movesBefore, append_nil]
    cases task with
    | done a => exact hQ _ _ _ h
    | step op next => exact h.1
  | succ n ih =>
    cases task with
    | done a =>
      rw [movesBefore, append_nil]
      exact hQ _ _ _ h
    | step op next =>
      rw [movesBefore, ← append_assoc]
      exact ih h.2

theorem Ensures.run : task.Ensures I (fun a moves' u => Q a moves' u ∧ task.run t = (a, u)) moves t := by
  induction task generalizing moves t with
  | done a => exact ⟨h, rfl⟩
  | step op next ih => exact ⟨h.1, ih _ h.2⟩

theorem Ensures.result : ∃ moves', Q (task.run t).1 moves' (task.run t).2 := by
  induction task generalizing moves t with
  | done a => exact ⟨moves, h⟩
  | step op next ih => exact ih _ h.2

end

theorem run_bind (f : α → FileTask β) : (task >>= f).run t = (f (task.run t).1).run (task.run t).2 := by
  induction task generalizing t with
  | done a => rfl
  | step op next ih => exact ih _

instance : LawfulMonad FileTask := LawfulMonad.mk' FileTask (fun x => by
    induction x with
    | done a => rfl
    | step op next ih => exact congrArg (step op) (funext ih))
  (fun _ _ => rfl)
  (fun x f g => by
    induction x with
    | done a => rfl
    | step op next ih => exact congrArg (step op) (funext fun a => ih a))

/-! ## Single operations -/

variable {q : Path}

theorem ensures_step {op : FileOp} {Q : Post op.Answer} (hmoved : op.moved (op.perform t).1 = []) (hI : I moves t)
    (hQ : Q (op.perform t).1 moves (op.perform t).2) : (step op done).Ensures I Q moves t := by
  refine ⟨hI, ?_⟩
  rw [hmoved, append_nil]
  exact hQ

theorem ensures_status {Q : Post (Except FileError FileStatus)}
    (hI : I moves t) (hQ : Q ((t.find p).map fun x => ⟨x.2.isDirectory, x.2.size⟩) moves t) :
    (status p).Ensures I Q moves t :=
  ensures_step rfl hI hQ

theorem ensures_read {Q : Post (Except FileError Bytes)}
    (hI : I moves t) (hQ : Q (t.read p) moves t) : (read p).Ensures I Q moves t :=
  ensures_step rfl hI hQ

theorem ensures_list {Q : Post (Except FileError (List String))}
    (hI : I moves t) (hQ : Q (t.list p) moves t) : (list p).Ensures I Q moves t :=
  ensures_step rfl hI hQ

section Change

variable {Q : Post (Except FileError Unit)}

theorem change_spec {x : Except FileError FileTree} (herror : ∀ e, x = .error e → Q (.error e) moves t)
    (hok : ∀ u, x = .ok u → Q (.ok ()) moves u) : Q (change t x).1 moves (change t x).2 := by
  cases x with
  | error e => exact herror e rfl
  | ok u => exact hok u rfl

variable (hI : I moves t)
include hI

theorem ensures_write {contents : Bytes} (herror : ∀ e, t.write p contents = .error e → Q (.error e) moves t)
    (hok : ∀ u, t.write p contents = .ok u → Q (.ok ()) moves u) : (write p contents).Ensures I Q moves t :=
  ensures_step rfl hI (change_spec herror hok)

theorem ensures_makeDirectory (herror : ∀ e, t.makeDirectory p = .error e → Q (.error e) moves t)
    (hok : ∀ u, t.makeDirectory p = .ok u → Q (.ok ()) moves u) : (makeDirectory p).Ensures I Q moves t :=
  ensures_step rfl hI (change_spec herror hok)

theorem ensures_removeFile (herror : ∀ e, t.removeFile p = .error e → Q (.error e) moves t)
    (hok : ∀ u, t.removeFile p = .ok u → Q (.ok ()) moves u) : (removeFile p).Ensures I Q moves t :=
  ensures_step rfl hI (change_spec herror hok)

theorem ensures_removeDirectory (herror : ∀ e, t.removeDirectory p = .error e → Q (.error e) moves t)
    (hok : ∀ u, t.removeDirectory p = .ok u → Q (.ok ()) moves u) : (removeDirectory p).Ensures I Q moves t :=
  ensures_step rfl hI (change_spec herror hok)

theorem ensures_removeTree (herror : ∀ e, t.removeTree p = .error e → Q (.error e) moves t)
    (hok : ∀ u, t.removeTree p = .ok u → Q (.ok ()) moves u) : (removeTree p).Ensures I Q moves t :=
  ensures_step rfl hI (change_spec herror hok)

theorem ensures_move (herror : ∀ e, t.move p q = .error e → Q (.error e) moves t)
    (hok : ∀ u, t.move p q = .ok u → Q (.ok ()) (moves ++ [(p, q)]) u) : (move p q).Ensures I Q moves t := by
  have h (x : Except FileError FileTree) (hx : t.move p q = x) :
      Q (change t x).1 (moves ++ if (change t x).1.isOk then [(p, q)] else []) (change t x).2 := by
    cases x with
    | error e =>
      simp only [change, Except.isOk, Except.toBool, Bool.false_eq_true, if_false, append_nil]
      exact herror e hx
    | ok u => exact hok u hx
  exact ⟨hI, h _ rfl⟩

end Change

theorem ensures_copy {Q : Post (Except FileError Nat)} (hI : I moves t)
    (herror : ∀ e, t.copy p q = .error e → Q (.error e) moves t)
    (hok : ∀ size u, t.copy p q = .ok (size, u) → Q (.ok size) moves u) : (copy p q).Ensures I Q moves t := by
  have h : Q (changeWith t (t.copy p q)).1 moves (changeWith t (t.copy p q)).2 := by
    cases h : t.copy p q with
    | error e => exact herror e h
    | ok x => exact hok x.1 x.2 h
  exact ensures_step rfl hI h

theorem ensures_lock {Q : Post (Except FileError Bool)} (hI : I moves t)
    (herror : ∀ e, t.lock p = .error e → Q (.error e) moves t)
    (hok : ∀ free u, t.lock p = .ok (free, u) → Q (.ok free) moves u) : (lock p).Ensures I Q moves t := by
  have h : Q (changeWith t (t.lock p)).1 moves (changeWith t (t.lock p)).2 := by
    cases h : t.lock p with
    | error e => exact herror e h
    | ok x => exact hok x.1 x.2 h
  exact ensures_step rfl hI h

theorem ensures_unlock {Q : Post Unit} (hI : I moves t)
    (hQ : Q () moves (t.unlock p)) : (unlock p).Ensures I Q moves t :=
  ensures_step rfl hI hQ

-- from here on the rules are used, and tasks are not run
attribute [irreducible] Ensures

end FileTask

/-! ## Making directories -/

namespace FileTree

variable {u v : FileTree} {b : Address}

/-- A tree has what another has, and perhaps more directories at and above an address. -/
structure AddsDirectories (a : Address) (t u : FileTree) : Prop where
  wf : u.WellFormed
  same : SameBut (· <+: a) t u
  made : ∀ b, u.get? b = t.get? b ∨ (t.get? b = none ∧ u.get? b = some .directory)

namespace AddsDirectories

theorem refl (wf : t.WellFormed) : AddsDirectories a t t := ⟨wf, .refl _ _, fun _ => .inl rfl⟩

theorem trans (h : AddsDirectories a t u) (h' : AddsDirectories a u v) : AddsDirectories a t v where
  wf := h'.wf
  same := h.same.trans h'.same
  made b := by
    rcases h.made b with hb | ⟨hb, hb'⟩
    · rw [← hb]
      exact h'.made b
    · rcases h'.made b with hb'' | ⟨hnone, -⟩
      · exact .inr ⟨hb, hb''.trans hb'⟩
      · rw [hb'] at hnone
        cases hnone

theorem mono (h : AddsDirectories a t u) (hab : a <+: b) : AddsDirectories b t u :=
  ⟨h.wf, h.same.mono fun _ hc => hc.trans hab, h.made⟩

theorem put (wf : t.WellFormed) (hroom : t.Room a) (hnone : t.get? a = none) :
    AddsDirectories a t (t.put a .directory) where
  wf := hroom.put wf (.inl rfl)
  same := (SameBut.put hroom.ne_nil).mono fun _ hc => hc ▸ prefix_rfl
  made b := by
    rw [get?_put hroom.ne_nil]
    split
    · rename_i hb
      exact .inr ⟨hb ▸ hnone, rfl⟩
    · exact .inl rfl

theorem of_some (h : AddsDirectories a t u) {n : Node} (hn : t.get? b = some n) : u.get? b = some n := by
  rcases h.made b with hb | ⟨hb, -⟩
  · rw [hb, hn]
  · rw [hn] at hb
    cases hb

end AddsDirectories

/-- Directories can be made up to an address: no file is in the way. -/
structure Passable (t : FileTree) (a : Address) : Prop where
  names : ∀ name ∈ a, IsFileName name
  free : ∀ b, b <+: a → t.get? b = none ∨ t.get? b = some .directory

theorem Passable.mono (h : t.Passable b) (hab : a <+: b) : t.Passable a :=
  ⟨fun name hname => h.names name (hab.subset hname), fun c hc => h.free c (hc.trans hab)⟩

end FileTree

namespace FileTask

open Deadwood.Path FileTree

/-- A task makes the directories up to an address and does nothing else; it succeeds if no file is in the way. -/
abbrev EnsuresDirectories (a : Address) (moves : List (Path × Path)) (t : FileTree)
    (task : FileTask (Except FileError Unit)) : Prop :=
  task.Ensures (fun moves' u => moves' = moves ∧ AddsDirectories a t u) (fun r moves' u => moves' = moves ∧
    AddsDirectories a t u ∧ (r = .ok () → u.get? a = some .directory) ∧ (t.Passable a → r = .ok ())) moves t

variable (wf : t.WellFormed) (hp : LeadsTo p a)
include wf hp

theorem ensures_isDirectory {Q : Post Bool} (hI : I moves t) (hQ : Q (decide (t.get? a = some .directory)) moves t) :
    (isDirectory p).Ensures I Q moves t := by
  refine ensures_bind.2 (ensures_status hI ?_)
  cases hf : t.find p with
  | error e =>
    have hne : t.get? a ≠ some .directory := fun hdir => by
      rw [exists_find wf hp hdir fun _ => rfl] at hf
      cases hf
    rw [decide_eq_false hne] at hQ
    exact ensures_pure.2 hQ
  | ok x =>
    obtain ⟨b, n⟩ := x
    obtain ⟨rfl, hn, -⟩ := (find_eq_ok_iff wf hp).1 hf
    rw [hn] at hQ
    cases n with
    | directory => exact ensures_pure.2 hQ
    | file contents => exact ensures_pure.2 hQ

theorem ensures_checkDirectory {Q : Post (Except FileError Unit)} (e : FileError) (hI : I moves t)
    (hok : t.get? a = some .directory → Q (.ok ()) moves t)
    (herror : t.get? a ≠ some .directory → Q (.error e) moves t) :
    (do return if ← isDirectory p then .ok () else .error e : FileTask (Except FileError Unit)).Ensures
      I Q moves t := by
  refine ensures_bind.2 (ensures_isDirectory wf hp hI (ensures_pure.2 ?_))
  by_cases hdir : t.get? a = some .directory
  · rw [decide_eq_true hdir]
    exact hok hdir
  · rw [decide_eq_false hdir]
    exact herror hdir

theorem makeDirectory_eq_error (hpass : t.Passable a) {e : FileError} (h : t.makeDirectory p = .error e) :
    e = .missing ∨ t.get? a = some .directory := by
  cases ha : t.address p with
  | error e' =>
    have he : e' = .missing := address_eq_error hp hpass.names (fun y z hyz _ => hpass.free y ⟨z, hyz.symm⟩) ha
    rw [FileTree.makeDirectory, ha] at h
    cases h
    exact .inl he
  | ok b =>
    obtain ⟨rfl, -⟩ := (address_eq_ok_iff wf hp).1 ha
    rcases hpass.free b prefix_rfl with hnone | hdir
    · rw [FileTree.makeDirectory, ha, show ((Except.ok b : Except FileError Address) >>= fun a =>
        if (t.get? a).isSome then .error .occupied else .ok (t.put a .directory)) =
          if (t.get? b).isSome then .error .occupied else .ok (t.put b .directory) from rfl, hnone] at h
      cases h
    · exact .inr hdir

theorem ne_nil_of_makeDirectory_eq_missing (h : t.makeDirectory p = .error .missing) : a ≠ [] := by
  rintro rfl
  rw [FileTree.makeDirectory, (address_eq_ok_iff wf hp).2 ⟨rfl, .inl rfl⟩] at h
  cases h

theorem ensures_makeDirectoriesWithin {fuel : Nat} (hfuel : a.length < fuel) :
    (makeDirectoriesWithin fuel p).EnsuresDirectories a moves t := by
  induction fuel generalizing p a with
  | zero => exact absurd hfuel (Nat.not_lt_zero _)
  | succ fuel ih =>
    rw [makeDirectoriesWithin]
    refine ensures_bind.2 (ensures_makeDirectory ⟨rfl, .refl wf⟩ (fun e he => ?_) fun u hu => ?_)
    · by_cases hmissing : e = .missing
      · subst hmissing
        have hne := ne_nil_of_makeDirectory_eq_missing wf hp he
        obtain ⟨above, habove, hlead⟩ := hp.parent hne
        have hup : a.dropLast <+: a := dropLast_prefix a
        have hlen : a.dropLast.length < fuel := by
          have := length_pos_iff.2 hne
          rw [length_dropLast]
          omega
        simp only [habove, String.isEmpty_iff, hlead.text_ne, if_false]
        refine (ih hlead hlen).bind (fun _ u h => ⟨h.1, h.2.mono hup⟩) ?_
        rintro r _ u ⟨rfl, hu, hdir, hpass⟩
        have hu := hu.mono hup
        cases r with
        | error e =>
          refine ensures_pure.2 ⟨rfl, hu, nofun, fun h => ?_⟩
          cases hpass (h.mono hup)
        | ok _ =>
          -- the directory above is there now
          refine ensures_bind.2 (ensures_makeDirectory ⟨rfl, hu⟩ (fun e he => ?_) fun v hv => ?_)
          · refine ensures_checkDirectory hu.wf hp e ⟨rfl, hu⟩ (fun h => ⟨rfl, hu, fun _ => h, fun _ => rfl⟩)
              fun h => ⟨rfl, hu, nofun, fun hpass => ?_⟩
            have hnone : u.get? a = none := by
              rcases hu.made a with hsame | ⟨-, hdir⟩
              · rw [hsame]
                exact (hpass.free a prefix_rfl).resolve_right fun hdir => h (hsame ▸ hdir)
              · exact absurd hdir h
            rw [(makeDirectory_eq_ok_iff hu.wf hp).2 ⟨⟨hne, hpass.names, hdir rfl⟩, hnone, rfl⟩] at he
            cases he
          · obtain ⟨hroom, hnone, rfl⟩ := (makeDirectory_eq_ok_iff hu.wf hp).1 hv
            refine ensures_pure.2 ⟨rfl, hu.trans (.put hu.wf hroom hnone), fun _ => ?_, fun _ => rfl⟩
            rw [get?_put hroom.ne_nil, if_pos rfl]
      · split
        · cases ‹Except.error e = _›
        · cases ‹Except.error e = _›
          exact absurd rfl hmissing
        cases ‹Except.error e = _›
        refine ensures_checkDirectory wf hp e ⟨rfl, .refl wf⟩
          (fun h => ⟨rfl, .refl wf, fun _ => h, fun _ => rfl⟩) fun h => ⟨rfl, .refl wf, nofun, fun hpass => ?_⟩
        exact absurd (makeDirectory_eq_error wf hp hpass he) (not_or.2 ⟨hmissing, h⟩)
    · obtain ⟨hroom, hnone, rfl⟩ := (makeDirectory_eq_ok_iff wf hp).1 hu
      refine ensures_pure.2 ⟨rfl, .put wf hroom hnone, fun _ => ?_, fun _ => rfl⟩
      rw [get?_put hroom.ne_nil, if_pos rfl]

theorem ensures_makeDirectories : (makeDirectories p).EnsuresDirectories a moves t := by
  refine ensures_makeDirectoriesWithin wf hp ?_
  rw [hp.components, length_cons, length_map]
  omega

theorem ensures_makeDirectoriesAbove (ha : a ≠ []) :
    (makeDirectoriesAbove p).EnsuresDirectories a.dropLast moves t := by
  obtain ⟨above, habove, hlead⟩ := hp.parent ha
  rw [makeDirectoriesAbove, habove]
  exact ensures_makeDirectories wf hlead

end FileTask

end Deadwood
