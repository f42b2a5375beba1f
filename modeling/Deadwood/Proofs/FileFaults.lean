import Deadwood.Proofs.Session

/-!
# Faults

Any operation may fail for a reason that the tree of files does not show, and a file that was being written may be
left with other contents.

* `FileTask.Endures`, **`FileTask.endures_iff`**: what holds in the end, whichever operations fail.
-/

namespace Deadwood

open FileTree Deadwood.Path

/-- Why an operation fails though the tree of files would allow it. -/
structure FileFault where
  reason : FileError
  /-- What is left in the file that was to be written, if it has been touched. -/
  left : Option Bytes := none

namespace FileOp

def written? : FileOp → Option Path
  | write p _ | copy _ p | lock p => some p
  | _ => none

def refuse (e : FileError) : (op : FileOp) → op.Answer
  | status _ | read _ | write _ _ | makeDirectory _ | move _ _ | copy _ _ | removeFile _ | removeDirectory _
  | removeTree _ | list _ | resolve _ | lock _ => .error e
  | unlock _ => ()

def leave (fault : FileFault) (op : FileOp) (t : FileTree) : FileTree :=
  match op, op.written?, fault.left with
  | unlock p, _, _ => t.unlock p
  | _, some p, some bytes => (change t (t.write p bytes)).2
  | _, _, _ => t

/-- Carries out an operation, which fails if there is a fault. -/
def performWith (fault : Option FileFault) (op : FileOp) (t : FileTree) : op.Answer × FileTree :=
  match fault with
  | none => op.perform t
  | some fault => (op.refuse fault.reason, op.leave fault t)

end FileOp

namespace FileTask

variable {α β : Type}

/-- What a task does to a tree if its operations meet the faults of a list, one after the other. -/
def runWith : FileTask α → (faults : List (Option FileFault)) → FileTree → α × FileTree
  | done a, _, t => (a, t)
  | step op next, faults, t =>
    let (answer, t) := op.performWith faults.head?.join t
    runWith (next answer) faults.tail t

/-- What holds of a result and of the tree in the end. -/
abbrev Final (α : Type) := α → FileTree → Prop

/-- `Q` holds in the end, whichever operations of the task fail. -/
def Endures (Q : Final α) : FileTask α → FileTree → Prop
  | done a, t => Q a t
  | step op next, t => ∀ fault, Endures Q (next (op.performWith fault t).1) (op.performWith fault t).2

variable {Q R : Final α} {task : FileTask α} {t : FileTree}

/-- **What a task endures holds after every run with faults**, and nothing else does. -/
theorem endures_iff : task.Endures Q t ↔ ∀ faults, Q (task.runWith faults t).1 (task.runWith faults t).2 := by
  induction task generalizing t with
  | done a => exact ⟨fun h _ => h, fun h => h []⟩
  | step op next ih =>
    constructor
    · intro h faults
      exact (ih _).1 (h faults.head?.join) faults.tail
    · intro h fault
      exact (ih _).2 fun faults => h (fault :: faults)

/-! ## The rules -/

theorem endures_pure {a : α} : (pure a : FileTask α).Endures Q t ↔ Q a t := Iff.rfl

theorem endures_bind {f : α → FileTask β} {Q : Final β} :
    (task >>= f).Endures Q t ↔ task.Endures (fun a u => (f a).Endures Q u) t := by
  induction task generalizing t with
  | done a => exact Iff.rfl
  | step op next ih => exact forall_congr' fun fault => ih _

theorem Endures.mono (h : task.Endures Q t) (hQ : ∀ a u, Q a u → R a u) : task.Endures R t :=
  endures_iff.2 fun faults => hQ _ _ (endures_iff.1 h faults)

theorem Endures.bind {f : α → FileTask β} {Q' : Final β} (h : task.Endures Q t)
    (hf : ∀ a u, Q a u → (f a).Endures Q' u) : (task >>= f).Endures Q' t :=
  endures_bind.2 (h.mono hf)

/-! ## Single operations -/

section Operations

variable {p q : Path} {contents : Bytes}

theorem endures_step {op : FileOp} {Q : Final op.Answer}
    (hfault : ∀ fault : FileFault, Q (op.refuse fault.reason) (op.leave fault t))
    (hperform : Q (op.perform t).1 (op.perform t).2) : (step op done).Endures Q t := by
  intro fault
  cases fault with
  | none => exact hperform
  | some fault => exact hfault fault

theorem endures_status {Q : Final (Except FileError FileStatus)} (herror : ∀ e, Q (.error e) t)
    (hok : ∀ a n, t.find p = .ok (a, n) → Q (.ok ⟨n.isDirectory, n.size⟩) t) : (status p).Endures Q t := by
  refine endures_step (fun fault => herror _) ?_
  show Q ((t.find p).map _) t
  cases h : t.find p with
  | error e => exact herror e
  | ok x => exact hok x.1 x.2 h

theorem endures_read {Q : Final (Except FileError Bytes)} (herror : ∀ e, Q (.error e) t)
    (hok : ∀ bytes, t.read p = .ok bytes → Q (.ok bytes) t) : (read p).Endures Q t := by
  refine endures_step (fun fault => herror _) ?_
  show Q (t.read p) t
  cases h : t.read p with
  | error e => exact herror e
  | ok bytes => exact hok bytes h

theorem endures_list {Q : Final (Except FileError (List String))} (h : ∀ names, Q names t) : (list p).Endures Q t :=
  endures_step (fun _ => h _) (h _)

def MayWrite (p : Path) (t u : FileTree) : Prop := u = t ∨ ∃ bytes, t.write p bytes = .ok u

theorem mayWrite_leave {op : FileOp} (hop : op.written? = some p) (fault : FileFault) :
    MayWrite p t (op.leave fault t) := by
  cases op with
  | write p' _ | copy _ p' | lock p' =>
    obtain rfl : p' = p := Option.some.inj hop
    cases hleft : fault.left with
    | none => exact .inl (by simp only [FileOp.leave, FileOp.written?, hleft])
    | some bytes =>
      simp only [FileOp.leave, FileOp.written?, hleft]
      cases hwrite : t.write p' bytes with
      | error e => exact .inl rfl
      | ok u => exact .inr ⟨bytes, hwrite⟩
  | _ => cases hop

variable {Q : Final (Except FileError Unit)}

theorem change_endures {x : Except FileError FileTree} (herror : ∀ e, Q (.error e) t)
    (hok : ∀ u, x = .ok u → Q (.ok ()) u) : Q (FileOp.change t x).1 (FileOp.change t x).2 := by
  cases x with
  | error e => exact herror e
  | ok u => exact hok u rfl

theorem endures_write (herror : ∀ e u, MayWrite p t u → Q (.error e) u)
    (hok : ∀ u, t.write p contents = .ok u → Q (.ok ()) u) : (write p contents).Endures Q t :=
  endures_step (fun fault => herror _ _ (mayWrite_leave rfl fault))
    (change_endures (fun e => herror e t (.inl rfl)) hok)

theorem endures_makeDirectory (herror : ∀ e, Q (.error e) t)
    (hok : ∀ u, t.makeDirectory p = .ok u → Q (.ok ()) u) : (makeDirectory p).Endures Q t :=
  endures_step (fun _ => herror _) (change_endures herror hok)

theorem endures_move (herror : ∀ e, Q (.error e) t) (hok : ∀ u, t.move p q = .ok u → Q (.ok ()) u) :
    (move p q).Endures Q t :=
  endures_step (fun _ => herror _) (change_endures herror hok)

theorem endures_removeFile (herror : ∀ e, Q (.error e) t)
    (hok : ∀ u, t.removeFile p = .ok u → Q (.ok ()) u) : (removeFile p).Endures Q t :=
  endures_step (fun _ => herror _) (change_endures herror hok)

theorem endures_removeDirectory (herror : ∀ e, Q (.error e) t)
    (hok : ∀ u, t.removeDirectory p = .ok u → Q (.ok ()) u) : (removeDirectory p).Endures Q t :=
  endures_step (fun _ => herror _) (change_endures herror hok)

theorem changeWith_endures {γ : Type} {Q : Final (Except FileError γ)} {x : Except FileError (γ × FileTree)}
    (herror : ∀ e, Q (.error e) t) (hok : ∀ a u, x = .ok (a, u) → Q (.ok a) u) :
    Q (FileOp.changeWith t x).1 (FileOp.changeWith t x).2 := by
  cases x with
  | error e => exact herror e
  | ok x => exact hok x.1 x.2 rfl

theorem endures_copy {Q : Final (Except FileError Nat)} (herror : ∀ e u, MayWrite q t u → Q (.error e) u)
    (hok : ∀ size u, t.copy p q = .ok (size, u) → Q (.ok size) u) : (copy p q).Endures Q t :=
  endures_step (fun fault => herror _ _ (mayWrite_leave rfl fault))
    (changeWith_endures (fun e => herror e t (.inl rfl)) hok)

theorem endures_lock {Q : Final (Except FileError Bool)} (herror : ∀ e u, MayWrite p t u → Q (.error e) u)
    (hok : ∀ free u, t.lock p = .ok (free, u) → Q (.ok free) u) : (lock p).Endures Q t :=
  endures_step (fun fault => herror _ _ (mayWrite_leave rfl fault))
    (changeWith_endures (fun e => herror e t (.inl rfl)) hok)

theorem endures_unlock {Q : Final Unit} (h : Q () (t.unlock p)) : (unlock p).Endures Q t :=
  endures_step (fun _ => h) h

end Operations

-- from here on the rules are used
attribute [irreducible] Endures

/-! ## Tasks that may fail -/

section

variable {x : QuarantineTask α} {f : α → QuarantineTask β} {files : FileTask (Except FileError α)}
  {Q R : Final (Except QuarantineError α)} {Q' : Final (Except QuarantineError β)}

theorem endures_run_bind (h : x.run.Endures R t) (herror : ∀ e u, R (.error e) u → Q' (.error e) u)
    (hok : ∀ a u, R (.ok a) u → (f a).run.Endures Q' u) : (x >>= f).run.Endures Q' t := by
  rw [ExceptT.run_bind]
  refine h.bind fun result u hu => ?_
  cases result with
  | ok a => exact hok a u hu
  | error e => exact endures_pure.2 (herror e u hu)

theorem endures_ofFiles {R : Final (Except FileError α)} (h : files.Endures R t)
    (herror : ∀ e u, R (.error e) u → Q (.error (.file e)) u) (hok : ∀ a u, R (.ok a) u → Q (.ok a) u) :
    (QuarantineTask.ofFiles files).run.Endures Q t := by
  refine h.bind fun result u hu => ?_
  cases result with
  | ok a => exact endures_pure.2 (hok a u hu)
  | error e => exact endures_pure.2 (herror e u hu)

/-- What the tree is like does not depend on how refusals are reported. -/
theorem endures_ofFiles_tree {P : FileTree → Prop} (h : files.Endures (fun _ => P) t) :
    (QuarantineTask.ofFiles files).run.Endures (fun _ => P) t :=
  endures_ofFiles h (fun _ _ hP => hP) fun _ _ hP => hP

theorem endures_monadLift (h : task.Endures (fun a => Q (.ok a)) t) :
    (monadLift task : QuarantineTask α).run.Endures Q t :=
  h.bind fun _ _ hQ => endures_pure.2 hQ

theorem endures_lift_bind {R : Final α} (h : task.Endures R t) (hok : ∀ a u, R a u → (f a).run.Endures Q' u) :
    ((monadLift task : QuarantineTask α) >>= f).run.Endures Q' t := by
  refine endures_run_bind (R := fun result u => ∃ a, result = .ok a ∧ R a u)
    (endures_monadLift (h.mono fun a u hu => ⟨a, rfl, hu⟩)) ?_ ?_
  · rintro e u ⟨a, ha, -⟩
    cases ha
  · rintro a u ⟨a', ha, hu⟩
    cases ha
    exact hok a u hu

theorem endures_tryCatch {handle : QuarantineError → QuarantineTask α} (h : x.run.Endures R t)
    (hok : ∀ a u, R (.ok a) u → Q (.ok a) u) (herror : ∀ e u, R (.error e) u → (handle e).run.Endures Q u) :
    (tryCatch x handle).run.Endures Q t := by
  refine h.bind fun result u hu => ?_
  cases result with
  | ok a => exact endures_pure.2 (hok a u hu)
  | error e => exact herror e u hu

end

/-! ## Tasks that fill a session -/

variable {s : OpenSession} {f : α → FillingTask β} {Q : Final (Except QuarantineError β × OpenSession)}

theorem endures_fill_bind {x : FillingTask α} {R : Final (Except QuarantineError α × OpenSession)}
    (h : (s.fill x).Endures R t) (herror : ∀ e s' u, R (.error e, s') u → Q (.error e, s') u)
    (hok : ∀ a s' u, R (.ok a, s') u → (s'.fill (f a)).Endures Q u) : (s.fill (x >>= f)).Endures Q t := by
  rw [fill_bind]
  refine h.bind fun result u hu => ?_
  obtain ⟨result, s'⟩ := result
  cases result with
  | ok a => exact hok a s' u hu
  | error e => exact endures_pure.2 (herror e s' u hu)

theorem endures_get_bind {f : OpenSession → FillingTask β} (h : (s.fill (f s)).Endures Q t) :
    (s.fill (get >>= f)).Endures Q t := by
  rw [fill_bind]
  exact h

theorem endures_set_bind {s' : OpenSession} {f : Unit → FillingTask β} (h : (s'.fill (f ())).Endures Q t) :
    (s.fill (set s' >>= f)).Endures Q t := by
  rw [fill_bind]
  exact h

theorem endures_modify_bind {g : OpenSession → OpenSession} {f : Unit → FillingTask β}
    (h : ((g s).fill (f ())).Endures Q t) : (s.fill (modify g >>= f)).Endures Q t := by
  rw [fill_bind]
  exact h

theorem endures_fill_lift {task : QuarantineTask β} (h : task.run.Endures (fun result => Q (result, s)) t) :
    (s.fill (OpenSession.lift task)).Endures Q t :=
  h.bind fun _ _ hQ => endures_pure.2 hQ

theorem endures_files_bind {task : FileTask (Except FileError α)} {R : Final (Except FileError α)}
    (h : task.Endures R t) (herror : ∀ e u, R (.error e) u → Q (.error (.file e), s) u)
    (hok : ∀ a u, R (.ok a) u → (s.fill (f a)).Endures Q u) :
    (s.fill (OpenSession.files task >>= f)).Endures Q t := by
  have hfiles : (s.fill (OpenSession.files task)).Endures (fun result u => result.2 = s ∧
      ((∃ e, result.1 = .error (.file e) ∧ R (.error e) u) ∨ ∃ a, result.1 = .ok a ∧ R (.ok a) u)) t :=
    endures_fill_lift (endures_ofFiles h (fun e u hu => ⟨rfl, .inl ⟨e, rfl, hu⟩⟩)
      fun a u hu => ⟨rfl, .inr ⟨a, rfl, hu⟩⟩)
  refine endures_fill_bind hfiles ?_ ?_
  · rintro e s' u ⟨rfl, ⟨e', he, hu⟩ | ⟨a, ha, -⟩⟩
    · cases he
      exact herror e' u hu
    · cases ha
  · rintro a s' u ⟨rfl, ⟨e, he, -⟩ | ⟨a', ha, hu⟩⟩
    · cases he
    · cases ha
      exact hok a u hu

end FileTask

end Deadwood
