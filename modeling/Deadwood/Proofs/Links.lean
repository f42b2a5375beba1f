import Deadwood.Proofs.RestoreSafety

/-!
# Links

The last name of a path may be that of a link. It is followed when a file is looked at, read or written, and not when
it is moved or removed. Restoring compares contents, and does not ask whether the two files are one.

* **`FileTask.runLinked_unlinked`**: where there are no links, tasks do what they do to a tree of files;
* `restoreFile_loses_linked_copy`: a copy is lost if a link to it is in the place of its file.
-/

namespace Deadwood

/-- A tree of files, and the paths that the links in it lead to. -/
structure LinkedTree where
  tree : FileTree
  links : List (Address × Path)

namespace LinkedTree

def link? (t : LinkedTree) (p : Path) : Option Path :=
  match t.tree.address p with
  | .ok a => t.links.lookup a
  | .error _ => none

def target (t : LinkedTree) (p : Path) : Path := (t.link? p).getD p

def unlink (t : LinkedTree) (p : Path) : LinkedTree :=
  match t.tree.address p with
  | .ok a => { t with links := t.links.filter (·.1 != a) }
  | .error _ => t

def relink (t : LinkedTree) (p target : Path) : LinkedTree :=
  match t.tree.address p with
  | .ok a => ⟨t.tree.erase a, (a, target) :: t.links⟩
  | .error _ => t

/-- The answer of an operation on the tree, and the links as they are. -/
def keep {α : Type} (t : LinkedTree) (x : α × FileTree) : α × LinkedTree := (x.1, { t with tree := x.2 })

end LinkedTree

namespace FileOp

open LinkedTree

/-- Carries out an operation where there may be links. -/
def performLinked : (op : FileOp) → LinkedTree → op.Answer × LinkedTree
  | status p, t => t.keep (perform (status (t.target p)) t.tree)
  | read p, t => t.keep (perform (read (t.target p)) t.tree)
  | write p contents, t => t.keep (perform (write (t.target p) contents) t.tree)
  | copy p q, t => t.keep (perform (copy (t.target p) (t.target q)) t.tree)
  | list p, t => t.keep (perform (list (t.target p)) t.tree)
  | resolve p, t => t.keep (perform (resolve (t.target p)) t.tree)
  | lock p, t => t.keep (perform (lock (t.target p)) t.tree)
  | unlock p, t => t.keep (perform (unlock (t.target p)) t.tree)
  | makeDirectory p, t => if (t.link? p).isSome then (.error .occupied, t) else t.keep (perform (makeDirectory p) t.tree)
  | removeDirectory p, t =>
    if (t.link? p).isSome then (.error .notDirectory, t) else t.keep (perform (removeDirectory p) t.tree)
  | removeTree p, t => if (t.link? p).isSome then (.error .notDirectory, t) else t.keep (perform (removeTree p) t.tree)
  | removeFile p, t => if (t.link? p).isSome then (.ok (), t.unlink p) else t.keep (perform (removeFile p) t.tree)
  | move p q, t =>
    match t.link? p with
    | some target => (.ok (), ((t.unlink p).unlink q).relink q target)
    | none => (t.unlink q).keep (perform (move p q) t.tree)

theorem performLinked_unlinked (op : FileOp) (t : FileTree) :
    op.performLinked ⟨t, []⟩ = ((op.perform t).1, ⟨(op.perform t).2, []⟩) := by
  have hnone (p : Path) : LinkedTree.link? ⟨t, []⟩ p = none := by
    unfold link?
    cases t.address p <;> rfl
  have hunlink (p : Path) : LinkedTree.unlink ⟨t, []⟩ p = ⟨t, []⟩ := by
    unfold unlink
    cases t.address p <;> rfl
  cases op <;> simp [performLinked, perform, target, keep, hnone, hunlink]

end FileOp

namespace FileTask

variable {α β : Type}

def runLinked : FileTask α → LinkedTree → α × LinkedTree
  | done a, t => (a, t)
  | step op next, t => runLinked (next (op.performLinked t).1) (op.performLinked t).2

/-- **Where there are no links**, a task does what it does to the tree of files. -/
theorem runLinked_unlinked (task : FileTask α) (t : FileTree) :
    task.runLinked ⟨t, []⟩ = ((task.run t).1, ⟨(task.run t).2, []⟩) := by
  induction task generalizing t with
  | done a => rfl
  | step op next ih =>
    rw [runLinked, FileOp.performLinked_unlinked]
    exact ih _ _

theorem runLinked_bind (task : FileTask α) (next : α → FileTask β) (t : LinkedTree) :
    (task >>= next).runLinked t = (next (task.runLinked t).1).runLinked (task.runLinked t).2 := by
  induction task generalizing t with
  | done a => rfl
  | step op _ ih => exact ih _ _

variable {t : LinkedTree} {p : Path} {a : Address} {contents : Bytes}

theorem runLinked_exists? (h : t.tree.find (t.target p) = .ok (a, .file contents)) :
    (exists? p).runLinked t = (true, t) := by
  simp only [exists?, status, runLinked_bind, runLinked, FileOp.performLinked, FileOp.perform, h]
  rfl

theorem runLinked_read (h : t.tree.find (t.target p) = .ok (a, .file contents)) :
    (read p).runLinked t = (.ok contents, t) := by
  simp only [read, runLinked, FileOp.performLinked, FileOp.perform, FileTree.read, h]
  rfl

theorem runLinked_removeFile (hp : t.link? p = none) (h : t.tree.find p = .ok (a, .file contents)) :
    (removeFile p).runLinked t = (.ok (), { t with tree := t.tree.erase a }) := by
  simp only [removeFile, runLinked, FileOp.performLinked, FileOp.perform, FileTree.removeFile, hp, h]
  rfl

end FileTask

namespace Quarantine

variable {q : Quarantine} {directory target : Path} {f : StoredFile} {t : LinkedTree} {a : Address} {contents : Bytes}

/-- **A copy is lost** if a link to it is in the place of its file: the file counts as restored, and its contents are no
longer there. -/
theorem runLinked_restoreFile (hstored : t.link? (directory.join f.stored) = none)
    (hcopy : t.tree.find (directory.join f.stored) = .ok (a, .file contents))
    (hlink : t.link? (q.root.join f.home) = some target) (htarget : t.tree.find target = .ok (a, .file contents)) :
    (q.restoreFile directory f).runLinked t = (.ok (), { t with tree := t.tree.erase a }) := by
  have hcopy' : t.tree.find (t.target (directory.join f.stored)) = .ok (a, .file contents) := by
    rw [LinkedTree.target, hstored, Option.getD_none, hcopy]
  have hhome : t.tree.find (t.target (q.root.join f.home)) = .ok (a, .file contents) := by
    rw [LinkedTree.target, hlink, Option.getD_some, htarget]
  have hsame : (sameContents (directory.join f.stored) (q.root.join f.home)).runLinked t = (true, t) := by
    simp only [sameContents, FileTask.runLinked_bind, FileTask.runLinked_read hcopy', FileTask.runLinked_read hhome,
      beq_self_eq_true]
    rfl
  simp only [restoreFile, FileTask.runLinked_bind, FileTask.runLinked_exists? hcopy', FileTask.runLinked_exists? hhome,
    hsame, Bool.not_true, Bool.false_eq_true, if_false, if_true, FileTask.runLinked_removeFile hstored hcopy]
  rfl

end Quarantine

/-- A script has been moved away, and a link to the copy is where it was. -/
theorem restoreFile_loses_linked_copy :
    let q : Quarantine := ⟨⟨"/p"⟩⟩
    let copy : Address := ["p", ".deadfiles", "quarantine", "S", "files", "a.js"]
    let f : StoredFile := { home := ⟨"a.js"⟩, stored := ⟨"files/a.js"⟩, size := 1 }
    let s : LinkedTree :=
      { tree := { nodes := [(copy.take 1, .directory), (copy.take 2, .directory), (copy.take 3, .directory),
          (copy.take 4, .directory), (copy.take 5, .directory), (copy, .file [111])] },
        links := [(["p", "a.js"], ⟨"/p/.deadfiles/quarantine/S/files/a.js"⟩)] }
    let after := (q.restoreFile (q.directory "S") f).runLinked s
    s.tree.WellFormed ∧ s.tree.get? copy = some (.file [111]) ∧ s.tree.get? ["p", "a.js"] = none ∧
      after.1.isOk ∧ after.2.tree.get? copy = none ∧ after.2.tree.get? ["p", "a.js"] = none := by
  decide +kernel

end Deadwood
