import Deadwood.Liveness.Reachability
import Mathlib.Data.List.Nodup
import Mathlib.Logic.Relation

/-!
# The walk along the edges

The walk keeps a queue of units and the units seen so far. Every unit that was seen and is no longer
in the queue has all its successors among those seen (`WalkState`), and each step takes one unit out
of the queue; so as many steps as there are units empty it.
-/

namespace Deadwood

open List

theorem nodup_eraseDups {α : Type} [BEq α] [LawfulBEq α] (l : List α) : l.eraseDups.Nodup := by
  generalize hn : l.length = n
  induction n using Nat.strongRecOn generalizing l with
  | ind n ih =>
    cases l with
    | nil => exact nodup_nil
    | cons a l =>
      have hlt : (l.filter fun b => !b == a).length < n := by
        have := length_filter_le (fun b => !b == a) l
        rw [← hn, length_cons]
        omega
      rw [eraseDups_cons]
      exact nodup_cons.2 ⟨by simp [mem_eraseDups], ih _ hlt _ rfl⟩

/-! ## One step -/

section Walk

variable {next : Nat → List Nat} {count fuel unit : Nat} {queue seen : List Nat} {x : Nat}

def freshFrom (next : Nat → List Nat) (seen : List Nat) (unit : Nat) : List Nat :=
  ((next unit).filter (!seen.contains ·)).eraseDups

theorem mem_freshFrom : x ∈ freshFrom next seen unit ↔ x ∈ next unit ∧ x ∉ seen := by
  simp [freshFrom, mem_eraseDups]

theorem walk_cons : walk next (fuel + 1) (unit :: queue) seen =
    walk next fuel (queue ++ freshFrom next seen unit) (seen ++ freshFrom next seen unit) := rfl

/-- The state of a walk among `count` units. -/
structure WalkState (next : Nat → List Nat) (count : Nat) (queue seen : List Nat) : Prop where
  nodup : seen.Nodup
  lt : ∀ x ∈ seen, x < count
  queued : ∀ x ∈ queue, x ∈ seen
  closed : ∀ x ∈ seen, x ∉ queue → ∀ y ∈ next x, y ∈ seen

theorem WalkState.step (hnext : ∀ x < count, ∀ y ∈ next x, y < count) (h : WalkState next count (unit :: queue) seen) :
    WalkState next count (queue ++ freshFrom next seen unit) (seen ++ freshFrom next seen unit) where
  nodup := by
    refine nodup_append'.2 ⟨h.nodup, nodup_eraseDups _, fun x hx hf => ?_⟩
    exact (mem_freshFrom.1 hf).2 hx
  lt x hx := by
    rcases mem_append.1 hx with hx | hx
    · exact h.lt x hx
    · exact hnext unit (h.lt unit (h.queued unit mem_cons_self)) x (mem_freshFrom.1 hx).1
  queued x hx := by
    rcases mem_append.1 hx with hx | hx
    · exact mem_append_left _ (h.queued x (mem_cons_of_mem _ hx))
    · exact mem_append_right _ hx
  closed x hx hq y hy := by
    rw [mem_append, not_or] at hq
    have hx : x ∈ seen := (mem_append.1 hx).resolve_right hq.2
    by_cases hy' : y ∈ seen
    · exact mem_append_left _ hy'
    · by_cases hu : x = unit
      · subst hu
        exact mem_append_right _ (mem_freshFrom.2 ⟨hy, hy'⟩)
      · have hq' : x ∉ unit :: queue := by simp [hu, hq.1]
        exact absurd (h.closed x hx hq' y hy) hy'

theorem WalkState.length_le (h : WalkState next count queue seen) : seen.length ≤ count := by
  have hsub : seen ⊆ List.range count := fun x hx => mem_range.2 (h.lt x hx)
  have hle := h.nodup.length_le_of_subset hsub
  rwa [length_range] at hle

/-! ## Whole walks -/

/-- The fuel suffices for the units that have not left the queue yet. -/
def Enough (count fuel : Nat) (queue seen : List Nat) : Prop :=
  count + queue.length ≤ fuel + seen.length

theorem Enough.step (h : Enough count (fuel + 1) (unit :: queue) seen) (fresh : List Nat) :
    Enough count fuel (queue ++ fresh) (seen ++ fresh) := by
  unfold Enough at h ⊢
  rw [length_cons] at h
  rw [length_append, length_append]
  omega

theorem WalkState.queue_eq_nil (h : WalkState next count queue seen) (hf : Enough count 0 queue seen) : queue = [] := by
  have hle := h.length_le
  unfold Enough at hf
  exact length_eq_zero_iff.1 (by omega)

theorem subset_walk (next : Nat → List Nat) : ∀ (fuel : Nat) (queue seen : List Nat), seen ⊆ walk next fuel queue seen
  | 0, _, _ => Subset.refl _
  | _ + 1, [], _ => Subset.refl _
  | fuel + 1, unit :: queue, seen => by
    rw [walk_cons]
    exact Subset.trans (subset_append_left _ _) (subset_walk next fuel _ _)

/-- **In the end the successors of all units seen were seen.** -/
theorem WalkState.walk_closed (hnext : ∀ x < count, ∀ y ∈ next x, y < count)
    (h : WalkState next count queue seen) (hf : Enough count fuel queue seen) :
    ∀ x ∈ walk next fuel queue seen, ∀ y ∈ next x, y ∈ walk next fuel queue seen := by
  induction fuel generalizing queue seen with
  | zero =>
    obtain rfl := h.queue_eq_nil hf
    exact fun x hx => h.closed x hx not_mem_nil
  | succ fuel ih =>
    cases queue with
    | nil => exact fun x hx => h.closed x hx not_mem_nil
    | cons unit queue =>
      rw [walk_cons]
      exact ih (h.step hnext) (hf.step _)

theorem exists_chain_of_mem_walk (hq : ∀ y ∈ queue, y ∈ seen) (hx : x ∈ walk next fuel queue seen) :
    ∃ y ∈ seen, Relation.ReflTransGen (fun a b => b ∈ next a) y x := by
  induction fuel generalizing queue seen with
  | zero => exact ⟨x, hx, .refl⟩
  | succ fuel ih =>
    cases queue with
    | nil => exact ⟨x, hx, .refl⟩
    | cons unit queue =>
      rw [walk_cons] at hx
      have hq' : ∀ y ∈ queue ++ freshFrom next seen unit, y ∈ seen ++ freshFrom next seen unit := by
        intro y hy
        rcases mem_append.1 hy with hy | hy
        · exact mem_append_left _ (hq y (mem_cons_of_mem _ hy))
        · exact mem_append_right _ hy
      obtain ⟨y, hy, hyx⟩ := ih hq' hx
      rcases mem_append.1 hy with hy | hy
      · exact ⟨y, hy, hyx⟩
      · exact ⟨unit, hq unit mem_cons_self, .head (mem_freshFrom.1 hy).1 hyx⟩

variable (hnext : ∀ x < count, ∀ y ∈ next x, y < count) (h : WalkState next count queue seen)
  (hf : Enough count fuel queue seen)
include hnext h hf

/-- **A walk sees exactly the units with a chain of steps from those it starts with.** -/
theorem WalkState.mem_walk_iff : x ∈ walk next fuel queue seen ↔
      ∃ y ∈ seen, Relation.ReflTransGen (fun a b => b ∈ next a) y x := by
  refine ⟨exists_chain_of_mem_walk h.queued, ?_⟩
  rintro ⟨y, hy, hyx⟩
  induction hyx with
  | refl => exact subset_walk next fuel queue seen hy
  | tail _ hstep ih => exact h.walk_closed hnext hf _ ih _ hstep

theorem WalkState.walk_succ : walk next (fuel + 1) queue seen = walk next fuel queue seen := by
  induction fuel generalizing queue seen with
  | zero =>
    obtain rfl := h.queue_eq_nil hf
    rfl
  | succ fuel ih =>
    cases queue with
    | nil => rfl
    | cons unit queue =>
      rw [walk_cons, walk_cons]
      exact ih (h.step hnext) (hf.step _)

/-- **The walk ends by itself**: any fuel that is enough gives the same result. -/
theorem WalkState.walk_eq_of_le {more : Nat} (hle : fuel ≤ more) :
    walk next more queue seen = walk next fuel queue seen := by
  obtain ⟨extra, rfl⟩ := Nat.exists_eq_add_of_le hle
  clear hle
  induction extra with
  | zero => rfl
  | succ extra ih =>
    have hf' : Enough count (fuel + extra) queue seen := by
      unfold Enough at hf ⊢
      omega
    rw [← Nat.add_assoc, h.walk_succ hnext hf', ih]

end Walk

/-! ## Graphs -/

namespace Graph

variable (g : Graph) (entries : List Nat) {i j : Nat}

def successors (unit : Nat) : List Nat := (g.edgesFrom unit).map (·.target)

def Imports (i j : Nat) : Prop := ∃ e ∈ g.edges, e.source = i ∧ e.target = j

def Unread (i : Nat) : Prop := ∃ u, g.units[i]? = some u ∧ u.failure.isSome

/-- Everything starts from a unit: it is an entry, or it could not be read. -/
def IsRoot (i : Nat) : Prop := (i ∈ entries ∧ i < g.units.length) ∨ g.Unread i

variable {g entries}

theorem mem_successors : j ∈ g.successors i ↔ g.Imports i j := by
  simp only [successors, edgesFrom, Imports, mem_map, mem_filter, beq_iff_eq]
  exact ⟨fun ⟨e, ⟨he, hs⟩, ht⟩ => ⟨e, he, hs, ht⟩, fun ⟨e, he, hs, ht⟩ => ⟨e, ⟨he, hs⟩, ht⟩⟩

theorem Imports.target_lt (h : g.Imports i j) : j < g.units.length := by
  obtain ⟨e, he, -, rfl⟩ := h
  exact (g.within e he).2.2

theorem Unread.lt (h : g.Unread i) : i < g.units.length := by
  obtain ⟨u, hu, -⟩ := h
  exact (List.getElem?_eq_some_iff.1 hu).1

theorem IsRoot.lt {i : Nat} (h : g.IsRoot entries i) : i < g.units.length := by
  rcases h with ⟨-, h⟩ | h
  · exact h
  · exact h.lt

theorem mem_roots : i ∈ g.roots entries ↔ g.IsRoot entries i := by
  have hunread : i ∈ (g.units.zipIdx.filter fun x => x.1.failure.isSome).map (·.2) ↔ g.Unread i := by
    simp only [mem_map, mem_filter, Unread, Prod.exists, exists_eq_right, mem_zipIdx_iff_getElem?]
  simp only [roots, mem_eraseDups, mem_filter, mem_append, hunread, decide_eq_true_eq]
  constructor
  · rintro ⟨he | hu, hi⟩
    · exact .inl ⟨he, hi⟩
    · exact .inr hu
  · rintro (⟨he, hi⟩ | hu)
    · exact ⟨.inl he, hi⟩
    · exact ⟨.inr hu, hu.lt⟩

theorem successors_lt {x : Nat} (_ : x < g.units.length) : ∀ y ∈ g.successors x, y < g.units.length :=
  fun _ hy => (mem_successors.1 hy).target_lt

variable (g entries)

theorem walkState_roots : WalkState g.successors g.units.length (g.roots entries) (g.roots entries) where
  nodup := nodup_eraseDups _
  lt _ hx := (mem_roots.1 hx).lt
  queued _ hx := hx
  closed _ hx hq := absurd hx hq

theorem enough_roots : Enough g.units.length g.units.length (g.roots entries) (g.roots entries) :=
  Nat.le_refl _

/-- **The units reached are those with a chain of imports from a root.** -/
theorem mem_reachableUnits : i ∈ g.reachableUnits entries ↔
    ∃ r, g.IsRoot entries r ∧ Relation.ReflTransGen g.Imports r i := by
  have hrel : (fun a b => b ∈ g.successors a) = g.Imports := by
    funext a b
    exact propext mem_successors
  have h := (g.walkState_roots entries).mem_walk_iff (x := i) (fun _ => successors_lt) (g.enough_roots entries)
  rw [hrel] at h
  simp only [mem_roots] at h
  exact h

theorem walk_roots_eq {fuel : Nat} (hle : g.units.length ≤ fuel) :
    walk g.successors fuel (g.roots entries) (g.roots entries) = g.reachableUnits entries :=
  (g.walkState_roots entries).walk_eq_of_le (fun _ => successors_lt) (g.enough_roots entries) hle

variable {g entries}

theorem reachable_of_imports (hi : i ∈ g.reachableUnits entries) (h : g.Imports i j) :
    j ∈ g.reachableUnits entries := by
  rw [mem_reachableUnits] at hi ⊢
  obtain ⟨r, hr, hri⟩ := hi
  exact ⟨r, hr, hri.tail h⟩

end Graph

end Deadwood
