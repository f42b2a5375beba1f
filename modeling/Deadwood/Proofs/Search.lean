import Deadwood.Graph.Build
import Mathlib.Tactic.Tauto

/-!
# Searches among fewer files

When files are taken out of a project, a search among those that are left finds nothing where it found
nothing before, and what it found if that is still there (`Steady`); so the first success of a
sequence of searches stays the first.
-/

namespace Deadwood

open List

/-! ## Searches -/

/-- What becomes of a search: nothing found stays nothing found, and a `Good` result stays, up to
`Same`. -/
structure Steady {α : Type} (Good : α → Prop) (Same : α → α → Prop) (o o' : Option α) : Prop where
  absent : o = none → o' = none
  found : ∀ a, o = some a → Good a → ∃ a', o' = some a' ∧ Same a a'

namespace Steady

variable {α β : Type} {Good : α → Prop} {Same : α → α → Prop} {a a' b b' : Option α}

theorem none : Steady Good Same none none := ⟨fun _ => rfl, nofun⟩

theorem orElse (ha : Steady Good Same a a') (hb : Steady Good Same b b') : Steady Good Same (a <|> b) (a' <|> b') := by
  cases a with
  | none => rw [ha.absent rfl]; simpa using hb
  | some x =>
    refine ⟨fun h => by simp at h, fun y hy hgood => ?_⟩
    obtain rfl : x = y := by simpa using hy
    obtain ⟨x', hx', hsame⟩ := ha.found x rfl hgood
    exact ⟨x', by simp [hx'], hsame⟩

theorem findSome? {f f' : β → Option α} (h : ∀ x, Steady Good Same (f x) (f' x)) :
    ∀ xs : List β, Steady Good Same (xs.findSome? f) (xs.findSome? f')
  | [] => none
  | x :: xs => by
    have hcons (g : β → Option α) : (x :: xs).findSome? g = (g x <|> xs.findSome? g) := by
      rw [findSome?_cons]
      cases g x <;> rfl
    rw [hcons f, hcons f']
    exact (h x).orElse (findSome? h xs)

theorem bind {f f' : β → Option α} (x : Option β) (h : ∀ y, Steady Good Same (f y) (f' y)) :
    Steady Good Same (x.bind f) (x.bind f') := by
  cases x with
  | none => exact none
  | some y => exact h y

end Steady

/-! ## Catalogs -/

def CatalogEntry.moved (σ : Nat → Nat) (e : CatalogEntry) : CatalogEntry := { e with index := σ e.index }

section

variable (σ : Nat → Nat) (e : CatalogEntry)
include σ e

@[simp]
theorem CatalogEntry.moved_index : (e.moved σ).index = σ e.index := rfl

@[simp]
theorem CatalogEntry.moved_path : (e.moved σ).path = e.path := rfl

@[simp]
theorem CatalogEntry.moved_unit : (e.moved σ).unit = e.unit := rfl

end

def Link.moved (σ : Nat → Nat) (l : Link) : Link := { l with target := σ l.target }

namespace Catalog

abbrev SteadyUnit (σ : Nat → Nat) (alive : Nat → Prop) : Option Nat → Option Nat → Prop :=
  Steady alive fun t t' => σ t' = t

/-- The files of `c'` are some of those of `c`, at positions that `σ` takes back to where they are in
`c`. Those at positions that are `alive` are among them. -/
structure Thinned (c c' : Catalog) (σ : Nat → Nat) (alive : Nat → Prop) : Prop where
  old : ∀ e ∈ c'.entries, e.moved σ ∈ c.entries
  kept : ∀ e ∈ c.entries, alive e.index → ∃ e' ∈ c'.entries, e'.moved σ = e
  injective : ∀ e ∈ c'.entries, ∀ f ∈ c'.entries, σ e.index = σ f.index → e.index = f.index
  lookup? : ∀ path, SteadyUnit σ alive (c.lookup? path) (c'.lookup? path)

abbrev SteadyLink (σ : Nat → Nat) (alive : Nat → Prop) : Option Link → Option Link → Prop :=
  Steady (fun l => alive l.target) fun l l' => l'.moved σ = l

/-- The links of an import, among fewer files. Of no links nothing is said, because a package of
which nothing is used may vanish. -/
abbrev SteadyLinks (σ : Nat → Nat) (alive : Nat → Prop) : Option (List Link) → Option (List Link) → Prop :=
  Steady (fun ls => ls ≠ [] ∧ ∀ l ∈ ls, alive l.target) fun ls ls' => ∀ l ∈ ls, ∃ l' ∈ ls', l'.moved σ = l

/-- Links that are found one by one, among fewer files. -/
structure SteadyList (σ : Nat → Nat) (alive : Nat → Prop) (ls ls' : List Link) : Prop where
  absent : ls = [] → ls' = []
  found : ∀ l ∈ ls, alive l.target → ∃ l' ∈ ls', l'.moved σ = l

section Links

variable {σ : Nat → Nat} {alive : Nat → Prop} {o o' : Option Nat} {ls ls' ms ms' : List Link}

theorem SteadyUnit.linkTo? (h : SteadyUnit σ alive o o') (i : Import) :
    SteadyLinks σ alive (linkTo? o i) (linkTo? o' i) := by
  constructor
  · intro hnone
    rw [Deadwood.linkTo?, Option.map_eq_none_iff] at hnone
    rw [h.absent hnone, Deadwood.linkTo?, Option.map_none]
  · intro ls hls hgood
    obtain ⟨t, ht, rfl⟩ := Option.map_eq_some_iff.1 hls
    obtain ⟨t', ht', rfl⟩ := h.found t ht (hgood.2 _ mem_cons_self)
    refine ⟨_, by rw [ht', Deadwood.linkTo?, Option.map_some], fun l hl => ?_⟩
    rw [mem_singleton.1 hl]
    exact ⟨_, mem_cons_self, rfl⟩

theorem SteadyUnit.link (h : SteadyUnit σ alive o o') (names : ImportedNames) :
    SteadyLink σ alive (o.map fun t => ⟨t, names⟩) (o'.map fun t => ⟨t, names⟩) := by
  constructor
  · intro hnone
    rw [h.absent (Option.map_eq_none_iff.1 hnone), Option.map_none]
  · intro l hl halive
    obtain ⟨t, ht, rfl⟩ := Option.map_eq_some_iff.1 hl
    obtain ⟨t', ht', rfl⟩ := h.found t ht halive
    exact ⟨_, by rw [ht', Option.map_some], rfl⟩

namespace SteadyList

theorem nil : SteadyList σ alive [] [] := ⟨fun _ => rfl, nofun⟩

theorem append (h : SteadyList σ alive ls ls') (k : SteadyList σ alive ms ms') :
    SteadyList σ alive (ls ++ ms) (ls' ++ ms') := by
  constructor
  · intro hnil
    rw [append_eq_nil_iff] at hnil
    rw [h.absent hnil.1, k.absent hnil.2, append_nil]
  · intro l hl halive
    rcases mem_append.1 hl with hl | hl
    · obtain ⟨l', hl', heq⟩ := h.found l hl halive
      exact ⟨l', mem_append_left _ hl', heq⟩
    · obtain ⟨l', hl', heq⟩ := k.found l hl halive
      exact ⟨l', mem_append_right _ hl', heq⟩

theorem ofOption {x x' : Option Link} (h : SteadyLink σ alive x x') : SteadyList σ alive x.toList x'.toList := by
  constructor
  · intro hnil
    rw [h.absent (Option.toList_eq_nil_iff.1 hnil), Option.toList_none]
  · intro l hl halive
    obtain ⟨l', hl', hsame⟩ := h.found l (Option.mem_toList.1 hl) halive
    exact ⟨l', Option.mem_toList.2 hl', hsame⟩

theorem filterMap {β : Type} {f f' : β → Option Link} (h : ∀ x, SteadyLink σ alive (f x) (f' x)) :
    ∀ xs : List β, SteadyList σ alive (xs.filterMap f) (xs.filterMap f')
  | [] => nil
  | x :: xs => by
    have hcons (g : β → Option Link) : (x :: xs).filterMap g = (g x).toList ++ xs.filterMap g := by
      rw [filterMap_cons]
      cases g x <;> rfl
    rw [hcons f, hcons f']
    exact (ofOption (h x)).append (filterMap h xs)

theorem flatMap {β : Type} {f f' : β → List Link} (h : ∀ x, SteadyList σ alive (f x) (f' x)) :
    ∀ xs : List β, SteadyList σ alive (xs.flatMap f) (xs.flatMap f')
  | [] => nil
  | x :: xs => by
    rw [flatMap_cons, flatMap_cons]
    exact (h x).append (flatMap h xs)

/-- Links count as an answer if there are any; with them come others. -/
theorem followedBy (h : SteadyList σ alive ls ls') (k : SteadyList σ alive ms ms') :
    SteadyLinks σ alive (if ls.isEmpty then none else some (ls ++ ms))
      (if ls'.isEmpty then none else some (ls' ++ ms')) := by
  by_cases hnil : ls = []
  · rw [h.absent hnil, hnil]
    exact .none
  · refine ⟨fun hnone => by simp [hnil] at hnone, fun ns hns hgood => ?_⟩
    obtain rfl : ls ++ ms = ns := by simpa [hnil] using hns
    have hfound : ∀ l ∈ ls ++ ms, ∃ l' ∈ ls' ++ ms', l'.moved σ = l :=
      fun l hl => (h.append k).found l hl (hgood.2 l hl)
    obtain ⟨l, hl⟩ := exists_mem_of_ne_nil ls hnil
    obtain ⟨l', hl', -⟩ := h.found l hl (hgood.2 l (mem_append_left _ hl))
    exact ⟨ls' ++ ms', by simp [ne_nil_of_mem hl'], hfound⟩

theorem orNone (h : SteadyList σ alive ls ls') : SteadyLinks σ alive
    (if ls.isEmpty then none else some ls) (if ls'.isEmpty then none else some ls') := by
  simpa using h.followedBy .nil

end SteadyList

end Links

theorem lookup?_eq_some {c : Catalog} (hc : ∀ e ∈ c.entries, ∀ f ∈ c.entries, e.path = f.path → e = f)
    {path : String} {t : Nat} :
    c.lookup? path = some t ↔ path.isEmpty = false ∧ ∃ e ∈ c.entries, e.path = path ∧ e.index = t := by
  unfold lookup?
  cases hpath : path.isEmpty with
  | true => simp
  | false =>
    simp only [Bool.false_eq_true, if_false, Option.map_eq_some_iff, true_and]
    constructor
    · rintro ⟨e, he, ht⟩
      have := mem_of_getLast? he
      rw [mem_filter, beq_iff_eq] at this
      exact ⟨e, this.1, this.2, ht⟩
    · rintro ⟨e, he, hp, ht⟩
      have hmem : e ∈ c.entries.filter (·.path == path) := by simp [he, hp]
      obtain ⟨f, hf⟩ := Option.isSome_iff_exists.1 (getLast?_isSome.2 (ne_nil_of_mem hmem))
      have hf' := mem_of_getLast? hf
      rw [mem_filter, beq_iff_eq] at hf'
      obtain rfl := hc f hf'.1 e he (hf'.2.trans hp.symm)
      exact ⟨f, hf, ht⟩

theorem mem_linksTo {es : List CatalogEntry} {q : CatalogEntry → Bool} {names : ImportedNames} {l : Link} :
    l ∈ (es.filter q).map (fun e => ⟨e.index, names⟩) ↔ ∃ e ∈ es, (q e ∧ names = l.names) ∧ e.index = l.target := by
  cases l
  simp only [mem_map, mem_filter, Link.mk.injEq]
  exact exists_congr fun e => by tauto

namespace Thinned

variable {c c' : Catalog} {σ : Nat → Nat} {alive : Nat → Prop}

theorem of_distinct (hold : ∀ e ∈ c'.entries, e.moved σ ∈ c.entries)
    (hkept : ∀ e ∈ c.entries, alive e.index → ∃ e' ∈ c'.entries, e'.moved σ = e)
    (hinj : ∀ e ∈ c'.entries, ∀ f ∈ c'.entries, σ e.index = σ f.index → e.index = f.index)
    (hdistinct : ∀ e ∈ c.entries, ∀ f ∈ c.entries, e.path = f.path → e = f) : Thinned c c' σ alive := by
  have hdistinct' : ∀ e ∈ c'.entries, ∀ f ∈ c'.entries, e.path = f.path → e = f := by
    intro e he f hf hpath
    have heq := hdistinct _ (hold e he) _ (hold f hf) hpath
    have hi := hinj e he f hf (congrArg CatalogEntry.index heq)
    have hu : (e.moved σ).unit = (f.moved σ).unit := congrArg CatalogEntry.unit heq
    obtain ⟨i, p, u⟩ := e
    obtain ⟨j, q, v⟩ := f
    exact CatalogEntry.mk.injEq .. ▸ ⟨hi, hpath, hu⟩
  refine ⟨hold, hkept, hinj, fun path => ⟨fun hnone => ?_, fun t ht halive => ?_⟩⟩
  · rw [Option.eq_none_iff_forall_ne_some]
    intro t ht
    obtain ⟨hne, e, he, hp, -⟩ := (lookup?_eq_some hdistinct').1 ht
    have := (lookup?_eq_some hdistinct).2 ⟨hne, _, hold e he, hp, rfl⟩
    rw [hnone] at this
    cases this
  · obtain ⟨hne, e, he, hp, rfl⟩ := (lookup?_eq_some hdistinct).1 ht
    obtain ⟨e', he', rfl⟩ := hkept e he halive
    exact ⟨e'.index, (lookup?_eq_some hdistinct').2 ⟨hne, e', he', hp, rfl⟩, rfl⟩

variable (h : Thinned c c' σ alive)
include h

theorem links (Q Q' : CatalogEntry → ImportedNames → Prop)
    (hQ : ∀ e ∈ c'.entries, ∀ names, Q (e.moved σ) names ↔ Q' e names) {ls ls' : List Link}
    (hls : ∀ l, l ∈ ls ↔ ∃ e ∈ c.entries, Q e l.names ∧ e.index = l.target)
    (hls' : ∀ l, l ∈ ls' ↔ ∃ e ∈ c'.entries, Q' e l.names ∧ e.index = l.target) :
    SteadyList σ alive ls ls' := by
  constructor
  · intro hnil
    rw [eq_nil_iff_forall_not_mem]
    intro l hl
    obtain ⟨e, he, hq, -⟩ := (hls' l).1 hl
    have : (⟨σ e.index, l.names⟩ : Link) ∈ ls :=
      (hls _).2 ⟨e.moved σ, h.old e he, (hQ e he l.names).2 hq, rfl⟩
    rw [hnil] at this
    cases this
  · intro l hl halive
    obtain ⟨e, he, hq, ht⟩ := (hls l).1 hl
    obtain ⟨e', he', rfl⟩ := h.kept e he (ht ▸ halive)
    refine ⟨⟨e'.index, l.names⟩, (hls' _).2 ⟨e', he', (hQ e' he' l.names).1 hq, rfl⟩, ?_⟩
    exact (Link.mk.injEq ..).mpr ⟨ht, rfl⟩

theorem filter {q q' : CatalogEntry → Bool} (hq : ∀ e ∈ c'.entries, q (e.moved σ) = q' e)
    (names : ImportedNames) : SteadyList σ alive ((c.entries.filter q).map fun e => ⟨e.index, names⟩)
      ((c'.entries.filter q').map fun e => ⟨e.index, names⟩) := by
  refine h.links (fun e ν => q e ∧ names = ν) (fun e ν => q' e ∧ names = ν)
    (fun e he ν => by rw [hq e he]) (fun l => ?_) (fun l => ?_)
  · exact mem_linksTo
  · exact mem_linksTo

theorem probe? (path : String) (extensions : List String) (indexStem : Option String) :
    SteadyUnit σ alive (c.probe? path extensions indexStem) (c'.probe? path extensions indexStem) := by
  unfold Catalog.probe?
  refine (h.lookup? path).orElse ((Steady.findSome? (fun ext => h.lookup? _) _).orElse ?_)
  cases indexStem with
  | none => exact .none
  | some stem => exact .findSome? (fun ext => .bind _ h.lookup?) _

end Thinned

end Catalog

end Deadwood
