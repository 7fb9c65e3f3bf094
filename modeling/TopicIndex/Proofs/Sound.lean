import Mathlib.Algebra.GroupWithZero.Nat
import Mathlib.Logic.Function.Basic
import TopicIndex.Change
import TopicIndex.Proofs.Alter

/-! # What a run of changes keeps

`Index.Sound`: an ordered, pruned forest with values at the paths of topics only. Every change keeps it
(`Sound.after`), so every run from an empty index does (`sound_run`). Storing and updating are `alter`
there (`store_eq_alter`, `update_fst`), which replaces the list of a topic and no other
(`Sound.valuesAt_alter`). -/

namespace TopicIndex

universe u

variable {α : Type u}

/-- Where a strict index refuses to store: the multi-level token stands before the last segment. -/
def Dialect.Refuses (d : Dialect) (g : Guard) (topic : String) : Prop :=
  g = .strict ∧ d.multi ∈ (d.split topic).dropLast

instance (d : Dialect) (g : Guard) (topic : String) : Decidable (d.Refuses g topic) :=
  inferInstanceAs (Decidable (_ ∧ _))

namespace Index

variable {t : Index α}

theorem refuses_iff {topic : String} : t.dialect.Refuses t.guard topic ↔
    t.guard = .strict ∧ t.dialect.isMisplaced (t.path topic) = true := by
  simp [Dialect.Refuses, Dialect.isMisplaced, path]

theorem misplacement?_eq (t : Index α) (topic : String) : t.misplacement? topic =
    if t.dialect.Refuses t.guard topic then some ⟨t.dialect.multi, topic⟩ else none :=
  if_congr refuses_iff.symm rfl rfl

/-- Changes the values under a topic and leaves no empty node on the way to it. -/
def alter (f : List α → List α) (t : Index α) (topic : String) : Index α :=
  { t with root := t.root.alter f (t.path topic) }

theorem store_eq_alter {f : List α → List α} (hf : ∀ vs, f vs ≠ []) (t : Index α) (topic : String) :
    t.store f topic = t.alter f topic := by
  rw [store, Node.store_eq_alter hf, alter]

theorem update_fst {f : List α → List α} (ht : t.root.children.Pruned) (hf : f [] = []) (topic : String) :
    (t.update f topic).1 = t.alter f topic := by
  rw [alter, ← Node.update_eq_alter ht hf]; rfl

section After

variable [BEq α]

theorem after_insert (t : Index α) (topic : String) (v : α) : t.after (.insert topic v) =
    if t.dialect.Refuses t.guard topic then t else t.alter (adjoin v) topic := by
  by_cases h : t.dialect.Refuses t.guard topic
  · rw [if_pos h, after, apply, misplacement?_eq, if_pos h]
  · rw [if_neg h, after, apply, misplacement?_eq, if_neg h, ← store_eq_alter (adjoin_ne_nil v)]; rfl

theorem after_assign (t : Index α) (topic : String) (v : α) : t.after (.assign topic v) =
    if t.dialect.Refuses t.guard topic then t else t.alter (fun _ => [v]) topic := by
  by_cases h : t.dialect.Refuses t.guard topic
  · rw [if_pos h, after, apply, misplacement?_eq, if_pos h]
  · have hone : ∀ vs : List α, [v] ≠ [] := fun _ => List.cons_ne_nil v []
    rw [if_neg h, after, apply, misplacement?_eq, if_neg h, ← store_eq_alter hone]; rfl

theorem after_erase (ht : t.root.children.Pruned) (topic : String) (v : α) :
    t.after (.erase topic v) = t.alter (expunge v) topic := update_fst ht rfl topic

theorem after_vacate (ht : t.root.children.Pruned) (topic : String) :
    t.after (.vacate topic) = t.alter (fun _ => []) topic := update_fst ht rfl topic

/-- Only storing is refused, and only at a misplaced token. -/
theorem apply_eq_error_iff {c : Change α} {m : Misplacement} : t.apply c = .error m ↔
    ∃ u v, (c = .insert u v ∨ c = .assign u v) ∧ t.dialect.Refuses t.guard u ∧
      m = ⟨t.dialect.multi, u⟩ := by
  constructor
  · intro h
    cases c with
    | insert u v | assign u v =>
      rw [apply, misplacement?_eq] at h
      by_cases hu : t.dialect.Refuses t.guard u
      · rw [if_pos hu] at h
        cases h
        exact ⟨u, v, by simp, hu, rfl⟩
      · rw [if_neg hu] at h; cases h
    | erase | vacate | purge | reset => cases h
  · rintro ⟨u, v, rfl | rfl, hu, rfl⟩ <;> rw [apply, misplacement?_eq, if_pos hu]

theorem after_of_apply_eq_error {c : Change α} {m : Misplacement} (h : t.apply c = .error m) :
    t.after c = t := by
  rw [after, h]

/-- A change replaces the root alone. -/
theorem exists_root_after (t : Index α) (c : Change α) : ∃ root, t.after c = { t with root := root } := by
  cases c with
  | insert topic v => rw [after_insert]; split; exacts [⟨t.root, rfl⟩, ⟨_, rfl⟩]
  | assign topic v => rw [after_assign]; split; exacts [⟨t.root, rfl⟩, ⟨_, rfl⟩]
  | erase topic v | vacate topic => exact ⟨_, rfl⟩
  | purge v | reset => exact ⟨_, rfl⟩

@[simp] theorem dialect_after (t : Index α) (c : Change α) : (t.after c).dialect = t.dialect := by
  obtain ⟨root, h⟩ := exists_root_after t c
  rw [h]

@[simp] theorem guard_after (t : Index α) (c : Change α) : (t.after c).guard = t.guard := by
  obtain ⟨root, h⟩ := exists_root_after t c
  rw [h]

theorem run_cons (t : Index α) (c : Change α) (cs : List (Change α)) :
    t.run (c :: cs) = (t.after c).run cs := rfl

@[simp] theorem dialect_run (t : Index α) (cs : List (Change α)) :
    (t.run cs).dialect = t.dialect := by
  induction cs generalizing t with
  | nil => rfl
  | cons c cs ih => rw [run_cons, ih, dialect_after]

@[simp] theorem guard_run (t : Index α) (cs : List (Change α)) : (t.run cs).guard = t.guard := by
  induction cs generalizing t with
  | nil => rfl
  | cons c cs ih => rw [run_cons, ih, guard_after]

@[simp] theorem path_run (d : Dialect) (g : Guard) (cs : List (Change α)) (topic : String) :
    ((empty d g : Index α).run cs).path topic = d.split topic := by
  rw [path, dialect_run]; rfl

end After

/-- What runs keep: nothing is stored off the paths of topics, and no node is superfluous. -/
structure Sound (t : Index α) : Prop where
  ordered : t.root.children.Ordered
  pruned : t.root.children.Pruned
  stray : ∀ p, (∀ topic, p ≠ t.path topic) → t.root.valuesAt p = []

/-- The topics that hold values, each once, in any order. -/
structure Filled (t : Index α) (topics : List String) : Prop where
  nodup : topics.Nodup
  mem : ∀ u, u ∈ topics ↔ t.valuesAt u ≠ []

theorem sound_empty (d : Dialect) (g : Guard) : (empty d g : Index α).Sound :=
  ⟨.nil, .nil, fun p _ => Node.valuesAt_empty p⟩

namespace Sound

theorem exists_topic (h : t.Sound) {p : List String} (hp : t.root.valuesAt p ≠ []) :
    ∃ topic, p = t.path topic := by
  by_contra hn
  exact hp (h.stray p fun topic hpt => hn ⟨topic, hpt⟩)

theorem values_root (h : t.Sound) : t.root.values = [] :=
  h.stray [] fun topic hp => t.dialect.split_ne_nil topic hp.symm

theorem alter (h : t.Sound) (f : List α → List α) (topic : String) : (t.alter f topic).Sound where
  ordered := Node.ordered_alter h.ordered f _
  pruned := Node.pruned_alter h.pruned f _
  stray p hp := by
    show (t.root.alter f (t.path topic)).valuesAt p = []
    have hne : t.path topic ≠ p := (hp topic).symm
    rw [Node.valuesAt_alter_of_ne h.ordered f hne]
    exact h.stray p hp

theorem exists_filled (h : t.Sound) : ∃ topics, t.Filled topics ∧
    t.root.allValues = topics.flatMap t.valuesAt := by
  set ps := ([] :: t.root.children.paths).filter fun p => !(t.root.valuesAt p).isEmpty with hps
  have hnodup : ps.Nodup := .filter _ (List.nodup_cons.mpr
    ⟨Forest.nil_not_mem_paths _, Forest.nodup_paths h.ordered⟩)
  have hmem : ∀ p, p ∈ ps ↔ t.root.valuesAt p ≠ [] := by
    intro p
    rw [hps, List.mem_filter, Bool.not_eq_true', List.isEmpty_eq_false_iff]
    exact ⟨And.right, fun hp => ⟨Node.mem_paths_of_valuesAt h.ordered hp, hp⟩⟩
  have hsplit : ∀ p ∈ ps, t.path (t.dialect.join p) = p := by
    intro p hp
    obtain ⟨u, rfl⟩ := h.exists_topic ((hmem p).mp hp)
    rw [path, path, Dialect.join_split]
  refine ⟨ps.map t.dialect.join, ⟨.of_map t.path ?_, fun u => ?_⟩, ?_⟩
  · have hback : (ps.map t.dialect.join).map t.path = ps := by
      rw [List.map_map]
      exact (List.map_congr_left hsplit).trans (List.map_id _)
    rwa [hback]
  · rw [List.mem_map]
    constructor
    · rintro ⟨p, hp, rfl⟩
      rw [valuesAt, hsplit p hp]
      exact (hmem p).mp hp
    · exact fun hu => ⟨t.path u, (hmem _).mpr hu, t.dialect.join_split u⟩
  · rw [Node.allValues_eq_flatMap h.ordered, ← flatMap_filter_isEmpty, List.flatMap_map]
    exact List.flatMap_congr fun p hp => by rw [valuesAt, hsplit p hp]

theorem size_eq_sum (h : t.Sound) : ∃ topics : List String, topics.Nodup ∧
    (∀ u, u ∈ topics ↔ t.valuesAt u ≠ []) ∧
    t.size = (topics.map fun u => (t.valuesAt u).length).sum := by
  obtain ⟨topics, hfilled, hall⟩ := h.exists_filled
  refine ⟨topics, hfilled.nodup, hfilled.mem, ?_⟩
  rw [size, Node.size_eq_length, hall, List.length_flatMap]

theorem mem_allValues (h : t.Sound) {v : α} : v ∈ t.root.allValues ↔ ∃ u, v ∈ t.valuesAt u := by
  obtain ⟨topics, hfilled, hall⟩ := h.exists_filled
  rw [hall, List.mem_flatMap]
  exact ⟨fun ⟨u, _, hv⟩ => ⟨u, hv⟩, fun ⟨u, hv⟩ => ⟨u, (hfilled.mem u).mpr (List.ne_nil_of_mem hv), hv⟩⟩

theorem reset (t : Index α) : t.reset.Sound :=
  ⟨.nil, .nil, fun p _ => Node.valuesAt_empty p⟩

theorem valuesAt_alter (h : t.Sound) (f : List α → List α) (topic : String) :
    (t.alter f topic).valuesAt = Function.update t.valuesAt topic (f (t.valuesAt topic)) := by
  funext u
  show (t.root.alter f (t.path topic)).valuesAt (t.path u) = _
  by_cases hu : u = topic
  · subst hu
    rw [Function.update_self, Node.valuesAt_alter h.ordered]; rfl
  · have hne : t.path topic ≠ t.path u := fun hp => hu ((t.dialect.split_inj.mp hp).symm)
    rw [Function.update_of_ne hu, Node.valuesAt_alter_of_ne h.ordered f hne]; rfl

variable [BEq α]

theorem purge (h : t.Sound) (v : α) : (t.purge v).Sound where
  ordered := h.ordered.purge v
  pruned := .purge v _
  stray p hp := by
    show (t.root.purge v).valuesAt p = []
    rw [Node.valuesAt_purge h.ordered, h.stray p hp, expunge_nil]

theorem after (h : t.Sound) (c : Change α) : (t.after c).Sound := by
  cases c with
  | insert topic v => rw [after_insert]; split; exacts [h, h.alter _ _]
  | assign topic v => rw [after_assign]; split; exacts [h, h.alter _ _]
  | erase topic v => rw [after_erase h.pruned]; exact h.alter _ _
  | vacate topic => rw [after_vacate h.pruned]; exact h.alter _ _
  | purge v => exact h.purge v
  | reset => exact .reset t

theorem run (h : t.Sound) (cs : List (Change α)) : (t.run cs).Sound := by
  induction cs generalizing t with
  | nil => exact h
  | cons c cs ih => rw [run_cons]; exact ih (h.after c)

end Sound

theorem sound_run [BEq α] (d : Dialect) (g : Guard) (cs : List (Change α)) :
    ((empty d g : Index α).run cs).Sound := (sound_empty d g).run cs

end Index

end TopicIndex
