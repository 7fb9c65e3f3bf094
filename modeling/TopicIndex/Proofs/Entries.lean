import Mathlib.Data.List.Nodup
import TopicIndex.Forest.Ordered

/-! # The nodes of a forest as a list

`Forest.entries` lists every node by its path and values, a node before what is below it. In an
ordered forest these are the nodes found by their paths (`mem_entries`), each once (`nodup_paths`),
so what a walk over the forest collects is collected path by path (`Node.allValues_eq_flatMap`). -/

namespace TopicIndex

universe u

variable {α : Type u}

/-- Empty lists add nothing. -/
theorem flatMap_filter_isEmpty {β : Type*} (see : β → List α) (bs : List β) :
    (bs.filter fun b => !(see b).isEmpty).flatMap see = bs.flatMap see := by
  induction bs with
  | nil => rfl
  | cons b bs ih => cases hb : see b <;> simp [hb, ih]

namespace Forest

/-- The nodes as path and values. -/
def entries : Forest α → List (List String × List α)
  | nil => []
  | cons s vs below rest =>
    ([s], vs) :: ((entries below).map (fun e => (s :: e.1, e.2)) ++ entries rest)

/-- The paths of the nodes. -/
def paths (f : Forest α) : List (List String) := f.entries.map (·.1)

@[simp] theorem paths_nil : (nil : Forest α).paths = [] := rfl

theorem paths_cons (s : String) (vs : List α) (below rest : Forest α) :
    (cons s vs below rest).paths = [s] :: (below.paths.map (s :: ·) ++ rest.paths) := by
  simp [paths, entries, Function.comp_def]

theorem values_eq_flatMap (f : Forest α) : f.values = f.entries.flatMap (·.2) := by
  induction f with
  | nil => rfl
  | cons s vs below rest ihb ihr => simp [values, entries, ihb, ihr, List.flatMap_map]

theorem exists_head_of_mem_paths {f : Forest α} {p : List String} (h : p ∈ f.paths) :
    ∃ s q, p = s :: q ∧ s ∈ f.segments := by
  induction f with
  | nil => cases h
  | cons s vs below rest _ ih =>
    rw [paths_cons, List.mem_cons, List.mem_append, List.mem_map] at h
    rcases h with rfl | ⟨q, -, rfl⟩ | h
    · exact ⟨s, [], rfl, by simp [segments]⟩
    · exact ⟨s, q, rfl, by simp [segments]⟩
    · obtain ⟨t, q, rfl, ht⟩ := ih h
      exact ⟨t, q, rfl, by simp [segments, ht]⟩

theorem nil_not_mem_paths (f : Forest α) : [] ∉ f.paths := fun h => by
  obtain ⟨s, q, h, -⟩ := exists_head_of_mem_paths h
  cases h

/-- The entry of a node is what is found at its path. -/
theorem mem_entries {f : Forest α} (hf : f.Ordered) {s : String} {q : List String} {vs : List α} :
    (s :: q, vs) ∈ f.entries ↔
      ∃ c, (f.child? s).bind (Node.find? · q) = some c ∧ c.values = vs := by
  induction hf generalizing s q with
  | nil => simp [entries]
  | @cons t ws below rest hlt hb hr ihb ihr =>
    simp only [entries, List.mem_cons, List.mem_append, List.mem_map, Prod.mk.injEq, List.cons.injEq]
    rw [child?_cons]
    by_cases hts : t = s
    · subst hts
      have hrest : (t :: q, vs) ∉ rest.entries := fun h => by
        obtain ⟨t', q', ht', h⟩ := exists_head_of_mem_paths (List.mem_map_of_mem (f := (·.1)) h)
        obtain ⟨rfl, -⟩ := List.cons.inj ht'
        exact String.lt_irrefl _ (hlt _ h)
      rw [if_pos rfl, Option.bind_some]
      cases q with
      | nil =>
        have hbelow : ∀ e ∈ below.entries, e.1 ≠ [] := fun e he h =>
          nil_not_mem_paths below (h ▸ List.mem_map_of_mem he)
        constructor
        · rintro (⟨-, rfl⟩ | ⟨e, he, ⟨-, h⟩, -⟩ | h)
          · exact ⟨_, rfl, rfl⟩
          · exact absurd h (hbelow e he)
          · exact absurd h hrest
        · rintro ⟨c, hc, rfl⟩
          cases hc
          exact .inl ⟨⟨rfl, rfl⟩, rfl⟩
      | cons u q =>
        have hfind : (⟨ws, below⟩ : Node α).find? (u :: q) =
            (below.child? u).bind (Node.find? · q) := rfl
        rw [hfind, ← ihb]
        simp [hrest]
    · rw [if_neg hts, ← ihr]
      simp [hts, Ne.symm hts]

theorem nodup_paths {f : Forest α} (hf : f.Ordered) : f.paths.Nodup := by
  induction hf with
  | nil => exact List.nodup_nil
  | @cons s vs below rest hlt hb hr ihb ihr =>
    have hs : ∀ q, s :: q ∉ rest.paths := fun q h => by
      obtain ⟨t, q', ht, h⟩ := exists_head_of_mem_paths h
      obtain ⟨rfl, -⟩ := List.cons.inj ht
      exact String.lt_irrefl _ (hlt _ h)
    rw [paths_cons, List.nodup_cons, List.nodup_append]
    refine ⟨fun h => ?_, ?_, ihr, ?_⟩
    · rcases List.mem_append.mp h with h | h
      · obtain ⟨q, hq, h⟩ := List.mem_map.mp h
        obtain ⟨-, rfl⟩ := List.cons.inj h
        exact nil_not_mem_paths below hq
      · exact hs [] h
    · exact List.Nodup.map (fun _ _ h => (List.cons.inj h).2) ihb
    · rintro p hp q hq rfl
      obtain ⟨q, -, rfl⟩ := List.mem_map.mp hp
      exact hs q hq

end Forest

namespace Node

variable {n : Node α}

theorem mem_paths (hn : n.children.Ordered) {p : List String} :
    p ∈ n.children.paths ↔ p ≠ [] ∧ (n.find? p).isSome = true := by
  cases p with
  | nil => simp [Forest.nil_not_mem_paths]
  | cons s q =>
    simp only [Forest.paths, List.mem_map, Option.isSome_iff_exists, ne_eq, reduceCtorEq,
      not_false_eq_true, true_and]
    constructor
    · rintro ⟨⟨p, vs⟩, he, rfl⟩
      obtain ⟨c, hc, -⟩ := (Forest.mem_entries hn).mp he
      exact ⟨c, hc⟩
    · rintro ⟨c, hc⟩
      exact ⟨(s :: q, c.values), (Forest.mem_entries hn).mpr ⟨c, hc, rfl⟩, rfl⟩

theorem valuesAt_of_mem_entries (hn : n.children.Ordered) {e : List String × List α}
    (he : e ∈ n.children.entries) : n.valuesAt e.1 = e.2 := by
  obtain ⟨p, vs⟩ := e
  cases p with
  | nil => exact absurd (List.mem_map_of_mem he) (Forest.nil_not_mem_paths _)
  | cons s q =>
    obtain ⟨c, hc, rfl⟩ := (Forest.mem_entries hn).mp he
    have hfind : n.find? (s :: q) = some c := hc
    rw [valuesAt, hfind]

theorem valuesAt_eq_nil {p : List String} (h : n.find? p = none) : n.valuesAt p = [] := by
  rw [valuesAt, h]

theorem size_eq_length (n : Node α) : n.size = n.allValues.length := by
  rw [size, allValues, List.length_append, Forest.length_values]

/-- All values, path by path. -/
theorem allValues_eq_flatMap (hn : n.children.Ordered) :
    n.allValues = ([] :: n.children.paths).flatMap n.valuesAt := by
  have hbelow : n.children.entries.flatMap (·.2) = n.children.paths.flatMap n.valuesAt := by
    rw [Forest.paths, List.flatMap_map]
    exact List.flatMap_congr fun e he => (valuesAt_of_mem_entries hn he).symm
  rw [allValues, Forest.values_eq_flatMap, hbelow]; rfl

theorem mem_paths_of_valuesAt (hn : n.children.Ordered) {p : List String} (h : n.valuesAt p ≠ []) :
    p ∈ [] :: n.children.paths := by
  by_cases hp : p = []
  · rw [hp]; exact List.mem_cons_self
  · refine List.mem_cons_of_mem _ ((mem_paths hn).mpr ⟨hp, ?_⟩)
    cases hc : n.find? p with
    | none => exact absurd (valuesAt_eq_nil hc) h
    | some c => rfl

theorem mem_allValues (hn : n.children.Ordered) {v : α} :
    v ∈ n.allValues ↔ ∃ p, v ∈ n.valuesAt p := by
  rw [allValues_eq_flatMap hn, List.mem_flatMap]
  exact ⟨fun ⟨p, _, hv⟩ => ⟨p, hv⟩,
    fun ⟨p, hv⟩ => ⟨p, mem_paths_of_valuesAt hn (List.ne_nil_of_mem hv), hv⟩⟩

end Node

end TopicIndex
