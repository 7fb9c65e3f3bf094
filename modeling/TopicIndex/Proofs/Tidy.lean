import TopicIndex.Proofs.Ledger

/-! # The nodes of an index

`Index.Tidy` says which nodes an index has and what they hold: they are the prefixes of the topics with
values, no fewer and no more. Every run from an empty index ends in a tidy one (`Tidy.of_run`): where the
nodes are follows from `Sound`, what they hold from the ledger of the run. A strict index keeps the
multi-level token at the leaves by refusing the topics that would put a node below it. -/

namespace TopicIndex

universe u

variable {α : Type u}

namespace Index

variable {t : Index α}

/-- The nodes of an index and what they hold. -/
structure Tidy [BEq α] (t : Index α) : Prop where
  root : t.root.values = []
  nodup : t.root.children.paths.Nodup
  found : ∀ p, (t.node? p).isSome = true ↔ p = [] ∨ p ∈ t.root.children.paths
  /-- No node is missing and none is superfluous. -/
  prefixes : ∀ p, p ∈ t.root.children.paths ↔
    p ≠ [] ∧ ∃ u, t.valuesAt u ≠ [] ∧ p <+: t.path u
  distinct : ∀ p n, t.node? p = some n → Distinct n.values
  separator : ∀ p ∈ t.root.children.paths, ∀ s ∈ p, t.dialect.separator ∉ s.toList
  leaf : t.guard = .strict → ∀ p n, t.node? (p ++ [t.dialect.multi]) = some n → n.children = .nil

theorem Sound.mem_paths (h : t.Sound) {p : List String} : p ∈ t.root.children.paths ↔
    p ≠ [] ∧ ∃ u, t.valuesAt u ≠ [] ∧ p <+: t.path u := by
  rw [Node.mem_paths h.ordered]
  refine and_congr_right fun hp => ?_
  rw [Node.isSome_find?_iff h.pruned hp]
  constructor
  · rintro ⟨q, hq⟩
    obtain ⟨u, hu⟩ := h.exists_topic hq
    refine ⟨u, ?_, q, hu⟩
    rw [valuesAt, ← hu]; exact hq
  · rintro ⟨u, hu, q, hq⟩
    exact ⟨q, by rw [hq]; exact hu⟩

theorem Sound.isEmpty_iff (h : t.Sound) : t.isEmpty = true ↔ ∀ u, t.valuesAt u = [] := by
  rw [isEmpty, Node.isEmpty_iff, Node.eq_empty_iff h.pruned]
  constructor
  · exact fun hp u => hp (t.path u)
  · intro hu p
    by_contra hp
    obtain ⟨u, rfl⟩ := h.exists_topic hp
    exact hp (hu u)

theorem Sound.isEmpty_iff_size (h : t.Sound) : t.isEmpty = true ↔ t.size = 0 := by
  rw [isEmpty, Node.isEmpty_iff, Node.eq_empty_iff h.pruned, size, Node.size_eq_zero_iff h.ordered]

namespace Tidy

variable [BEq α]

theorem distinct_of_run {d : Dialect} {g : Guard} {cs : List (Change α)} {p : List String} {n : Node α}
    (h : ((empty d g).run cs).node? p = some n) : Distinct n.values := by
  by_cases hvs : n.values = []
  · rw [hvs]; exact .nil
  · have hfind : ((empty d g).run cs).root.find? p = some n := h
    have hval : ((empty d g).run cs).root.valuesAt p = n.values := by rw [Node.valuesAt, hfind]
    obtain ⟨u, rfl⟩ := (sound_run d g cs).exists_topic (hval ▸ hvs)
    rw [← hval]
    show Distinct (((empty d g).run cs).valuesAt u)
    rw [valuesAt_run_empty]
    exact Ledger.distinct_ofChanges d g cs u

theorem leaf_of_run {d : Dialect} {cs : List (Change α)} {p : List String} {n : Node α}
    (h : ((empty d .strict).run cs).node? (p ++ [d.multi]) = some n) : n.children = .nil := by
  have ht : ((empty d .strict : Index α).run cs).Sound := sound_run d .strict cs
  by_contra hne
  -- what is stored below would be under a topic that is refused
  obtain ⟨s, q, hsq⟩ := Node.exists_valuesAt_cons (Node.pruned_find? ht.pruned h).2 hne
  rw [← Node.valuesAt_append h, List.append_assoc, List.singleton_append] at hsq
  obtain ⟨u, hu⟩ := ht.exists_topic hsq
  rw [hu] at hsq
  have hm : d.isMisplaced (d.split u) = false := isMisplaced_of_valuesAt hsq
  rw [← path_run d .strict cs, ← hu, Dialect.isMisplaced_append] at hm
  cases hm

theorem of_run (d : Dialect) (g : Guard) (cs : List (Change α)) :
    ((empty d g : Index α).run cs).Tidy where
  root := (sound_run d g cs).values_root
  nodup := Forest.nodup_paths (sound_run d g cs).ordered
  found p := by
    rw [Node.mem_paths (sound_run d g cs).ordered]
    by_cases hp : p = []
    · subst hp; exact ⟨fun _ => .inl rfl, fun _ => rfl⟩
    · simp [hp, node?]
  prefixes p := (sound_run d g cs).mem_paths
  distinct p n hn := distinct_of_run hn
  separator p hp s hs := by
    obtain ⟨-, u, -, hpre⟩ := (sound_run d g cs).mem_paths.mp hp
    exact Dialect.separator_not_mem (hpre.subset hs)
  leaf hg p n hn := by
    rw [guard_run] at hg
    obtain rfl : g = .strict := hg
    rw [dialect_run] at hn
    exact leaf_of_run hn

end Tidy

/-- After any changes the nodes are the prefixes of the topics with values. Of the next changes those
that store at a misplaced multi-level token are refused, and they alone. -/
theorem run_tidy [BEq α] (d : Dialect) (g : Guard) (cs : List (Change α)) :
    let t := (empty d g : Index α).run cs
    t.Tidy ∧
    ((∀ a b : α, (a == b) = true → (b == a) = true) → ∀ p n, t.node? p = some n →
      ∀ i j (hi : i < n.values.length) (hj : j < n.values.length), i ≠ j →
        (n.values[i] == n.values[j]) = false) ∧
    (∀ c m, t.apply c = .error m ↔ ∃ u v, (c = .insert u v ∨ c = .assign u v) ∧
      (g = .strict ∧ d.multi ∈ (d.split u).dropLast) ∧ m = ⟨d.multi, u⟩) ∧
    (∀ c m, t.apply c = .error m → t.after c = t) ∧
    (t.isEmpty = true ↔ t.size = 0) ∧ (t.size = 0 ↔ ∀ u, t.valuesAt u = []) := by
  intro t
  have ht : t.Sound := sound_run d g cs
  have htidy : t.Tidy := .of_run d g cs
  refine ⟨htidy, fun hsymm p n hn i j hi hj => (htidy.distinct p n hn).beq_getElem hsymm hi hj,
    fun c m => ?_, fun c m => after_of_apply_eq_error, ht.isEmpty_iff_size, ?_⟩
  · rw [apply_eq_error_iff, dialect_run, guard_run]; rfl
  · rw [← ht.isEmpty_iff_size, ht.isEmpty_iff]

end Index

end TopicIndex
