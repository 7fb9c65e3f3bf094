import TopicIndex.Proofs.Entrywise
import TopicIndex.Proofs.Rearranged

/-! # The first value of an answer

A look-up for one value stops at the first list that holds any, and passes over the nodes that are only
there for what is below them. It gives the first value of the full answer, of which dropping equals keeps
the first (`Index.firstMatching?_eq_head?`, `Index.firstOverlapping?_eq_head?`). It gives none where
nothing is stored under the patterns in question, whatever the order of siblings (`Index.first_of_answer`). -/

namespace TopicIndex

universe u

variable {α : Type u}

namespace Index

variable {t s : Index α} {q : String}

theorem firstMatching?_eq_head? [BEq α] (t : Index α) (q : String) :
    t.firstMatching? q = (t.matching q).head? := by
  rw [firstMatching?, Node.firstMatching?_eq_head?, matching, head?_eraseDups]

theorem firstOverlapping?_eq_head? [BEq α] (t : Index α) (q : String) :
    t.firstOverlapping? q = (t.overlapping q).head? := by
  rw [firstOverlapping?, Node.firstOverlapping?_eq_head?, overlapping, head?_eraseDups]

theorem Sound.node_matching_eq_nil_iff (h : t.Sound) :
    t.root.matching t.dialect (t.path q) = [] ↔
      ∀ u, t.dialect.Covers (t.path u) (t.path q) → t.valuesAt u = [] := by
  rw [Node.matching_eq_flatMap, List.flatMap_eq_nil_iff]
  constructor
  · intro hnone u hu
    exact hnone (t.path u) (Dialect.mem_patterns.mpr hu)
  · intro hnone p hp
    by_contra hvs
    obtain ⟨u, rfl⟩ := h.exists_topic hvs
    exact hvs (hnone u (Dialect.mem_patterns.mp hp))

theorem Sound.node_overlapping_eq_nil_iff (h : t.Sound) :
    t.root.overlapping t.dialect (t.path q) = [] ↔
      ∀ u, t.dialect.Meets (t.path u) (t.path q) → t.valuesAt u = [] := by
  constructor
  · intro hnone u hu
    refine List.eq_nil_iff_forall_not_mem.mpr fun v hv => ?_
    have hfound : v ∈ t.root.overlapping t.dialect (t.path q) := h.mem_node_overlapping.mpr ⟨u, hu, hv⟩
    rw [hnone] at hfound; cases hfound
  · intro hnone
    refine List.eq_nil_iff_forall_not_mem.mpr fun v hv => ?_
    obtain ⟨u, hu, hv⟩ := h.mem_node_overlapping.mp hv
    rw [hnone u hu] at hv; cases hv

variable [BEq α]

namespace Rearranged

theorem matching_eq_nil_iff (h : t.Rearranged s) (ht : t.Sound) : s.matching q = [] ↔
    ∀ u, t.dialect.Covers (t.path u) (t.path q) → t.valuesAt u = [] := by
  rw [matching, eraseDups_eq_nil, h.node_matching, ht.node_matching_eq_nil_iff]

theorem overlapping_eq_nil_iff (h : t.Rearranged s) (ht : t.Sound) : s.overlapping q = [] ↔
    ∀ u, t.dialect.Meets (t.path u) (t.path q) → t.valuesAt u = [] := by
  have hperm := h.node_overlapping q
  have hnil : s.root.overlapping s.dialect (s.path q) = [] ↔
      t.root.overlapping t.dialect (t.path q) = [] :=
    ⟨fun hs => (hs ▸ hperm).nil_eq.symm, fun ht => (ht ▸ hperm).eq_nil⟩
  rw [overlapping, eraseDups_eq_nil, hnil, ht.node_overlapping_eq_nil_iff]

end Rearranged

/-- Looking for one value gives the first of the full answer, with the siblings in any order and whatever
the values say of themselves. It gives none only if nothing is stored where the query leads. -/
theorem first_of_answer (d : Dialect) (g : Guard) (cs : List (Change α)) (s : Index α) (q : String) :
    let t := (empty d g).run cs
    t.Rearranged s →
      (s.firstMatching? q = (s.matching q).head? ∧
        (s.firstMatching? q = none ↔ s.matching q = []) ∧
        (s.matching q = [] ↔ ∀ u, d.Covers (d.split u) (d.split q) → t.valuesAt u = [])) ∧
      (s.firstOverlapping? q = (s.overlapping q).head? ∧
        (s.firstOverlapping? q = none ↔ s.overlapping q = []) ∧
        (s.overlapping q = [] ↔ ∀ u, d.Meets (d.split u) (d.split q) → t.valuesAt u = [])) := by
  intro t hs
  have ht : t.Sound := sound_run d g cs
  have hdialect : t.dialect = d := dialect_run _ cs
  have hpath : ∀ u, t.path u = d.split u := path_run d g cs
  refine ⟨⟨s.firstMatching?_eq_head? q, ?_, ?_⟩, s.firstOverlapping?_eq_head? q, ?_, ?_⟩
  · rw [firstMatching?_eq_head?, List.head?_eq_none_iff]
  · rw [hs.matching_eq_nil_iff ht, hdialect]
    simp only [hpath]
  · rw [firstOverlapping?_eq_head?, List.head?_eq_none_iff]
  · rw [hs.overlapping_eq_nil_iff ht, hdialect]
    simp only [hpath]

theorem first_of_answer_below :
    let a : String × Node Nat := ("a", ⟨[], .cons "b" [1] .nil .nil⟩)
    let c : String × Node Nat := ("c", ⟨[], .cons "b" [2, 3] .nil .nil⟩)
    let t := (empty .mqtt .strict : Index Nat).run [.insert "a/b" 1, .insert "c/b" 2, .insert "c/b" 3]
    let s : Index Nat := ⟨.mqtt, .strict, ⟨[], .ofTrees [c, a]⟩⟩
    t.Rearranged s ∧ s.overlapping "#" = [2, 3, 1] ∧ s.firstOverlapping? "#" = (s.overlapping "#").head? ∧
      s.firstMatching? "a" = none ∧ s.matching "a" = [] := by
  intro a c t s
  have hroot : t.root = ⟨[], .ofTrees [a, c]⟩ := by rfl
  have hs : t.Rearranged s := by
    refine ⟨rfl, rfl, by rw [hroot], ?_⟩
    rw [hroot]
    exact .of_perm (.swap c a []) (by decide)
  have hall := first_of_answer .mqtt .strict _ s "#" hs
  have hnone := first_of_answer .mqtt .strict _ s "a" hs
  have hempty : s.matching "a" = [] := by decide
  exact ⟨hs, by decide, hall.2.1, hnone.1.2.1.mpr hempty, hempty⟩

end Index

end TopicIndex
