import TopicIndex.Node

/-!
# Ordered forests

`Forest.Ordered`: segments of siblings increase strictly, at every level. Replacing a child, taking one
out and purging keep the order (`Ordered.replace`, `Ordered.remove`, `Ordered.purge`). No segment stands
twice, so a child that is taken out is gone (`Ordered.child_remove_self`), and a purge changes every
list alike (`Node.valuesAt_purge`).
-/

namespace TopicIndex

universe u

variable {α : Type u}

/-- No two siblings share a segment and their segments increase, at every level. -/
inductive Forest.Ordered : Forest α → Prop
  | nil : Ordered .nil
  | cons {s : String} {vs : List α} {below rest : Forest α} :
      (∀ t ∈ rest.segments, s < t) → Ordered below → Ordered rest → Ordered (.cons s vs below rest)

namespace Forest

theorem child?_eq_none {segment : String} {f : Forest α} (h : segment ∉ f.segments) :
    f.child? segment = none := by
  induction f with
  | nil => rfl
  | cons s vs below rest _ ih =>
    simp only [segments, List.mem_cons, not_or] at h
    rw [child?_cons, if_neg (Ne.symm h.1), ih h.2]

theorem mem_segments_plant {segment s : String} {n : Node α} {rest : Forest α}
    (h : segment ∈ (plant s n rest).segments) : segment = s ∨ segment ∈ rest.segments := by
  unfold plant at h
  split at h
  · exact .inr h
  · simpa [segments] using h

theorem mem_segments_replace {segment s : String} {n : Node α} {f : Forest α}
    (h : segment ∈ (f.replace s n).segments) : segment = s ∨ segment ∈ f.segments := by
  induction f with
  | nil => exact .inl (List.mem_singleton.mp h)
  | cons t vs below rest _ ih =>
    unfold replace at h
    split at h
    · exact (List.mem_cons.mp h).imp_right (List.mem_cons_of_mem _)
    · split at h
      · exact List.mem_cons.mp h
      · simp only [segments, List.mem_cons] at h ⊢
        rcases h with h | h
        · exact .inr (.inl h)
        · exact (ih h).imp_right .inr

theorem mem_segments_remove {segment s : String} {f : Forest α} (h : segment ∈ (f.remove s).segments) :
    segment ∈ f.segments := by
  induction f with
  | nil => exact h
  | cons t vs below rest _ ih =>
    unfold remove at h
    split at h
    · exact List.mem_cons_of_mem _ h
    · exact List.mem_cons.mpr ((List.mem_cons.mp h).imp_right ih)

theorem mem_segments_purge [BEq α] {segment : String} {v : α} {f : Forest α}
    (h : segment ∈ (f.purge v).segments) : segment ∈ f.segments := by
  induction f with
  | nil => exact h
  | cons s vs below rest _ ih =>
    rcases mem_segments_plant h with rfl | h
    · simp [segments]
    · simp [segments, ih h]

theorem child_plant {segment : String} {rest : Forest α} (h : segment ∉ rest.segments) (n : Node α) :
    (plant segment n rest).child segment = n := by
  unfold plant
  split
  · next hn => rw [child, child?_eq_none h, Node.isEmpty_iff.mp hn]; rfl
  · simp [child, child?_cons]

namespace Ordered

theorem plant {segment : String} {n : Node α} {rest : Forest α} (hn : n.children.Ordered)
    (hr : rest.Ordered) (hlt : ∀ t ∈ rest.segments, segment < t) :
    (plant segment n rest).Ordered := by
  unfold Forest.plant
  split
  · exact hr
  · exact .cons hlt hn hr

theorem replace {f : Forest α} (hf : f.Ordered) {segment : String} {n : Node α}
    (hn : n.children.Ordered) : (f.replace segment n).Ordered := by
  induction hf with
  | nil => exact .cons (by simp [segments]) hn .nil
  | @cons s vs below rest hlt hb hr _ ih =>
    unfold Forest.replace
    split
    · next hs => exact .cons (hs ▸ hlt) hn hr
    · next hs =>
      split
      · next hlt' =>
        refine .cons ?_ hn (.cons hlt hb hr)
        simp only [segments, List.mem_cons]
        rintro t (rfl | ht)
        · exact hlt'
        · exact String.lt_trans hlt' (hlt t ht)
      · next hge =>
        refine .cons ?_ hb ih
        intro t ht
        rcases mem_segments_replace ht with rfl | ht
        · rcases String.le_total t s with h | h <;> grind [String.not_lt, String.le_antisymm]
        · exact hlt t ht

theorem remove {f : Forest α} (hf : f.Ordered) (segment : String) : (f.remove segment).Ordered := by
  induction hf with
  | nil => exact .nil
  | cons hlt hb hr _ ih =>
    unfold Forest.remove
    split
    · exact hr
    · exact .cons (fun t ht => hlt t (mem_segments_remove ht)) hb ih

theorem child_remove_self {f : Forest α} (hf : f.Ordered) (segment : String) :
    (f.remove segment).child segment = .empty := by
  induction hf with
  | nil => rfl
  | @cons s vs below rest hlt _ _ _ ih =>
    unfold Forest.remove
    split
    · next hs =>
      rw [Forest.child, child?_eq_none fun h => String.lt_irrefl _ (hlt _ (hs ▸ h))]; rfl
    · next hs => rw [child_cons_of_ne hs, ih]

theorem purge [BEq α] {f : Forest α} (hf : f.Ordered) (v : α) : (f.purge v).Ordered := by
  induction hf with
  | nil => exact .nil
  | cons hlt _ _ ihb ihr => exact .plant ihb ihr fun t ht => hlt t (mem_segments_purge ht)

/-- Purging and going to a child can be done in either order. -/
theorem child_purge [BEq α] {f : Forest α} (hf : f.Ordered) (v : α) (segment : String) :
    (f.purge v).child segment = (f.child segment).purge v := by
  induction hf with
  | nil => rfl
  | @cons s vs below rest hlt _ _ _ ih =>
    have hc : (Forest.cons s vs below rest).child segment =
        ((if s = segment then some ⟨vs, below⟩ else rest.child? segment).getD .empty) := rfl
    rw [Forest.purge, hc]
    split
    · next hs =>
      subst hs
      exact child_plant (fun h => String.lt_irrefl _ (hlt _ (mem_segments_purge h))) _
    · next hs =>
      rw [Forest.child, child?_plant_of_ne hs]
      exact ih

theorem child {f : Forest α} (hf : f.Ordered) (segment : String) :
    (f.child segment).children.Ordered := by
  induction hf with
  | nil => exact .nil
  | cons _ hb _ _ ih =>
    rw [Forest.child, child?_cons]
    split
    · exact hb
    · exact ih

end Ordered

end Forest

namespace Node

theorem ordered_child {n : Node α} (hn : n.children.Ordered) (segment : String) :
    (n.child segment).children.Ordered :=
  hn.child segment

theorem valuesAt_purge [BEq α] {n : Node α} (hn : n.children.Ordered) (v : α) (path : List String) :
    (n.purge v).valuesAt path = expunge v (n.valuesAt path) := by
  induction path generalizing n with
  | nil => rfl
  | cons segment path ih =>
    have hc : (n.purge v).child segment = (n.child segment).purge v := hn.child_purge v segment
    rw [valuesAt_cons, valuesAt_cons, hc, ih (ordered_child hn segment)]

end Node

end TopicIndex
