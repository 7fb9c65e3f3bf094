import TopicIndex.Proofs.First
import TopicIndex.Proofs.Recovery

/-! # Answers at any order of siblings

`Answer.Agrees`: the same answer, or one whose values are gathered in another order. An index and any
rearrangement of it agree on every query (`Index.Rearranged.answer`). So whatever a shared index was asked
before, and in whatever order its siblings stand when it is read, its replies agree with those of the index
alone (`Shared.replies_serve_rearranged`). -/

namespace TopicIndex

universe u

variable {α : Type u} [BEq α]

/-- The order in which values are gathered may differ, and with it which of them comes first. -/
inductive Answer.Agrees : Answer α → Answer α → Prop
  | same (a : Answer α) : Agrees a a
  | gathered {xs ys : List α} : SameClasses xs ys → Agrees (.gathered xs) (.gathered ys)
  | oneOf {xs ys : List α} : SameClasses xs ys → Agrees (.oneOf xs.head? xs) (.oneOf ys.head? ys)
  | node {n m : Node α} : n.Rearranged m → Agrees (.node (some n)) (.node (some m))

inductive Reply.Agrees : Reply α → Reply α → Prop
  | answered {a b : Answer α} : a.Agrees b → Agrees (.answered a) (.answered b)

namespace Index

variable [ToString α] {t s : Index α}

namespace Rearranged

omit [BEq α] in
/-- An inspection text is there only where there is one order of siblings. -/
theorem inspect?_eq (h : t.Rearranged s) : s.inspect? = t.inspect? := by
  rw [inspect?, inspect?, h.root.children.isForked]
  split
  · rfl
  · next hforked =>
    have hunforked : t.root.children.isForked = false :=
      h.root.children.isForked.trans (Bool.eq_false_iff.mpr hforked)
    rw [h.dialect, h.root.values, h.root.children.eq_of_isForked hunforked]

theorem answer_node (h : t.Rearranged s) (path : List String) :
    (s.answer (.node path)).Agrees (t.answer (.node path)) := by
  show (Answer.node (s.root.find? path)).Agrees (.node (t.root.find? path))
  cases hs : s.root.find? path with
  | none =>
    have hnone : t.root.find? path = none := by
      rw [← Option.not_isSome_iff_eq_none, h.root.isSome_find?, hs]
      exact Bool.false_ne_true
    rw [hnone]
    exact .same _
  | some c =>
    obtain ⟨c', hc', hcc'⟩ := h.root.symm.exists_find? hs
    rw [hc']
    exact .node hcc'

/-- The siblings may stand in any order: every query is answered alike, up to the order in which values
are gathered. -/
theorem answer [PartialEquivBEq α] (h : t.Rearranged s) (q : Query) :
    (s.answer q).Agrees (t.answer q) := by
  cases q with
  | valuesAt topic => rw [Index.answer, h.valuesAt]; exact .same _
  | matching topic => rw [Index.answer, h.matching_eq]; exact .same _
  | firstMatching topic => rw [Index.answer, h.firstMatching?_eq]; exact .same _
  | overlapping pattern =>
    rw [Index.answer, Index.answer, h.isConcrete_eq]
    split
    · next hq => rw [h.overlapping_of_isConcrete hq]; exact .same _
    · exact .gathered (h.sameClasses_overlapping pattern)
  | firstOverlapping pattern =>
    rw [Index.answer, Index.answer, h.isConcrete_eq]
    split
    · next hq => rw [h.firstOverlapping?_of_isConcrete hq]; exact .same _
    · rw [firstOverlapping?_eq_head?, firstOverlapping?_eq_head?]
      exact .oneOf (h.sameClasses_overlapping pattern)
  | publish text =>
    rw [Index.answer, Index.answer]
    split
    · rw [h.matching_eq]; exact .same _
    · exact .same _
  | all => exact .gathered h.sameClasses_all
  | size => rw [Index.answer, Index.size, ← h.root.size]; exact .same _
  | isEmpty => rw [Index.answer, Index.isEmpty, ← h.root.isEmpty]; exact .same _
  | display => rw [Index.answer, h.display]; exact .same _
  | dialect => rw [Index.answer, h.dialect]; exact .same _
  | node path => exact h.answer_node path
  | inspect => rw [Index.answer, h.inspect?_eq]; exact .same _

end Rearranged

end Index

namespace Shared

variable [ToString α] [PartialEquivBEq α]

/-- Whatever went before, queries are answered as by the index alone, in whatever order the siblings of the
shared index stand then, poisoned or not. -/
theorem replies_serve_rearranged (s : Shared α) (steps : List (Step α)) {s' : Shared α}
    (h : (s.serveAll steps).1.index.Rearranged s'.index) {step : Step α} {qs : List Query}
    (hqs : step.requests = qs.map .ask) (hstep : step ≠ .single (.ask .inspect)) :
    List.Forall₂ Reply.Agrees (s'.serve step).2.replies
      ((s.index.serveAll (steps.flatMap (·.requests))).1.serveAll step.requests).2 := by
  rw [replies_serve s' hstep, hqs, Index.serveAll_ask, Index.serveAll_ask, List.forall₂_map_left_iff,
    List.forall₂_map_right_iff, List.forall₂_same]
  rw [index_serveAll] at h
  exact fun q _ => .answered (h.answer q)

end Shared

end TopicIndex
