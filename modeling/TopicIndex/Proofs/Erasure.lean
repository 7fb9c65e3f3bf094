import TopicIndex.Proofs.Account
import TopicIndex.Proofs.Entrywise

/-! # Erasing many values

A run of erasures leaves in every list what none of them names, in whatever order they come
(`Index.Sound.valuesAt_run_erasures`). As an index is given by its lists, a purge is an erasure at every
topic that holds something (`Index.purge_everywhere`), and since insertions only add at the end of the
lists, erasing what was inserted gives back the index there was (`Index.insertions_undone`). -/

namespace TopicIndex

universe u

variable {α : Type u} [BEq α]

namespace Index

variable {t : Index α}

def erasures (es : List (String × α)) : List (Change α) := es.map fun e => .erase e.1 e.2

/-- None of the pairs names the topic with an equal of the value. -/
def spares (es : List (String × α)) (topic : String) (x : α) : Bool :=
  es.all fun e => !(e.1 == topic && x == e.2)

theorem spares_iff {es : List (String × α)} {topic : String} {x : α} :
    spares es topic x = true ↔ ∀ e ∈ es, e.1 = topic → (x == e.2) = false := by
  rw [spares, List.all_eq_true]
  refine forall₂_congr fun e _ => ?_
  by_cases htopic : e.1 = topic <;> simp [htopic]

namespace Sound

theorem valuesAt_erase (h : t.Sound) (topic u : String) (v : α) :
    (t.after (.erase topic v)).valuesAt u =
      (t.valuesAt u).filter fun x => !(topic == u && x == v) := by
  rw [h.valuesAt_after, Ledger.after]
  by_cases hu : u = topic
  · subst hu
    simp
  · have hne : (topic == u) = false := by simpa using Ne.symm hu
    rw [Function.update_of_ne hu]
    simp [hne]

theorem valuesAt_run_erasures (h : t.Sound) (es : List (String × α)) (u : String) :
    (t.run (erasures es)).valuesAt u = (t.valuesAt u).filter (spares es u) := by
  induction es generalizing t with
  | nil => exact (List.filter_eq_self.mpr fun _ _ => rfl).symm
  | cons e es ih =>
    have hcons : t.run (erasures (e :: es)) = (t.after (.erase e.1 e.2)).run (erasures es) := rfl
    rw [hcons, ih (h.after _), h.valuesAt_erase, List.filter_filter]
    refine List.filter_congr fun x _ => ?_
    rw [spares, spares, List.all_cons, Bool.and_comm]

/-- Erasing a value at all topics that hold something erases it everywhere. -/
theorem run_erase_eq_purge (h : t.Sound) {topics : List String}
    (hall : ∀ u, t.valuesAt u ≠ [] → u ∈ topics) (v : α) :
    t.run (topics.map fun u => .erase u v) = t.after (.purge v) := by
  have herasures : (topics.map fun u => Change.erase u v) = erasures (topics.map fun u => (u, v)) := by
    rw [erasures, List.map_map]; rfl
  refine (h.run _).eq_of_valuesAt (h.after _) (by simp) (by simp) fun u => ?_
  rw [herasures, h.valuesAt_run_erasures, h.valuesAt_after, Ledger.after]
  refine List.filter_congr fun x hx => ?_
  have hu : u ∈ topics := hall u (List.ne_nil_of_mem hx)
  have hnamed : spares (topics.map fun u => (u, v)) u x = true ↔ (x == v) = false := by
    rw [spares_iff, List.forall_mem_map]
    exact ⟨fun h => h u hu rfl, fun hxv _ _ _ => hxv⟩
  rw [Bool.eq_iff_iff, hnamed, Bool.not_eq_true']

/-- Every answer is made of stored values. -/
theorem exists_of_mem_answer (h : t.Sound) {q : String} {x : α}
    (hx : x ∈ t.matching q ∨ x ∈ t.overlapping q ∨ x ∈ t.valuesAt q ∨ x ∈ t.all) :
    ∃ u, x ∈ t.valuesAt u := by
  rcases hx with hx | hx | hx | hx
  · have hover : x ∈ t.root.overlapping t.dialect (t.path q) :=
      Node.mem_overlapping_of_mem_matching h.ordered (mem_of_mem_eraseDups hx)
    obtain ⟨u, -, hu⟩ := h.mem_node_overlapping.mp hover
    exact ⟨u, hu⟩
  · obtain ⟨u, -, hu⟩ := h.exists_of_mem_overlapping hx
    exact ⟨u, hu⟩
  · exact ⟨q, hx⟩
  · exact h.mem_allValues.mp (mem_of_mem_eraseDups hx)

theorem valuesAt_purge (h : t.Sound) (u : String) (v : α) :
    (t.purge v).valuesAt u = expunge v (t.valuesAt u) :=
  Node.valuesAt_purge h.ordered v _

/-- There is nothing left for a second purge. -/
theorem apply_purge_purge (h : t.Sound) (v : α) :
    (t.purge v).apply (.purge v) = .ok (t.purge v, .purged 0) := by
  have hsame : (t.purge v).purge v = t.purge v := by
    refine ((h.purge v).purge v).eq_of_valuesAt (h.purge v) rfl rfl fun u => ?_
    rw [(h.purge v).valuesAt_purge, h.valuesAt_purge, expunge, expunge, List.filter_filter]
    simp only [Bool.and_self]
  have hsize := Node.size_purge v (t.purge v).root
  have hroot : (t.purge v).root.purge v = (t.purge v).root := congrArg Index.root hsame
  have hnone : (t.purge v).root.occurrences v = 0 := by
    rw [hroot] at hsize
    omega
  rw [apply, hsame, hnone]

end Sound

/-- Where no list has equal values, a purge takes one value from each topic that it takes any from. -/
theorem exists_topics_of_occurrences [PartialEquivBEq α] (d : Dialect) (g : Guard)
    (cs : List (Change α)) (v : α) :
    let t := (empty d g).run cs
    ∃ held : List String, held.Nodup ∧ (∀ u, u ∈ held ↔ ∃ x ∈ t.valuesAt u, (x == v) = true) ∧
      t.root.occurrences v = held.length := by
  intro t
  have ht : t.Sound := sound_run d g cs
  obtain ⟨topics, hfilled, hall⟩ := ht.exists_filled
  have hdistinct : ∀ u ∈ topics, Distinct (t.valuesAt u) := by
    intro u _
    rw [valuesAt_run_empty]
    exact Ledger.distinct_ofChanges d g cs u
  refine ⟨topics.filter fun u => (t.valuesAt u).any (· == v), hfilled.nodup.filter _, fun u => ?_, ?_⟩
  · rw [List.mem_filter, List.any_eq_true]
    refine ⟨And.right, fun ⟨x, hx, hxv⟩ => ⟨?_, x, hx, hxv⟩⟩
    exact (hfilled.mem u).mpr (List.ne_nil_of_mem hx)
  · rw [Node.occurrences_eq_countP, hall, Distinct.countP_flatMap hdistinct]

/-- A purge erases the value at every topic that holds something, and counts what goes. No answer has
an equal of it then, everything else is where it was, and there is nothing left to purge. -/
theorem purge_everywhere (d : Dialect) (g : Guard) (cs : List (Change α)) (v : α) :
    let t := (empty d g).run cs
    let t' := t.after (.purge v)
    (∃ topics, t.Filled topics) ∧
    (∀ topics, t.Filled topics → t.run (topics.map fun u => .erase u v) = t') ∧
    (∃ n, t.apply (.purge v) = .ok (t', .purged n) ∧ t'.size + n = t.size ∧
      (PartialEquivBEq α → ∃ held : List String, held.Nodup ∧
        (∀ u, u ∈ held ↔ ∃ x ∈ t.valuesAt u, (x == v) = true) ∧ n = held.length)) ∧
    (∀ q x, x ∈ t'.matching q ∨ x ∈ t'.overlapping q ∨ x ∈ t'.valuesAt q ∨ x ∈ t'.all →
      (x == v) = false) ∧
    (∀ u, t'.valuesAt u = (t.valuesAt u).filter fun x => !(x == v)) ∧
    t'.apply (.purge v) = .ok (t', .purged 0) := by
  intro t t'
  have ht : t.Sound := sound_run d g cs
  have hlists : ∀ u, t'.valuesAt u = expunge v (t.valuesAt u) := fun u => ht.valuesAt_purge u v
  obtain ⟨topics, hfilled, -⟩ := ht.exists_filled
  refine ⟨⟨topics, hfilled⟩, fun topics hfilled => ?_, ⟨_, rfl, Node.size_purge v t.root, ?_⟩,
    fun q x hx => ?_, hlists, ?_⟩
  · exact ht.run_erase_eq_purge (fun u => (hfilled.mem u).mpr) v
  · exact fun _ => exists_topics_of_occurrences d g cs v
  · obtain ⟨u, hu⟩ := (ht.after _).exists_of_mem_answer hx
    rw [hlists, mem_expunge] at hu
    exact hu.2
  · exact ht.apply_purge_purge v

theorem purge_everywhere_nested :
    let t := (empty .mqtt .strict : Index Nat).run [.insert "a" 1, .insert "a/b" 2, .insert "a/b" 1]
    t.Filled ["a/b", "a"] ∧
    t.run [.erase "a/b" 1, .erase "a" 1] = t.after (.purge 1) ∧
    ∃ held : List String, held.Nodup ∧ (∀ u, u ∈ held ↔ ∃ x ∈ t.valuesAt u, (x == 1) = true) ∧
      2 = held.length := by
  intro t
  have hfilled : t.Filled ["a/b", "a"] := by
    refine ⟨by decide, fun u => ?_⟩
    constructor
    · intro hu
      rcases List.mem_pair.mp hu with rfl | rfl <;> decide
    · intro hu
      obtain ⟨w, hw⟩ := List.exists_mem_of_ne_nil _ hu
      have hadded : (u, w) ∈ [("a", 1), ("a/b", 2), ("a/b", 1)] := mem_of_mem_run_insertions _ hw
      have htopic : u ∈ [("a", 1), ("a/b", 2), ("a/b", 1)].map Prod.fst := List.mem_map_of_mem hadded
      simpa [or_comm] using htopic
  obtain ⟨-, herase, ⟨n, hn, -, hheld⟩, -⟩ := purge_everywhere .mqtt .strict
    [.insert "a" (1 : Nat), .insert "a/b" 2, .insert "a/b" 1] 1
  have htwo : t.apply (.purge 1) = .ok (t.after (.purge 1), .purged 2) := by rfl
  obtain rfl : n = 2 := by
    rw [htwo] at hn
    cases hn; rfl
  exact ⟨hfilled, herase _ hfilled, hheld inferInstance⟩

/-- After insertions what was not refused is there, and erasing the same values in any order gives back
the index there was, whatever nodes they share with it and with each other. -/
theorem insertions_undone (d : Dialect) (g : Guard) (cs : List (Change α)) (es es' : List (String × α))
    (horder : es'.Perm es) :
    let t := (empty d g).run cs
    (∀ e ∈ es, (e.2 == e.2) = true ∧ ∀ x ∈ t.valuesAt e.1, (x == e.2) = false) →
      (∀ e ∈ es, ¬ d.Refuses g e.1 →
        ∃ x ∈ (t.run (insertions es)).valuesAt e.1, (x == e.2) = true) ∧
      (t.run (insertions es)).run (erasures es') = t := by
  intro t hes
  have ht : t.Sound := sound_run d g cs
  refine ⟨fun e he hr => ht.exists_beq_run_insertions he ?_ (hes e he).1, ?_⟩
  · rwa [dialect_run, guard_run]
  refine ((ht.run _).run _).eq_of_valuesAt ht (by simp) (by simp) fun u => ?_
  obtain ⟨ws, hws, hadded⟩ := ht.exists_valuesAt_run_insertions es u
  have hkept : (t.valuesAt u).filter (spares es' u) = t.valuesAt u := by
    refine List.filter_eq_self.mpr fun x hx => spares_iff.mpr fun e he hu => ?_
    subst hu
    exact (hes e (horder.mem_iff.mp he)).2 x hx
  -- a value that was added is named by an erasure too, and is its own equal
  have hgone : ws.filter (spares es' u) = [] := by
    refine List.filter_eq_nil_iff.mpr fun w hw hspared => ?_
    have hself := spares_iff.mp hspared (u, w) (horder.mem_iff.mpr (hadded w hw)) rfl
    rw [(hes (u, w) (hadded w hw)).1] at hself
    cases hself
  rw [(ht.run _).valuesAt_run_erasures, hws, List.filter_append, hkept, hgone, List.append_nil]

theorem insertions_undone_below :
    let t := (empty .mqtt .strict : Index Nat).run [.insert "a/b" 1, .insert "c" 2]
    let es := [("a/b/d", 3), ("a", 3), ("a/#/b", 4), ("a/b", 5), ("a", 3)]
    let es' := [("a", 3), ("a/b", 5), ("a/b/d", 3), ("a", 3), ("a/#/b", 4)]
    es'.Perm es ∧ (∀ e ∈ es, (e.2 == e.2) = true ∧ ∀ x ∈ t.valuesAt e.1, (x == e.2) = false) ∧
      (t.run (insertions es)).valuesAt "a/b" = [1, 5] ∧ (t.run (insertions es)).run (erasures es') = t := by
  intro t es es'
  have horder : es'.Perm es := by decide
  have hnew : ∀ e ∈ es, (e.2 == e.2) = true ∧ ∀ x ∈ t.valuesAt e.1, (x == e.2) = false := by decide
  have hundone := insertions_undone .mqtt .strict [.insert "a/b" 1, .insert "c" 2] es es' horder hnew
  exact ⟨horder, hnew, by decide, hundone.2⟩

end Index

end TopicIndex
