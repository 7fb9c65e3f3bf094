import TopicIndex.Proofs.Extensional
import TopicIndex.Proofs.Ledger

/-! # What events account for

The events of changes against the index before and after (`Index.Accounts`). Changing one list changes
the size by what the list gains or loses (`Node.size_alter`); a purge takes away what it counts
(`Node.size_purge`). The flag of a removal comes from going down to the topic and back up only as far as
nodes are dropped (`Node.update_snd_iff`), and of a sound index it tells that the last value has just gone
(`Index.Sound.tellsLast`). -/

namespace TopicIndex

universe u

variable {α : Type u}

theorem Node.size_mk (vs : List α) (f : Forest α) : (⟨vs, f⟩ : Node α).size = vs.length + f.size := rfl

namespace Forest

theorem size_plant (segment : String) (n : Node α) (rest : Forest α) :
    (plant segment n rest).size = n.size + rest.size := by
  unfold plant
  split
  · next h => rw [Node.isEmpty_iff.mp h]; exact (Nat.zero_add _).symm
  · rfl

/-- A child is replaced, the others keep what they hold. -/
theorem size_replace {f : Forest α} (hf : f.Ordered) (segment : String) (n : Node α) :
    (f.replace segment n).size + (f.child segment).size = n.size + f.size := by
  induction hf with
  | nil => rfl
  | @cons s vs below rest hlt _ _ _ ih =>
    unfold replace
    split
    · next hs =>
      subst hs
      rw [child_cons_self, Node.size_mk, size, size, Node.size]; omega
    · next hs =>
      split
      · next hlt' =>
        -- no later sibling has the segment, for they increase
        have hout : segment ∉ (cons s vs below rest).segments := by
          simp only [segments, List.mem_cons, not_or]
          exact ⟨Ne.symm hs, fun h => String.lt_asymm hlt' (hlt _ h)⟩
        rw [size, child_eq_empty hout]; rfl
      · rw [child_cons_of_ne hs, size, size]; omega

theorem size_remove (segment : String) (f : Forest α) :
    (f.remove segment).size + (f.child segment).size = f.size := by
  induction f with
  | nil => rfl
  | cons s vs below rest _ ih =>
    unfold remove
    split
    · next hs => subst hs; rw [child_cons_self, Node.size_mk, size, Nat.add_comm]
    · next hs => rw [child_cons_of_ne hs, size, size]; omega

theorem size_put {f : Forest α} (hf : f.Ordered) (segment : String) (n : Node α) :
    (f.put segment n).size + (f.child segment).size = n.size + f.size := by
  by_cases hn : n = .empty
  · rw [hn, put_empty, size_remove]; exact (Nat.zero_add _).symm
  · rw [put_of_ne_empty hn, size_replace hf]

section Purge

variable [BEq α]

theorem occurrences_eq_countP (v : α) (f : Forest α) : f.occurrences v = f.values.countP (· == v) := by
  induction f with
  | nil => rfl
  | cons s vs below rest ihb ihr =>
    rw [occurrences, values, List.countP_append, List.countP_append, ihb, ihr, Nat.add_assoc]

theorem size_purge (v : α) (f : Forest α) : (f.purge v).size + f.occurrences v = f.size := by
  induction f with
  | nil => rfl
  | cons s vs below rest ihb ihr =>
    have hvs := length_expunge v vs
    rw [purge, size_plant, Node.size_mk, occurrences, size]; omega

end Purge

end Forest

namespace Node

variable {n : Node α}

theorem size_alter (hn : n.children.Ordered) (f : List α → List α) (path : List String) :
    (n.alter f path).size + (n.valuesAt path).length = n.size + (f (n.valuesAt path)).length := by
  induction path generalizing n with
  | nil => rw [alter, size_mk, size, valuesAt_nil]; omega
  | cons segment path ih =>
    have hput : (n.children.put segment ((n.child segment).alter f path)).size + (n.child segment).size =
        ((n.child segment).alter f path).size + n.children.size := Forest.size_put hn segment _
    have hbelow := ih (ordered_child hn segment)
    rw [alter, valuesAt_cons, size_mk, size]; omega

section Purge

variable [BEq α]

theorem occurrences_eq_countP (v : α) (n : Node α) : n.occurrences v = n.allValues.countP (· == v) := by
  rw [occurrences, allValues, List.countP_append, Forest.occurrences_eq_countP]

theorem size_purge (v : α) (n : Node α) : (n.purge v).size + n.occurrences v = n.size := by
  have hvs := length_expunge v n.values
  have hbelow := Forest.size_purge v n.children
  rw [purge, size_mk, size, occurrences]; omega

end Purge

/-- The way back up stops at a node that is not empty, and such a node makes those above it so. -/
theorem update_snd_iff {f : List α → List α} {path : List String} :
    (n.update f path).2 = true ↔ (n.find? path).isSome = true ∧ (n.update f path).1 = empty := by
  constructor
  · refine fun h => ⟨?_, update_snd h⟩
    induction path generalizing n with
    | nil => rfl
    | cons segment path ih =>
      unfold update at h
      split at h
      · cases h
      · next c hc =>
        split at h
        · cases h
        · next h' =>
          rw [find?, hc]
          exact ih (by rw [h'])
  · rintro ⟨hfound, h⟩
    induction path generalizing n with
    | nil => exact isEmpty_iff.mpr h
    | cons segment path ih =>
      unfold update at h ⊢
      split at h
      · next hc => rw [find?, hc] at hfound; cases hfound
      · next c hc =>
        split at h
        · next c' h' =>
          -- the child stays, as the flag would be up otherwise, and so does this node
          have hc' : c' ≠ empty := by
            rintro rfl
            rw [find?, hc] at hfound
            have hup := ih hfound (by rw [h'])
            rw [h'] at hup; cases hup
          exact absurd (congrArg Node.children h) (Forest.replace_ne_nil _ _ _)
        · exact isEmpty_iff.mpr h

end Node

namespace Index

variable {t : Index α}

/-- What the flag of a removal tells: the index held something and holds nothing now. So the topic
had a node, which is gone. -/
structure TellsLast (t t' : Index α) (topic : String) (last : Bool) : Prop where
  emptied : last = true ↔ t.isEmpty = false ∧ t'.isEmpty = true
  node : last = true → (t.node? (t.path topic)).isSome = true ∧ t'.node? (t.path topic) = none

/-- What the flag of an insertion tells: no equal value was there, and the new one is an addition. -/
structure TellsFresh [BEq α] (t t' : Index α) (topic : String) (v : α) (fresh : Bool) : Prop where
  absent : fresh = true ↔ ∀ x ∈ t.valuesAt topic, (x == v) = false
  added : fresh = true → t'.size = t.size + 1
  unchanged : fresh = false → t' = t

/-- The fields of an event, against the index before the change and after it. -/
def Accounts [BEq α] (t t' : Index α) : Change α → List (String × Log.Field) → Prop
  | .insert topic v, fields => ∃ fresh, fields = [("topic", .text topic), ("added", .flag fresh)] ∧
      t.TellsFresh t' topic v fresh
  | .assign topic _, fields => fields = [("topic", .text topic)]
  | .erase topic _, fields | .vacate topic, fields =>
      ∃ last, fields = [("topic", .text topic), ("root_empty", .flag last)] ∧ t.TellsLast t' topic last
  | .purge _, fields => ∃ n, fields = [("removed", .number n)] ∧ t'.size + n = t.size
  | .reset, fields => fields = []

/-- No topic is at the root, so what has a node has something below the root. -/
theorem node?_empty (d : Dialect) (g : Guard) (topic : String) :
    (empty d g : Index α).node? (d.split topic) = none := by
  obtain ⟨s, p, hp⟩ := List.exists_cons_of_ne_nil (d.split_ne_nil topic)
  rw [hp]; rfl

namespace Sound

theorem size_alter (h : t.Sound) (f : List α → List α) (topic : String) :
    (t.alter f topic).size + (t.valuesAt topic).length = t.size + (f (t.valuesAt topic)).length :=
  Node.size_alter h.ordered f _

/-- Where the list stays as it is, so does the index. -/
theorem alter_eq_self (h : t.Sound) {f : List α → List α} {topic : String}
    (hf : f (t.valuesAt topic) = t.valuesAt topic) : t.alter f topic = t := by
  refine (h.alter f topic).eq_of_valuesAt h rfl rfl fun u => ?_
  rw [h.valuesAt_alter, hf, Function.update_eq_self]

theorem tellsLast (h : t.Sound) {f : List α → List α} (hf : f [] = []) (topic : String) :
    t.TellsLast (t.update f topic).1 topic (t.update f topic).2 := by
  have hlast : (t.update f topic).2 = true ↔ (t.node? (t.path topic)).isSome = true ∧
      (t.update f topic).1.root = .empty := Node.update_snd_iff
  have hnone : ∀ {r : Index α}, r.root = .empty → r.node? (t.path topic) = none := by
    intro r hr
    rw [node?, hr]
    exact node?_empty t.dialect t.guard topic
  refine ⟨?_, fun h => ⟨(hlast.mp h).1, hnone (hlast.mp h).2⟩⟩
  rw [hlast, isEmpty, isEmpty, Bool.eq_false_iff, ne_eq, Node.isEmpty_iff, Node.isEmpty_iff]
  refine and_congr_left fun hempty => ⟨fun hfound hroot => ?_, fun hroot => ?_⟩
  · rw [hnone hroot] at hfound; cases hfound
  · by_contra hmissing
    -- where nothing is found nothing changes, and so nothing goes
    have hnil : t.valuesAt topic = [] := Node.valuesAt_eq_nil (by simpa [node?] using hmissing)
    have hself : (t.update f topic).1 = t := by
      rw [update_fst h.pruned hf]
      exact h.alter_eq_self (by rw [hnil, hf])
    rw [hself] at hempty
    exact hroot hempty

variable [BEq α]

theorem tellsFresh (h : t.Sound) (topic : String) (v : α) :
    t.TellsFresh (t.insert topic v) topic v !((t.valuesAt topic).any (· == v)) := by
  have hinsert : t.insert topic v = t.alter (adjoin v) topic := store_eq_alter (adjoin_ne_nil v) t topic
  have hsize := h.size_alter (adjoin v) topic
  refine ⟨by simp, fun hfresh => ?_, fun hknown => ?_⟩
  · rw [adjoin, if_neg (by simpa using hfresh), List.length_append, List.length_singleton] at hsize
    rw [hinsert]; omega
  · rw [hinsert]
    exact h.alter_eq_self (by rw [adjoin, if_pos (by simpa using hknown)])

end Sound

/-- The record of a change that is carried out tells truly what the change did. -/
theorem records_account [BEq α] (d : Dialect) (g : Guard) (cs : List (Change α)) (c : Change α)
    (t' : Index α) (e : Event) :
    let t := (empty d g).run cs
    t.apply c = .ok (t', e) → t.Accounts t' c e.record.fields := by
  intro t hc
  have ht : t.Sound := sound_run d g cs
  cases c with
  | insert topic v =>
    rw [apply] at hc
    split at hc
    · cases hc
    · cases hc; exact ⟨_, rfl, ht.tellsFresh topic v⟩
  | assign topic v =>
    rw [apply] at hc
    split at hc
    · cases hc
    · cases hc; rfl
  | erase topic v => cases hc; exact ⟨_, rfl, ht.tellsLast rfl topic⟩
  | vacate topic => cases hc; exact ⟨_, rfl, ht.tellsLast rfl topic⟩
  | purge v => cases hc; exact ⟨_, rfl, Node.size_purge v t.root⟩
  | reset => cases hc; rfl

theorem records_account_last :
    let t := (empty .mqtt .strict : Index Nat).run [.insert "a" 1, .insert "a/b" 2, .vacate "a"]
    let t' := (empty .mqtt .strict : Index Nat)
    t.apply (.erase "a/b" 2) = .ok (t', .erased "a/b" true) ∧
      t.Accounts t' (.erase "a/b" 2) [("topic", .text "a/b"), ("root_empty", .flag true)] := by
  intro t t'
  have hc : t.apply (.erase "a/b" 2) = .ok (t', .erased "a/b" true) := by rfl
  exact ⟨hc, records_account .mqtt .strict _ _ t' _ hc⟩

end Index

end TopicIndex
