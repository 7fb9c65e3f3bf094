import TopicIndex.Proofs.Entries

/-! # Pruned forests

`Forest.Pruned`: no node holds nothing. Every change keeps it, and it makes the nodes a matter of the
stored values: a path has a node exactly when something is stored at the path or below
(`Node.isSome_find?_iff`). -/

namespace TopicIndex

universe u

variable {α : Type u}

/-- Every node has values or children. -/
inductive Forest.Pruned : Forest α → Prop
  | nil : Pruned .nil
  | cons {s : String} {vs : List α} {below rest : Forest α} :
      (⟨vs, below⟩ : Node α) ≠ .empty → Pruned below → Pruned rest → Pruned (.cons s vs below rest)

namespace Forest.Pruned

variable {f rest : Forest α} {n : Node α}

theorem plant (hn : n.children.Pruned) (hr : rest.Pruned) (segment : String) :
    (plant segment n rest).Pruned := by
  unfold Forest.plant
  split
  · exact hr
  · next h => exact .cons (fun he => h (Node.isEmpty_iff.mpr he)) hn hr

theorem replace (hf : f.Pruned) (hne : n ≠ .empty) (hn : n.children.Pruned) (segment : String) :
    (f.replace segment n).Pruned := by
  induction hf with
  | nil => exact .cons hne hn .nil
  | cons h hb hr _ ih =>
    unfold Forest.replace
    split
    · exact .cons hne hn hr
    · split
      · exact .cons hne hn (.cons h hb hr)
      · exact .cons h hb ih

theorem remove (hf : f.Pruned) (segment : String) : (f.remove segment).Pruned := by
  induction hf with
  | nil => exact .nil
  | cons h hb hr _ ih =>
    unfold Forest.remove
    split
    · exact hr
    · exact .cons h hb ih

/-- Whatever was there, purging leaves no node without values or children. -/
theorem purge [BEq α] (v : α) (f : Forest α) : (f.purge v).Pruned := by
  induction f with
  | nil => exact .nil
  | cons s vs below rest ihb ihr => exact .plant ihb ihr s

theorem of_child? (hf : f.Pruned) {segment : String} (h : f.child? segment = some n) :
    n ≠ .empty ∧ n.children.Pruned := by
  induction hf with
  | nil => cases h
  | cons hne hb _ _ ih =>
    rw [child?_cons] at h
    split at h
    · cases h; exact ⟨hne, hb⟩
    · exact ih h

theorem child (hf : f.Pruned) (segment : String) : (f.child segment).children.Pruned := by
  unfold Forest.child
  cases h : f.child? segment with
  | none => exact .nil
  | some c => exact (hf.of_child? h).2

end Forest.Pruned

namespace Node

variable {n c : Node α}

theorem find?_append (n : Node α) (p q : List String) :
    n.find? (p ++ q) = (n.find? p).bind (find? · q) := by
  induction p generalizing n with
  | nil => rfl
  | cons s p ih =>
    rw [List.cons_append, find?, find?]
    cases n.child? s with
    | none => rfl
    | some c => exact ih c

theorem valuesAt_append {p : List String} (h : n.find? p = some c) (q : List String) :
    n.valuesAt (p ++ q) = c.valuesAt q := by
  rw [valuesAt, find?_append, h]; rfl

theorem exists_valuesAt_ne_nil (hn : n.children.Pruned) (h : n ≠ empty) : ∃ p, n.valuesAt p ≠ [] := by
  obtain ⟨vs, f⟩ := n
  change f.Pruned at hn
  induction hn generalizing vs with
  | nil => exact ⟨[], fun hvs => h (by simp_all [empty])⟩
  | @cons s ws below rest hne _ _ ih _ =>
    obtain ⟨q, hq⟩ := ih ws hne
    have hc : (⟨vs, .cons s ws below rest⟩ : Node α).child s = ⟨ws, below⟩ :=
      Forest.child_cons_self s ws below rest
    exact ⟨s :: q, by rw [valuesAt_cons, hc]; exact hq⟩

/-- Below a node with children something is stored. -/
theorem exists_valuesAt_cons (hn : n.children.Pruned) (h : n.children ≠ .nil) :
    ∃ s q, n.valuesAt (s :: q) ≠ [] := by
  have hne : (⟨[], n.children⟩ : Node α) ≠ empty := fun he => h (congrArg Node.children he)
  obtain ⟨p, hp⟩ := exists_valuesAt_ne_nil (n := ⟨[], n.children⟩) hn hne
  cases p with
  | nil => exact absurd rfl hp
  | cons s q => exact ⟨s, q, by rw [valuesAt_cons] at hp ⊢; exact hp⟩

theorem eq_empty_iff (hn : n.children.Pruned) : n = empty ↔ ∀ p, n.valuesAt p = [] := by
  constructor
  · rintro rfl p
    exact valuesAt_empty p
  · intro h
    by_contra hne
    obtain ⟨p, hp⟩ := exists_valuesAt_ne_nil hn hne
    exact hp (h p)

theorem pruned_find? (hn : n.children.Pruned) {p : List String} (h : n.find? p = some c) :
    (p ≠ [] → c ≠ empty) ∧ c.children.Pruned := by
  induction p generalizing n with
  | nil => cases h; exact ⟨fun h => absurd rfl h, hn⟩
  | cons s p ih =>
    obtain ⟨m, hm, h⟩ := Option.bind_eq_some_iff.mp h
    obtain ⟨hne, hm⟩ := hn.of_child? hm
    refine ⟨fun _ => ?_, (ih hm h).2⟩
    cases p with
    | nil => cases h; exact hne
    | cons t p => exact (ih hm h).1 (by simp)

theorem isSome_find?_of_valuesAt {p q : List String} (h : n.valuesAt (p ++ q) ≠ []) :
    (n.find? p).isSome = true := by
  cases hp : n.find? p with
  | none => exact absurd (valuesAt_eq_nil (by rw [find?_append, hp]; rfl)) h
  | some c => rfl

/-- Below every node something is stored. -/
theorem isSome_find?_iff (hn : n.children.Pruned) {p : List String} (hp : p ≠ []) :
    (n.find? p).isSome = true ↔ ∃ q, n.valuesAt (p ++ q) ≠ [] := by
  refine ⟨fun h => ?_, fun ⟨q, hq⟩ => isSome_find?_of_valuesAt hq⟩
  obtain ⟨c, hc⟩ := Option.isSome_iff_exists.mp h
  obtain ⟨hne, hpr⟩ := pruned_find? hn hc
  obtain ⟨q, hq⟩ := exists_valuesAt_ne_nil hpr (hne hp)
  exact ⟨q, by rwa [valuesAt_append hc]⟩

theorem size_eq_zero_iff (hn : n.children.Ordered) : n.size = 0 ↔ ∀ p, n.valuesAt p = [] := by
  rw [size_eq_length, List.length_eq_zero_iff]
  constructor
  · intro h p
    refine List.eq_nil_iff_forall_not_mem.mpr fun v hv => ?_
    have hall : v ∈ n.allValues := (mem_allValues hn).mpr ⟨p, hv⟩
    rw [h] at hall; cases hall
  · intro h
    refine List.eq_nil_iff_forall_not_mem.mpr fun v hv => ?_
    obtain ⟨p, hp⟩ := (mem_allValues hn).mp hv
    rw [h p] at hp; cases hp

end Node

end TopicIndex
