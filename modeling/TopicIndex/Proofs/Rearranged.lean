import Mathlib.Data.String.Basic
import TopicIndex.Proofs.Overlap

/-! # Siblings in any order

`Forest.Rearranged`: the same trees with siblings in another order, at every level on its own. Children
are found by their segment whatever the order (`Forest.Rearranged.child`), so what covers a topic is
visited as before; only where a search goes through all children its values come in another order
(`Node.Rearranged.overlapping`). An outline sorts first (`Forest.Rearranged.sorted`). -/

namespace TopicIndex

universe u v

variable {α : Type u} {β : Type v}

/-- Siblings have distinct segments, and any two of them may change places. -/
inductive Forest.Rearranged : Forest α → Forest α → Prop
  | nil : Rearranged .nil .nil
  | cons (s : String) (vs : List α) {below below' rest rest' : Forest α} :
      Rearranged below below' → Rearranged rest rest' →
        Rearranged (.cons s vs below rest) (.cons s vs below' rest')
  | swap {s t : String} (vs ws : List α) (below below' rest : Forest α) : s ≠ t →
      Rearranged (.cons s vs below (.cons t ws below' rest)) (.cons t ws below' (.cons s vs below rest))
  | trans {f g h : Forest α} : Rearranged f g → Rearranged g h → Rearranged f h

structure Node.Rearranged (n m : Node α) : Prop where
  values : n.values = m.values
  children : n.children.Rearranged m.children

/-- The same index, kept with its siblings in another order. -/
structure Index.Rearranged (t s : Index α) : Prop where
  dialect : s.dialect = t.dialect
  guard : s.guard = t.guard
  root : t.root.Rearranged s.root

namespace Forest

/-- The forest of the given trees, each with its segment. -/
def ofTrees : List (String × Node α) → Forest α
  | [] => .nil
  | (s, n) :: trees => .cons s n.values n.children (ofTrees trees)

theorem enqueue_comm_of_lt {s t : String} (h : s < t) (vs ws : List α) (below below' f : Forest α) :
    enqueue s vs below (enqueue t ws below' f) = enqueue t ws below' (enqueue s vs below f) := by
  induction f with
  | nil => simp [enqueue, h, String.lt_asymm h]
  | cons x xs b rest _ ih =>
    simp only [enqueue]
    by_cases hs : x < s
    · have ht : x < t := String.lt_trans hs h
      simp [enqueue, hs, ht, ih]
    · by_cases ht : x < t <;> simp [enqueue, hs, ht, h, String.lt_asymm h]

/-- Trees of distinct segments can be queued in either order. -/
theorem enqueue_comm {s t : String} (h : s ≠ t) (vs ws : List α) (below below' f : Forest α) :
    enqueue s vs below (enqueue t ws below' f) = enqueue t ws below' (enqueue s vs below f) := by
  rcases lt_or_gt_of_ne h with h | h
  · exact enqueue_comm_of_lt h _ _ _ _ _
  · exact (enqueue_comm_of_lt h _ _ _ _ _).symm

theorem isForked_cons (s : String) (vs : List α) (below rest : Forest α) :
    (cons s vs below rest).isForked = (!rest.isEmpty || below.isForked) := by
  cases rest <;> rfl

namespace Rearranged

variable {f g : Forest α}

theorem refl (f : Forest α) : f.Rearranged f := by
  induction f with
  | nil => exact .nil
  | cons s vs below rest ihb ihr => exact .cons s vs ihb ihr

theorem symm (h : f.Rearranged g) : g.Rearranged f := by
  induction h with
  | nil => exact .nil
  | cons s vs _ _ ihb ihr => exact .cons s vs ihb ihr
  | swap vs ws below below' rest hst => exact .swap ws vs below' below rest hst.symm
  | trans _ _ ih₁ ih₂ => exact ih₂.trans ih₁

/-- Every order of siblings is a rearrangement. -/
theorem of_perm {trees trees' : List (String × Node α)} (h : trees.Perm trees')
    (hdistinct : (trees.map (·.1)).Nodup) : (ofTrees trees).Rearranged (ofTrees trees') := by
  induction h with
  | nil => exact .nil
  | cons tree _ ih => exact .cons _ _ (.refl _) (ih hdistinct.tail)
  | swap a b trees =>
    have hab : b.1 ≠ a.1 := by
      have := (List.nodup_cons.mp hdistinct).1
      simp_all
    exact .swap _ _ _ _ _ hab
  | trans h₁ _ ih₁ ih₂ => exact (ih₁ hdistinct).trans (ih₂ ((h₁.map _).nodup_iff.mp hdistinct))

theorem sorted (h : f.Rearranged g) : f.sorted = g.sorted := by
  induction h with
  | nil => rfl
  | cons s vs _ _ ihb ihr => rw [Forest.sorted, Forest.sorted, ihb, ihr]
  | swap vs ws below below' rest hst => exact enqueue_comm hst _ _ _ _ _
  | trans _ _ ih₁ ih₂ => exact ih₁.trans ih₂

theorem child (h : f.Rearranged g) (segment : String) : (f.child segment).Rearranged (g.child segment) := by
  induction h with
  | nil => exact ⟨rfl, .nil⟩
  | cons s vs hb _ _ ih =>
    rw [Forest.child, Forest.child, child?_cons, child?_cons]
    split
    · exact ⟨rfl, hb⟩
    · exact ih
  | @swap s t vs ws below below' rest hst =>
    -- at most one of the two has the segment looked for
    have heq : (Forest.cons s vs below (.cons t ws below' rest)).child segment =
        (Forest.cons t ws below' (.cons s vs below rest)).child segment := by
      simp only [Forest.child, child?_cons]
      by_cases hs : s = segment
      · subst hs; simp [hst.symm]
      · simp [hs]
    rw [heq]
    exact ⟨rfl, .refl _⟩
  | trans _ _ ih₁ ih₂ => exact ⟨ih₁.values.trans ih₂.values, ih₁.children.trans ih₂.children⟩

theorem isSome_child? (h : f.Rearranged g) (segment : String) :
    (f.child? segment).isSome = (g.child? segment).isSome := by
  induction h with
  | nil => rfl
  | cons s vs _ _ _ ih =>
    rw [child?_cons, child?_cons]
    split
    · rfl
    · exact ih
  | swap vs ws below below' rest hst => simp only [child?_cons]; split_ifs <;> rfl
  | trans _ _ ih₁ ih₂ => exact ih₁.trans ih₂

theorem isEmpty (h : f.Rearranged g) : f.isEmpty = g.isEmpty := by
  induction h with
  | nil | cons | swap => rfl
  | trans _ _ ih₁ ih₂ => exact ih₁.trans ih₂

theorem isForked (h : f.Rearranged g) : f.isForked = g.isForked := by
  induction h with
  | nil => rfl
  | cons s vs _ hr ihb _ => rw [isForked_cons, isForked_cons, ihb, hr.isEmpty]
  | swap => rfl
  | trans _ _ ih₁ ih₂ => exact ih₁.trans ih₂

/-- Where no node has two children, there is one order only. -/
theorem eq_of_isForked (h : f.Rearranged g) (hf : f.isForked = false) : f = g := by
  induction h with
  | nil => rfl
  | @cons s vs below below' rest rest' _ _ ihb ihr =>
    rw [isForked_cons, Bool.or_eq_false_iff] at hf
    have hrest : rest.isForked = false := by
      cases rest with
      | nil => rfl
      | cons => cases hf.1
    rw [ihb hf.2, ihr hrest]
  | swap => cases hf
  | trans h₁ _ ih₁ ih₂ => exact (ih₁ hf).trans (ih₂ (h₁.isForked ▸ hf))

theorem flatMap {see : Node α → List β} (hsee : ∀ n m, n.Rearranged m → (see n).Perm (see m))
    (h : f.Rearranged g) : (f.flatMap see).Perm (g.flatMap see) := by
  induction h with
  | nil => exact .nil
  | @cons s vs below below' rest rest' hb _ _ ih =>
    have hfirst : (see ⟨vs, below⟩).Perm (see ⟨vs, below'⟩) := hsee _ _ ⟨rfl, hb⟩
    exact hfirst.append ih
  | swap vs ws below below' rest _ =>
    simp only [Forest.flatMap, ← List.append_assoc]
    exact List.perm_append_comm.append_right _
  | trans _ _ ih₁ ih₂ => exact ih₁.trans ih₂

theorem values (h : f.Rearranged g) : f.values.Perm g.values := by
  induction h with
  | nil => exact .nil
  | cons s vs _ _ ihb ihr => exact (ihb.append ihr).append_left vs
  | swap vs ws below below' rest _ =>
    have hswap : ((vs ++ below.values) ++ (ws ++ below'.values)).Perm
        ((ws ++ below'.values) ++ (vs ++ below.values)) := List.perm_append_comm
    simpa only [Forest.values, List.append_assoc] using hswap.append_right rest.values
  | trans _ _ ih₁ ih₂ => exact ih₁.trans ih₂

end Rearranged

end Forest

namespace Node.Rearranged

variable {n m : Node α}

theorem child (h : n.Rearranged m) (segment : String) : (n.child segment).Rearranged (m.child segment) :=
  h.children.child segment

theorem valuesAt (h : n.Rearranged m) (p : List String) : n.valuesAt p = m.valuesAt p := by
  induction p generalizing n m with
  | nil => exact h.values
  | cons s p ih => rw [valuesAt_cons, valuesAt_cons, ih (h.child s)]

theorem symm (h : n.Rearranged m) : m.Rearranged n := ⟨h.values.symm, h.children.symm⟩

theorem trans {l : Node α} (h : n.Rearranged m) (h' : m.Rearranged l) : n.Rearranged l :=
  ⟨h.values.trans h'.values, h.children.trans h'.children⟩

theorem isEmpty (h : n.Rearranged m) : n.isEmpty = m.isEmpty := by
  rw [Node.isEmpty, Node.isEmpty, h.values, h.children.isEmpty]

theorem exists_find? (h : n.Rearranged m) {p : List String} {c : Node α} (hc : n.find? p = some c) :
    ∃ c', m.find? p = some c' ∧ c.Rearranged c' := by
  induction p generalizing n m with
  | nil => cases hc; exact ⟨m, rfl, h⟩
  | cons s p ih =>
    obtain ⟨b, hb, hc⟩ := Option.bind_eq_some_iff.mp hc
    have hsome : (n.child? s).isSome = (m.child? s).isSome := h.children.isSome_child? s
    have hchild : ((n.child? s).getD .empty).Rearranged ((m.child? s).getD .empty) := h.child s
    cases hb' : m.child? s with
    | none => rw [hb, hb'] at hsome; cases hsome
    | some b' =>
      rw [hb, hb'] at hchild
      obtain ⟨c', hc', hcc'⟩ := ih hchild hc
      exact ⟨c', by rw [find?, hb']; exact hc', hcc'⟩

theorem isSome_find? (h : n.Rearranged m) (p : List String) :
    (n.find? p).isSome = (m.find? p).isSome := by
  refine Bool.eq_iff_iff.mpr ⟨fun hn => ?_, fun hm => ?_⟩
  · obtain ⟨c, hc⟩ := Option.isSome_iff_exists.mp hn
    obtain ⟨c', hc', -⟩ := h.exists_find? hc
    rw [hc']; rfl
  · obtain ⟨c, hc⟩ := Option.isSome_iff_exists.mp hm
    obtain ⟨c', hc', -⟩ := h.symm.exists_find? hc
    rw [hc']; rfl

theorem multiValues (h : n.Rearranged m) (d : Dialect) : n.multiValues d = m.multiValues d :=
  (h.child d.multi).values

theorem allValues (h : n.Rearranged m) : n.allValues.Perm m.allValues := by
  rw [Node.allValues, Node.allValues, h.values]
  exact h.children.values.append_left _

theorem size (h : n.Rearranged m) : n.size = m.size := by
  rw [Node.size_eq_length, Node.size_eq_length, h.allValues.length_eq]

theorem matching (h : n.Rearranged m) (d : Dialect) (path : List String) :
    n.matching d path = m.matching d path := by
  induction path generalizing n m with
  | nil => rw [Node.matching, Node.matching, h.values, h.multiValues]
  | cons segment path ih =>
    have hat : ∀ t, n.atChild t (Node.matching d · path) = m.atChild t (Node.matching d · path) := by
      intro t
      rw [atChild_matching, atChild_matching]
      exact ih (h.child t)
    rw [Node.matching, Node.matching, hat, h.multiValues]
    cases d.read segment with
    | literal text => simp only [hat]
    | single | multi => rfl

/-- A search comes to the same values, in another order where it goes through all children. -/
theorem overlapping (h : n.Rearranged m) (d : Dialect) (path : List String) :
    (n.overlapping d path).Perm (m.overlapping d path) := by
  induction path generalizing n m with
  | nil => rw [Node.overlapping, Node.overlapping, h.values, h.multiValues]
  | cons segment path ih =>
    have hat : ∀ t, (n.atChild t (Node.overlapping d · path)).Perm
        (m.atChild t (Node.overlapping d · path)) := by
      intro t
      rw [atChild_overlapping, atChild_overlapping]
      exact ih (h.child t)
    rw [Node.overlapping, Node.overlapping, h.multiValues]
    cases d.read segment with
    | literal text => exact (hat text).append ((hat d.single).append_right _)
    | single => exact (h.children.flatMap fun _ _ => ih).append_right _
    | multi => exact h.allValues

end Node.Rearranged

namespace Index

namespace Rearranged

variable {t s : Index α}

theorem symm (h : t.Rearranged s) : s.Rearranged t := ⟨h.dialect.symm, h.guard.symm, h.root.symm⟩

theorem trans {r : Index α} (h : t.Rearranged s) (h' : s.Rearranged r) : t.Rearranged r where
  dialect := h'.dialect.trans h.dialect
  guard := h'.guard.trans h.guard
  root := h.root.trans h'.root

theorem path (h : t.Rearranged s) (topic : String) : s.path topic = t.path topic := by
  rw [Index.path, h.dialect, Index.path]

theorem valuesAt (h : t.Rearranged s) (topic : String) : s.valuesAt topic = t.valuesAt topic := by
  rw [Index.valuesAt, Index.valuesAt, h.path, h.root.valuesAt]

theorem isSome_node? (h : t.Rearranged s) (path : List String) :
    (s.node? path).isSome = (t.node? path).isSome := (h.root.isSome_find? path).symm

theorem node_matching (h : t.Rearranged s) (topic : String) :
    s.root.matching s.dialect (s.path topic) = t.root.matching t.dialect (t.path topic) := by
  rw [h.dialect, h.path, h.root.matching]

theorem node_overlapping (h : t.Rearranged s) (pattern : String) :
    (s.root.overlapping s.dialect (s.path pattern)).Perm
      (t.root.overlapping t.dialect (t.path pattern)) := by
  rw [h.dialect, h.path]
  exact (h.root.overlapping _ _).symm

theorem display (h : t.Rearranged s) : s.display = t.display := by
  rw [Index.display, Index.display, outline, outline, Forest.outline, Forest.outline,
    h.root.children.sorted]

theorem firstMatching?_eq (h : t.Rearranged s) (topic : String) :
    s.firstMatching? topic = t.firstMatching? topic := by
  rw [firstMatching?, firstMatching?, Node.firstMatching?_eq_head?, Node.firstMatching?_eq_head?,
    h.node_matching]

theorem isConcrete_eq (h : t.Rearranged s) (pattern : String) :
    s.dialect.isConcrete (s.path pattern) = t.dialect.isConcrete (t.path pattern) := by
  rw [h.dialect, h.path]

/-- A query without wildcards is looked up like a topic. -/
theorem node_overlapping_of_isConcrete (h : t.Rearranged s) {pattern : String}
    (hq : t.dialect.isConcrete (t.path pattern) = true) :
    s.root.overlapping s.dialect (s.path pattern) = t.root.overlapping t.dialect (t.path pattern) := by
  have hq' : s.dialect.isConcrete (s.path pattern) = true := (h.isConcrete_eq pattern).trans hq
  rw [Node.overlapping_eq_matching hq', Node.overlapping_eq_matching hq, h.node_matching]

theorem firstOverlapping?_of_isConcrete (h : t.Rearranged s) {pattern : String}
    (hq : t.dialect.isConcrete (t.path pattern) = true) :
    s.firstOverlapping? pattern = t.firstOverlapping? pattern := by
  rw [firstOverlapping?, firstOverlapping?, Node.firstOverlapping?_eq_head?,
    Node.firstOverlapping?_eq_head?, h.node_overlapping_of_isConcrete hq]

theorem firstOverlapping?_eq_none_iff (h : t.Rearranged s) (pattern : String) :
    s.firstOverlapping? pattern = none ↔ t.firstOverlapping? pattern = none := by
  have hover := h.node_overlapping pattern
  rw [firstOverlapping?, firstOverlapping?, Node.firstOverlapping?_eq_head?,
    Node.firstOverlapping?_eq_head?, List.head?_eq_none_iff, List.head?_eq_none_iff]
  exact ⟨fun h => (h ▸ hover).nil_eq.symm, fun h => (h ▸ hover).eq_nil⟩

section Answers

variable [BEq α]

theorem matching_eq (h : t.Rearranged s) (topic : String) : s.matching topic = t.matching topic :=
  congrArg List.eraseDups (h.node_matching topic)

theorem overlapping_of_isConcrete (h : t.Rearranged s) {pattern : String}
    (hq : t.dialect.isConcrete (t.path pattern) = true) : s.overlapping pattern = t.overlapping pattern :=
  congrArg List.eraseDups (h.node_overlapping_of_isConcrete hq)

variable [PartialEquivBEq α]

theorem sameClasses_all (h : t.Rearranged s) : SameClasses s.all t.all :=
  .of_perm h.root.symm.allValues

theorem sameClasses_overlapping (h : t.Rearranged s) (pattern : String) :
    SameClasses (s.overlapping pattern) (t.overlapping pattern) :=
  .of_perm (h.node_overlapping pattern)

end Answers

end Rearranged

/-- The order in which siblings are kept shows only where values are gathered from all children, and
there in their order alone. -/
theorem answers_of_rearranged [BEq α] (d : Dialect) (g : Guard) (cs : List (Change α)) {s s' : Index α}
    (hs : ((empty d g).run cs).Rearranged s) (hs' : ((empty d g).run cs).Rearranged s') (q : String) :
    (s.matching q = s'.matching q ∧ s.firstMatching? q = s'.firstMatching? q) ∧
    (d.isConcrete (d.split q) = true →
      s.overlapping q = s'.overlapping q ∧ s.firstOverlapping? q = s'.firstOverlapping? q) ∧
    s.display = s'.display ∧
    (s.firstOverlapping? q = none ↔ s'.firstOverlapping? q = none) ∧
    (PartialEquivBEq α → SameClasses s.all s'.all ∧
      SameClasses (s.overlapping q) (s'.overlapping q)) := by
  have h : s'.Rearranged s := hs'.symm.trans hs
  refine ⟨⟨h.matching_eq q, h.firstMatching?_eq q⟩, fun hq => ?_, h.display, h.firstOverlapping?_eq_none_iff q,
    fun _ => ⟨h.sameClasses_all, h.sameClasses_overlapping q⟩⟩
  have hconc : s'.dialect.isConcrete (s'.path q) = true := by
    rw [hs'.isConcrete_eq, path_run, dialect_run]
    exact hq
  exact ⟨h.overlapping_of_isConcrete hconc, h.firstOverlapping?_of_isConcrete hconc⟩

theorem answers_of_rearranged_pair :
    let a : String × Node Nat := ("a", ⟨[1], .nil⟩)
    let b : String × Node Nat := ("b", ⟨[2], .nil⟩)
    let t := (empty .mqtt .strict : Index Nat).run [.insert "a" 1, .insert "b" 2]
    let s : Index Nat := ⟨.mqtt, .strict, ⟨[], .ofTrees [b, a]⟩⟩
    t.Rearranged t ∧ t.Rearranged s ∧ t.all = [1, 2] ∧ s.all = [2, 1] ∧
      SameClasses (t.overlapping "+") (s.overlapping "+") ∧ t.matching "b" = s.matching "b" := by
  intro a b t s
  have ht : t.Rearranged t := ⟨rfl, rfl, rfl, .refl _⟩
  have hroot : t.root = ⟨[], .ofTrees [a, b]⟩ := by rfl
  have hs : t.Rearranged s := by
    refine ⟨rfl, rfl, by rw [hroot], ?_⟩
    rw [hroot]
    exact .of_perm (.swap b a []) (by decide)
  obtain ⟨-, -, -, -, h⟩ := answers_of_rearranged .mqtt .strict _ ht hs "+"
  obtain ⟨⟨hmatch, -⟩, -⟩ := answers_of_rearranged .mqtt .strict _ ht hs "b"
  exact ⟨ht, hs, by decide, by decide, (h inferInstance).2, hmatch⟩

end Index

end TopicIndex
