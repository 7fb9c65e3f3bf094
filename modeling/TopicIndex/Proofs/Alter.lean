import TopicIndex.Proofs.Pruned

/-! # Changing a list and leaving no empty node

`Node.alter` changes the list at a path and takes out every node on it that holds nothing then. It changes
no other list (`Node.valuesAt_alter`, `Node.valuesAt_alter_of_ne`) and leaves an ordered, pruned forest as
it finds one. Storing changes a node in this way, as what is stored is there (`Node.store_eq_alter`). So
does an update, which looks only as far up as its flag tells: of a pruned node nothing else can be empty
(`Node.update_eq_alter`). -/

namespace TopicIndex

universe u

variable {α : Type u}

namespace Forest

/-- Replaces a child, or takes it out where it is to be empty. -/
def put (segment : String) (n : Node α) (f : Forest α) : Forest α :=
  if n.isEmpty then f.remove segment else f.replace segment n

variable {f : Forest α} {n : Node α} {segment : String}

@[simp] theorem put_empty (segment : String) (f : Forest α) : f.put segment .empty = f.remove segment := rfl

theorem put_of_ne_empty (hn : n ≠ .empty) (segment : String) (f : Forest α) :
    f.put segment n = f.replace segment n :=
  if_neg (mt Node.isEmpty_iff.mp hn)

theorem child_put_of_ne {s : String} (h : s ≠ segment) (n : Node α) (f : Forest α) :
    (f.put s n).child segment = f.child segment := by
  unfold put
  split
  · exact child_remove_of_ne h f
  · exact child_replace_of_ne h n f

theorem Ordered.child_put (hf : f.Ordered) (segment : String) (n : Node α) :
    (f.put segment n).child segment = n := by
  by_cases hn : n = .empty
  · rw [hn, put_empty, hf.child_remove_self]
  · rw [put_of_ne_empty hn, child_replace_self]

theorem Ordered.put (hf : f.Ordered) (hn : n.children.Ordered) : (f.put segment n).Ordered := by
  unfold Forest.put
  split
  · exact hf.remove segment
  · exact hf.replace hn

theorem Pruned.put (hf : f.Pruned) (hn : n.children.Pruned) (segment : String) :
    (f.put segment n).Pruned := by
  by_cases hne : n = .empty
  · rw [hne]; exact hf.remove segment
  · rw [put_of_ne_empty hne]; exact hf.replace hne hn segment

end Forest

namespace Node

variable {f : List α → List α} {n : Node α}

/-- Changes the list of values at a path and takes out the nodes on it that hold nothing then. -/
def alter (f : List α → List α) (n : Node α) : List String → Node α
  | [] => { n with values := f n.values }
  | segment :: path =>
    { n with children := n.children.put segment (alter f (n.child segment) path) }

theorem alter_empty (hf : f [] = []) (path : List String) : (empty : Node α).alter f path = empty := by
  induction path with
  | nil => rw [alter, empty, hf]
  | cons segment path ih => rw [alter, child_empty, ih]; rfl

theorem child_alter_of_ne {segment s : String} (h : s ≠ segment) (f : List α → List α) (n : Node α)
    (path : List String) : (n.alter f (s :: path)).child segment = n.child segment :=
  Forest.child_put_of_ne h _ _

theorem child_alter (hn : n.children.Ordered) (f : List α → List α) (segment : String)
    (path : List String) : (n.alter f (segment :: path)).child segment = (n.child segment).alter f path :=
  hn.child_put segment _

theorem ordered_alter (hn : n.children.Ordered) (f : List α → List α) (path : List String) :
    (n.alter f path).children.Ordered := by
  induction path generalizing n with
  | nil => exact hn
  | cons segment path ih => exact hn.put (ih (ordered_child hn segment))

theorem pruned_alter (hn : n.children.Pruned) (f : List α → List α) (path : List String) :
    (n.alter f path).children.Pruned := by
  induction path generalizing n with
  | nil => exact hn
  | cons segment path ih => exact hn.put (ih (hn.child segment)) segment

theorem valuesAt_alter (hn : n.children.Ordered) (f : List α → List α) (path : List String) :
    (n.alter f path).valuesAt path = f (n.valuesAt path) := by
  induction path generalizing n with
  | nil => rfl
  | cons segment path ih =>
    rw [valuesAt_cons, valuesAt_cons, child_alter hn, ih (ordered_child hn segment)]

theorem valuesAt_alter_of_ne (hn : n.children.Ordered) (f : List α → List α) {path path' : List String}
    (h : path ≠ path') : (n.alter f path).valuesAt path' = n.valuesAt path' := by
  induction path generalizing n path' with
  | nil =>
    cases path' with
    | nil => exact absurd rfl h
    | cons s p => rfl
  | cons segment path ih =>
    cases path' with
    | nil => rfl
    | cons s p =>
      by_cases hs : segment = s
      · subst hs
        rw [valuesAt_cons, valuesAt_cons, child_alter hn,
          ih (ordered_child hn segment) (by simpa using h)]
      · rw [valuesAt_cons, valuesAt_cons, child_alter_of_ne hs]

/-- What is stored is there, so no node on the way is empty. -/
theorem store_eq_alter (hf : ∀ vs, f vs ≠ []) (n : Node α) (path : List String) :
    n.store f path = n.alter f path := by
  induction path generalizing n with
  | nil => rfl
  | cons segment path ih =>
    rw [store, alter, ← ih, Forest.put_of_ne_empty (store_ne_empty hf _ path)]

/-- A child that is left in place was not empty and is not empty now. -/
theorem update_eq_alter (hn : n.children.Pruned) (hf : f [] = []) (path : List String) :
    (n.update f path).1 = n.alter f path := by
  induction path generalizing n with
  | nil => rfl
  | cons segment path ih =>
    have hc : n.child segment = (n.child? segment).getD empty := rfl
    unfold update alter
    rw [hc]
    split
    · next h =>
      rw [h, Option.getD_none, alter_empty hf, Forest.put_empty, Forest.remove_of_child?_eq_none h]
    · next c h =>
      obtain ⟨hne, hpruned⟩ := hn.of_child? h
      rw [h, Option.getD_some, ← ih hpruned]
      split
      · next c' h' =>
        have hleft := update_fst_ne_empty hne (by rw [h'])
        rw [Forest.put_of_ne_empty hleft, h']
      · next h' => rw [update_snd (by rw [h'])]; rfl

end Node

end TopicIndex
