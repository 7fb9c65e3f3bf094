import TopicIndex.Forest

/-!
# Values at a path

A node is read and changed at a path of segments. `store` makes the nodes it needs. `update` makes none:
it leaves a missing path alone, and on its way back up it takes out nodes as long as they hold nothing. It
takes out no node that holds something (`update_snd`), and a node that held something and stays still does
(`update_fst_ne_empty`).
-/

namespace TopicIndex

universe u v

variable {α : Type u} {β : Type v}

namespace Node

def child? (n : Node α) (segment : String) : Option (Node α) := n.children.child? segment

def child (n : Node α) (segment : String) : Node α := n.children.child segment

/-- What is seen at a child; nothing at a missing one. -/
def atChild (n : Node α) (segment : String) (see : Node α → List β) : List β :=
  match n.child? segment with
  | some c => see c
  | none => []

def find? (n : Node α) : List String → Option (Node α)
  | [] => some n
  | segment :: path => (n.child? segment).bind (find? · path)

def valuesAt (n : Node α) (path : List String) : List α :=
  match n.find? path with
  | some c => c.values
  | none => []

/-- Changes the list of values at a path, making the nodes on the way to it. -/
def store (f : List α → List α) (n : Node α) : List String → Node α
  | [] => { n with values := f n.values }
  | segment :: path =>
    { n with children := n.children.replace segment (store f (n.child segment) path) }

/-- Changes the list of values at a path that is there, takes out the nodes that hold nothing then, and
tells whether this node is one of them. -/
def update (f : List α → List α) (n : Node α) : List String → Node α × Bool
  | [] =>
    let left : Node α := { n with values := f n.values }
    (left, left.isEmpty)
  | segment :: path =>
    match n.child? segment with
    | none => (n, false)
    | some c =>
      match update f c path with
      | (c', false) => ({ n with children := n.children.replace segment c' }, false)
      | (_, true) =>
        let left : Node α := { n with children := n.children.remove segment }
        (left, left.isEmpty)

def purge [BEq α] (v : α) (n : Node α) : Node α where
  values := expunge v n.values
  children := n.children.purge v

def occurrences [BEq α] (v : α) (n : Node α) : Nat :=
  n.values.countP (· == v) + n.children.occurrences v

def size (n : Node α) : Nat := n.values.length + n.children.size

/-- All values at the node and below it. -/
def allValues (n : Node α) : List α := n.values ++ n.children.values

/-- The first of `allValues`. -/
def firstValue? (n : Node α) : Option α := n.values.head? <|> n.children.firstValue?

@[simp] theorem valuesAt_nil (n : Node α) : n.valuesAt [] = n.values := rfl

@[simp] theorem child_empty (segment : String) : (empty : Node α).child segment = empty := rfl

@[simp] theorem valuesAt_empty (path : List String) : (empty : Node α).valuesAt path = [] := by
  cases path <;> rfl

theorem valuesAt_cons (n : Node α) (segment : String) (path : List String) :
    n.valuesAt (segment :: path) = (n.child segment).valuesAt path := by
  have hc : n.child segment = (n.child? segment).getD empty := rfl
  have hv : n.valuesAt (segment :: path) =
      match (n.child? segment).bind (find? · path) with
      | some c => c.values
      | none => [] := rfl
  rw [hv, hc]
  cases n.child? segment with
  | none => simp
  | some c => rfl

/-- Where nothing is seen at an empty node, a missing child is as good as an empty one. -/
theorem atChild_eq {see : Node α → List β} (h : see empty = []) (n : Node α) (segment : String) :
    n.atChild segment see = see (n.child segment) := by
  have hc : n.child segment = (n.child? segment).getD empty := rfl
  rw [atChild, hc]
  cases n.child? segment with
  | none => exact h.symm
  | some c => rfl

theorem firstValue?_eq_head? (n : Node α) : n.firstValue? = n.allValues.head? := by
  simp [firstValue?, allValues, List.head?_append, Forest.firstValue?_eq_head?]

theorem head?_atChild {first : Node α → Option β} {see : Node α → List β}
    (h : ∀ n, first n = (see n).head?) (n : Node α) (segment : String) :
    (n.child? segment).bind first = (n.atChild segment see).head? := by
  rw [atChild]
  cases n.child? segment with
  | none => rfl
  | some c => exact h c

/-- What is stored is there. -/
theorem store_ne_empty {f : List α → List α} (hf : ∀ vs, f vs ≠ []) (n : Node α) (path : List String) :
    n.store f path ≠ empty := by
  cases path with
  | nil => exact fun h => hf n.values (congrArg Node.values h)
  | cons segment path => exact fun h => Forest.replace_ne_nil _ _ _ (congrArg Node.children h)

theorem update_snd {f : List α → List α} {n : Node α} {path : List String}
    (h : (n.update f path).2 = true) : (n.update f path).1 = empty := by
  cases path with
  | nil => exact isEmpty_iff.mp h
  | cons segment path =>
    unfold update at h ⊢
    split at h
    · cases h
    · split at h
      · cases h
      · exact isEmpty_iff.mp h

theorem update_fst_ne_empty {f : List α → List α} {n : Node α} {path : List String} (hn : n ≠ empty)
    (h : (n.update f path).2 = false) : (n.update f path).1 ≠ empty := by
  cases path with
  | nil => exact fun he => Bool.false_ne_true (h.symm.trans (isEmpty_iff.mpr he))
  | cons segment path =>
    unfold update at h ⊢
    split at h
    · exact hn
    · split at h
      · exact fun he => Forest.replace_ne_nil _ _ _ (congrArg children he)
      · exact fun he => Bool.false_ne_true (h.symm.trans (isEmpty_iff.mpr he))

end Node

end TopicIndex
